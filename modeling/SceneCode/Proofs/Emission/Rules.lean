import SceneCode.Proofs.Session.Growth

/-!
# What a tree emits

`Emits config fn sc a t u p sc'` says that the tree `t`, used as `u`, becomes the segment `p` where
it starts at the address `a`, inside a function that returns `fn` or outside of all functions, with
the scopes `sc` open before and `sc'` after it.  There is one rule for each way in which generation
can succeed; words, patches and the log do not occur in the rules.  Calls of functions that are not
known yet stay names in `p` until the rule that closes a scope settles them.

Everything that holds of generated code is proved from the rules.
-/

namespace SceneCode

/-! ### Parts of segments -/

namespace Segment

/-- Drop a value that nobody uses. -/
def finish : Usage → Segment
  | .value => .nothing
  | .discard => .one .pop

/-- Pop a value into a variable.  Where the value is used, a copy stays. -/
def store : Usage → Nat → Nat → Segment
  | .value, depth, slot => ops [.dup, .store depth slot]
  | .discard, depth, slot => ops [.store depth slot]

/-- Return with the value on the stack, or without it where the function has none. -/
def leave (type : TypeName) : Segment :=
  if type.isVoid then ops [.pop, .ret] else ops [.retValue]

end Segment

namespace Scopes

def declare (sc : Scopes) (type : TypeName) (name : String) : Except Fault (Nat × Scopes) :=
  sc.register name (.variable type) none 0

def declareAll : List Param → Scopes → Except Fault Scopes
  | [], sc => .ok sc
  | p :: rest, sc => do
    let (_, sc) ← sc.declare p.type p.name
    declareAll rest sc

/-- What the call of a name leads to: a function of an open scope, or the name itself if no open
    scope has it and the options allow that. -/
def CallsTo (config : Config) (name : String) (sc : Scopes) : Target → Prop
  | .known address => sc.function? name = some address
  | .pending other => other = name ∧ sc.find? name = none ∧ config.forwardCalls = true

/-- A variable gets its slot wherever the code is. -/
theorem register_variable (sc : Scopes) (name : String) (type : TypeName) (pc : Address) :
    sc.register name (.variable type) none pc = sc.declare type name := rfl

theorem declareAll_cons {p : Param} {ps : List Param} {sc sc' : Scopes} :
    sc.declareAll (p :: ps) = .ok sc' ↔
      ∃ slot mid, sc.declare p.type p.name = .ok (slot, mid) ∧ mid.declareAll ps = .ok sc' := by
  rcases hdeclare : sc.declare p.type p.name with e | ⟨slot, mid⟩
  · simp only [declareAll, hdeclare]
    constructor
    · intro h
      cases h
    · rintro ⟨_, _, hok, _⟩
      cases hok
  · simp only [declareAll, hdeclare, Except.ok.injEq, Prod.mk.injEq]
    constructor
    · intro h
      exact ⟨slot, mid, ⟨rfl, rfl⟩, h⟩
    · rintro ⟨_, _, ⟨rfl, rfl⟩, h⟩
      exact h

/-- Parameters change neither the scopes around theirs nor its pending calls, and do not depend on
    the latter. -/
theorem declareAll_bare {ps : List Param} {sc sc' : Scopes} (h : sc.declareAll ps = .ok sc') :
    sc.bare.declareAll ps = .ok sc'.bare ∧ sc'.outer = sc.outer ∧
      sc'.current.pending = sc.current.pending := by
  induction ps generalizing sc with
  | nil =>
    cases h
    exact ⟨rfl, rfl, rfl⟩
  | cons p ps ih =>
    obtain ⟨slot, mid, hdeclare, hrest⟩ := declareAll_cons.mp h
    obtain ⟨hbare, houter, hpending⟩ := ih hrest
    exact ⟨declareAll_cons.mpr ⟨slot, mid.bare, register_bare hdeclare, hbare⟩,
      houter.trans (outer_of_register hdeclare),
      hpending.trans (pending_of_register hdeclare)⟩

end Scopes

/-- Whether the definition of a function needs a jump over it. -/
def guarded (config : Config) (fn : Option TypeName) : Bool :=
  fn.isSome || config.emitHalt

/-! ### The rules -/

open Segment in
/-- What a tree emits. -/
inductive Emits (config : Config) :
    Option TypeName → Scopes → Address → Tree → Usage → Segment → Scopes → Prop where
  | empty {fn sc a u} : Emits config fn sc a .empty u .nothing sc
  | seqNil {fn sc a u} : Emits config fn sc a (.seq []) u .nothing sc
  | seqCons {fn sc a u t ts p sc₁ q sc₂} :
      Emits config fn sc a t u p sc₁ →
      Emits config fn sc₁ (a + p.size) (.seq ts) u q sc₂ →
      Emits config fn sc a (.seq (t :: ts)) u (.seq p q) sc₂
  | program {fn sc a u body p sc'} :
      Emits config fn sc a body .discard p sc' →
      Emits config fn sc a (.program body) u p sc'
  | block {fn sc a u body p frame} :
      Emits config fn sc.push (a + 1) body .discard p ⟨frame, sc.frames⟩ →
      p.SettledBy frame →
      Emits config fn sc a (.block body) u (scope (p.settle frame)) sc
  | function {fn sc a u name params returns body sc₁ sc₂ p frame} :
      sc.register name .function (some ⟨params, returns⟩) (a + guardSize (guarded config fn)) =
        .ok (a + guardSize (guarded config fn), sc₁) →
      sc₁.push.declareAll params = .ok sc₂ →
      Emits config (some returns) sc₂ (a + guardSize (guarded config fn)) body .discard p
        ⟨frame, sc₁.frames⟩ →
      p.SettledBy frame →
      Emits config fn sc a (.function name params returns body) u
        (.function (guarded config fn) (p.settle frame)) sc₁
  | retEmpty {type sc a u} : Emits config (some type) sc a (.ret .empty) u (.one .ret) sc
  | ret {type sc a u value p sc'} :
      value.isEmpty = false →
      Emits config (some type) sc a value .value p sc' →
      Emits config (some type) sc a (.ret value) u (.seq p (leave type)) sc'
  | declare {fn sc a u type name slot sc'} :
      sc.declare type name = .ok (slot, sc') →
      Emits config fn sc a (.declare type name) u .nothing sc'
  | declareWith {fn sc a u type name value p sc₁ slot sc₂} :
      Emits config fn sc a value .value p sc₁ →
      sc₁.declare type name = .ok (slot, sc₂) →
      Emits config fn sc a (.declareWith type name value) u (.seq p (.one (.store 0 slot))) sc₂
  | assign {fn sc a u name value p sc' depth slot} :
      Emits config fn sc a value .value p sc' →
      sc'.locate? name = some (depth, slot) →
      Emits config fn sc a (.assign name value) u (.seq p (store u depth slot)) sc'
  | compound {fn sc a u op name value depth slot p sc' depth' slot'} :
      sc.locate? name = some (depth, slot) →
      Emits config fn sc (a + 3) value .value p sc' →
      sc'.locate? name = some (depth', slot') →
      Emits config fn sc a (.compound op name value) u
        (.seq (.one (.load depth slot)) (.seq p (.seq (.one (.binary op)) (store u depth' slot'))))
        sc'
  | step {fn sc a u op name depth slot} :
      sc.locate? name = some (depth, slot) →
      Emits config fn sc a (.step op name) u
        (.seq (ops [.load depth slot, .push (.int 1), .binary op.binary]) (store u depth slot)) sc
  | ifThen {fn sc a u cond body p sc₁ q sc₂} :
      Emits config fn sc a cond .value p sc₁ →
      Emits config fn sc₁ (a + p.size + 2) body .discard q sc₂ →
      Emits config fn sc a (.ifThen cond body) u (.seq p (.skip .ifFalse q)) sc₂
  | ifElse {fn sc a u cond body other p sc₁ q sc₂ r sc₃} :
      Emits config fn sc a cond .value p sc₁ →
      Emits config fn sc₁ (a + p.size + 2) body .discard q sc₂ →
      Emits config fn sc₂ (a + p.size + 2 + q.size + 2) other .discard r sc₃ →
      Emits config fn sc a (.ifElse cond body other) u (.seq p (.choice q r)) sc₃
  | whileLoop {fn sc a u cond body p sc₁ q sc₂} :
      Emits config fn sc a cond .value p sc₁ →
      Emits config fn sc₁ (a + p.size + 2) body .discard q sc₂ →
      Emits config fn sc a (.whileLoop cond body) u (.loop p q) sc₂
  | doLoop {fn sc a u cond body p sc₁ q sc₂} :
      Emits config fn sc a body .discard p sc₁ →
      Emits config fn sc₁ (a + p.size) cond .value q sc₂ →
      Emits config fn sc a (.doLoop cond body) u (.rounds (.seq p q) .ifTrue) sc₂
  | forEndless {fn sc a u init update body p sc₁ q sc₂ r frame} :
      Emits config fn sc.push (a + 1) init .discard p sc₁ →
      Emits config fn sc₁ (a + 1 + p.size) body .discard q sc₂ →
      Emits config fn sc₂ (a + 1 + p.size + q.size) update .discard r ⟨frame, sc.frames⟩ →
      SettledBy frame (.seq p (.rounds (.seq q r) .always)) →
      Emits config fn sc a (.forLoop init .empty update body) u
        (scope (settle frame (.seq p (.rounds (.seq q r) .always)))) sc
  | forLoop {fn sc a u init cond update body p sc₁ c sc₂ q sc₃ r frame} :
      cond.isEmpty = false →
      Emits config fn sc.push (a + 1) init .discard p sc₁ →
      Emits config fn sc₁ (a + 1 + p.size) cond .value c sc₂ →
      Emits config fn sc₂ (a + 1 + p.size + c.size + 2) body .discard q sc₃ →
      Emits config fn sc₃ (a + 1 + p.size + c.size + 2 + q.size) update .discard r
        ⟨frame, sc.frames⟩ →
      SettledBy frame (.seq p (.loop c (.seq q r))) →
      Emits config fn sc a (.forLoop init cond update body) u
        (scope (settle frame (.seq p (.loop c (.seq q r))))) sc
  | call {fn sc a u name args p sc' target} :
      Emits config fn sc a (.seq args) .value p sc' →
      sc'.CallsTo config name target →
      Emits config fn sc a (.call name args) u
        (.seq p (.seq (.one (.call target args.length)) (finish u))) sc'
  | binary {fn sc a u op lhs rhs p sc₁ q sc₂} :
      Emits config fn sc a lhs .value p sc₁ →
      Emits config fn sc₁ (a + p.size) rhs .value q sc₂ →
      Emits config fn sc a (.binary op lhs rhs) u
        (.seq p (.seq q (.seq (.one (.binary op)) (finish u)))) sc₂
  | logical {fn sc a u op lhs rhs p sc₁ q sc₂} :
      Emits config fn sc a lhs .value p sc₁ →
      Emits config fn sc₁ (a + p.size + 4) rhs .value q sc₂ →
      Emits config fn sc a (.logical op lhs rhs) u
        (.seq p (.seq (.one .dup) (.seq (.skip op.jump (.seq (.one .pop) q)) (finish u)))) sc₂
  | unary {fn sc a u op operand p sc'} :
      Emits config fn sc a operand .value p sc' →
      Emits config fn sc a (.unary op operand) u (.seq p (.seq (.one (.unary op)) (finish u))) sc'
  | ident {fn sc a u name depth slot} :
      sc.locate? name = some (depth, slot) →
      Emits config fn sc a (.ident name) u (.seq (.one (.load depth slot)) (finish u)) sc
  | lit {fn sc a u value} :
      Emits config fn sc a (.lit value) u (.seq (.one (.push value)) (finish u)) sc

/-- What a tree does to the scope it stands in is what its declarations do there, one after the
    other.  Scopes that open on the way are closed again. -/
theorem Emits.registers {R : Frame → Frame → Prop} (refl : ∀ f, R f f)
    (trans : ∀ {f g h}, R f g → R g h → R f h)
    (register : ∀ {f g : Frame} {name kind signature pc a},
      f.register name kind signature pc = .ok (a, g) → R f g)
    {config : Config} {fn : Option TypeName} {sc sc' : Scopes} {a : Address} {t : Tree} {u : Usage}
    {p : Segment} (h : Emits config fn sc a t u p sc') : R sc.current sc'.current := by
  induction h with
  | empty | seqNil | retEmpty | step | ident | lit | block | forEndless | forLoop => exact refl _
  | function hregister => exact register (Scopes.frame_of_register hregister).1
  | declare hdeclare => exact register (Scopes.frame_of_register hdeclare).1
  | declareWith _ hdeclare ih =>
    exact trans ih (register (Scopes.frame_of_register hdeclare).1)
  | program _ ih | ret _ _ ih | assign _ _ ih | compound _ _ _ ih | call _ _ ih | unary _ ih =>
    exact ih
  | seqCons _ _ ih₁ ih₂ | ifThen _ _ ih₁ ih₂ | whileLoop _ _ ih₁ ih₂ | doLoop _ _ ih₁ ih₂
  | binary _ _ ih₁ ih₂ | logical _ _ ih₁ ih₂ => exact trans ih₁ ih₂
  | ifElse _ _ _ ih₁ ih₂ ih₃ => exact trans (trans ih₁ ih₂) ih₃

end SceneCode
