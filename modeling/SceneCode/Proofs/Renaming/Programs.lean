import Mathlib.Logic.Equiv.Basic
import SceneCode.Proofs.Renaming.Scopes
import SceneCode.Session.Compile

/-!
# Programs do not depend on names

Generation compares names and asks of a type only whether it is `void`.  So a tree with other names
compiles to the same program, or fails at the same place for the same reason, and the fault has the
other name (`compile_rename`).

The two runs are compared step by step.  `Gen.Renames r f x y` says that `y` does in the renamed
session what `x` does in the session, and that `f` takes the result of `x` to the result of `y`.
One computation after the other keeps this, so it is proved for the actions, then for every
construct, then along the tree.
-/

namespace SceneCode

/-- The outcome that the other names lead to. -/
def Outcome.rename {α β : Type} (r : Renaming) (f : α → β) (o : Outcome α) : Outcome β :=
  ⟨o.events.map (Event.rename r), r.ending f o.result, o.session.rename r⟩

namespace Gen

variable {r : Renaming} {α β γ δ : Type}

/-- From the renamed session, `y` goes the way that `x` goes from the session. -/
def Renames (r : Renaming) (f : α → β) (x : Gen α) (y : Gen β) : Prop :=
  ∀ s : Session, y (s.rename r) = (x s).rename r f

/-! ### Ways to build computations -/

theorem renames_pure (f : α → β) (a : α) : Renames r f (pure a : Gen α) (pure (f a) : Gen β) :=
  fun _ => rfl

theorem renames_fail (f : α → β) (e : Fault) : Renames r f (fail e) (fail (e.rename r)) :=
  fun _ => rfl

theorem renames_log (e : Event) : Renames r id (log e) (log (e.rename r)) :=
  fun _ => rfl

theorem renames_ask {f : α → β} {g : Session → α} {h : Session → β}
    (heq : ∀ s, h (s.rename r) = f (g s)) : Renames r f (ask g) (ask h) := by
  intro s
  unfold ask
  rw [heq]
  rfl

theorem renames_ofExcept {f : α → β} {g : Session → Except Fault α} {h : Session → Except Fault β}
    (heq : ∀ s, h (s.rename r) = r.ending f (g s)) : Renames r f (ofExcept g) (ofExcept h) := by
  intro s
  unfold ofExcept
  rw [heq]
  rfl

theorem renames_update {g h : Session → Session} (heq : ∀ s, h (s.rename r) = (g s).rename r) :
    Renames r id (update g) (update h) := by
  intro s
  unfold update
  rw [heq]
  rfl

/-- Both runs stop in the first computation, or both go on with results that correspond. -/
theorem Renames.bind {f : α → β} {g : γ → δ} {x : Gen α} {y : Gen β} {k : α → Gen γ}
    {l : β → Gen δ} (hx : Renames r f x y) (hk : ∀ a, Renames r g (k a) (l (f a))) :
    Renames r g (x >>= k) (y >>= l) := by
  intro s
  rw [bind_apply, bind_apply, hx s]
  unfold Outcome.rename
  cases hresult : (x s).result with
  | error e => rfl
  | ok a =>
    simp only [Renaming.ending_ok, hk a (x s).session]
    simp [Outcome.rename]

/-! ### Actions -/

theorem renames_emit (w : Word) : Renames r id (emit w) (emit w) :=
  fun _ => rfl

theorem renames_emitAll (ws : List Word) : Renames r id (emitAll ws) (emitAll ws) := by
  induction ws with
  | nil => exact renames_pure id ()
  | cons w rest ih => exact (renames_emit w).bind fun _ => ih

theorem renames_here : Renames r id here here :=
  renames_ask fun _ => rfl

theorem renames_patch (a : Address) (w : Word) : Renames r id (patch a w) (patch a w) := by
  intro s
  have hcode : (s.rename r).code = s.code := rfl
  unfold patch Code.patch
  rw [hcode]
  by_cases ha : a < s.code.words.size
  · simp only [dif_pos ha]
    rfl
  · simp only [dif_neg ha]
    rfl

theorem renames_emitJump (op : Opcode) : Renames r id (emitJump op) (emitJump op) :=
  (renames_emit _).bind fun _ => renames_emit _

theorem renames_land (hole : Address) : Renames r id (land hole) (land hole) :=
  renames_here.bind fun _ => renames_patch _ _

theorem renames_depth : Renames r id (ask (·.scopes.depth)) (ask (·.scopes.depth)) :=
  renames_ask fun s => Scopes.depth_rename r s.scopes

theorem renames_unless {c : Bool} {x y : Gen Unit} (h : Renames r id x y) :
    Renames r id (unless c do x) (unless c do y) := by
  cases c with
  | true => exact renames_pure id ()
  | false => exact h

theorem renames_pushScope (silent : Bool) : Renames r id (pushScope silent) (pushScope silent) := by
  have hpush : Renames r id (update fun s => { s with scopes := s.scopes.push })
      (update fun s => { s with scopes := s.scopes.push }) := renames_update fun _ => rfl
  refine hpush.bind fun _ => renames_depth.bind fun _ => ?_
  exact (renames_log _).bind fun _ => renames_unless (renames_emitAll _)

theorem renames_defer (call : PendingCall) :
    Renames r id (update fun s => { s with scopes := s.scopes.defer call })
      (update fun s => { s with scopes := s.scopes.defer (call.rename r) }) := by
  apply renames_update
  intro s
  have hscopes : (s.rename r).scopes.defer (call.rename r) = (s.scopes.defer call).rename r :=
    Scopes.defer_rename r s.scopes call
  rw [hscopes]
  rfl

theorem renames_settle (frame : Frame) (call : PendingCall) :
    Renames r id (settle frame call) (settle (frame.rename r) (call.rename r)) := by
  have hlabel : (frame.rename r).get? (call.rename r).name =
      (frame.get? call.name).map (Label.rename r) := Frame.get?_rename r frame call.name
  unfold settle
  rw [hlabel]
  cases frame.get? call.name with
  | none => exact renames_pure id false
  | some label =>
    obtain ⟨address, kind, signature⟩ := label
    cases kind with
    | function =>
      exact (renames_log _).bind fun _ => (renames_patch _ _).bind fun _ => renames_pure id true
    | «variable» type => exact renames_fail id _

theorem renames_settleInto (frame : Frame) (calls : List PendingCall) :
    Renames r id (settleInto frame calls)
      (settleInto (frame.rename r) (calls.map (PendingCall.rename r))) := by
  induction calls with
  | nil => exact renames_pure id ()
  | cons call rest ih =>
    refine (renames_settle frame call).bind fun settled => ?_
    cases settled with
    | true => exact ih
    | false => exact (renames_defer call).bind fun _ => ih

theorem renames_takeFrame : Renames r (Frame.rename r) takeFrame takeFrame := by
  intro s
  have hpop : (s.rename r).scopes.pop =
      r.ending (Prod.map (Frame.rename r) (Scopes.rename r)) s.scopes.pop :=
    Scopes.pop_rename r s.scopes
  unfold takeFrame
  rw [hpop]
  cases s.scopes.pop <;> rfl

theorem renames_popScope (silent : Bool) : Renames r id (popScope silent) (popScope silent) := by
  refine renames_takeFrame.bind fun frame => ?_
  refine (renames_settleInto frame frame.pending).bind fun _ => renames_depth.bind fun _ => ?_
  exact (renames_log _).bind fun _ => renames_unless (renames_emitAll _)

theorem renames_registerLabel (name : String) (kind : LabelKind) (signature : Option Signature) :
    Renames r id (registerLabel name kind signature)
      (registerLabel (r.name name) (kind.rename r) (signature.map (Signature.rename r))) := by
  intro s
  have hregister := Scopes.register_rename r s.scopes name kind signature s.code.next
  have hscopes : (s.rename r).scopes = s.scopes.rename r := rfl
  have hcode : (s.rename r).code = s.code := rfl
  unfold registerLabel
  rw [hscopes, hcode, hregister]
  cases s.scopes.register name kind signature s.code.next with
  | error e => rfl
  | ok registered =>
    obtain ⟨address, scopes⟩ := registered
    simp only [Renaming.ending_ok, Prod.map_apply, Scopes.depth_rename]
    rfl

theorem renames_enterFunction (type : TypeName) :
    Renames r id (enterFunction type) (enterFunction (type.rename r)) :=
  renames_update fun _ => rfl

theorem renames_exitFunction : Renames r id exitFunction exitFunction := by
  apply renames_update
  intro s
  simp [Session.rename, ReturnTypes.exit, ReturnTypes.rename, List.map_tail]

theorem renames_currentFunctionType :
    Renames r (TypeName.rename r) currentFunctionType currentFunctionType :=
  renames_ofExcept fun s => ReturnTypes.current_rename r s.functions

/-! ### Names and values -/

theorem renames_finish (u : Usage) : Renames r id (finish u) (finish u) := by
  cases u with
  | value => exact renames_pure id ()
  | discard => exact renames_emitAll _

theorem renames_variableAddress (name : String) :
    Renames r id (variableAddress name) (variableAddress (r.name name)) := by
  have hlookup : Renames r (Resolved.rename r) (ofExcept (·.scopes.lookup name))
      (ofExcept (·.scopes.lookup (r.name name))) :=
    renames_ofExcept fun s => Scopes.lookup_rename r s.scopes name
  refine hlookup.bind fun found => ?_
  obtain ⟨⟨address, kind, signature⟩, depth⟩ := found
  cases kind with
  | function => exact renames_fail id _
  | «variable» type => exact renames_pure id _

theorem renames_loadVariable (name : String) :
    Renames r id (loadVariable name) (loadVariable (r.name name)) :=
  (renames_variableAddress name).bind fun _ => renames_emitAll _

theorem renames_storeVariable (name : String) (u : Usage) :
    Renames r id (storeVariable name u) (storeVariable (r.name name) u) := by
  refine (renames_variableAddress name).bind fun _ => ?_
  cases u with
  | value => exact (renames_emitAll _).bind fun _ => renames_emitAll _
  | discard => exact renames_emitAll _

theorem renames_find (name : String) :
    Renames r (Option.map (Resolved.rename r)) (ask (·.scopes.find? name))
      (ask (·.scopes.find? (r.name name))) :=
  renames_ask fun s => Scopes.find?_rename r s.scopes name

theorem renames_callTarget (name : String) :
    Renames r id (callTarget name) (callTarget (r.name name)) := by
  refine (renames_find name).bind fun found => ?_
  cases found with
  | none => exact renames_pure id none
  | some found =>
    obtain ⟨⟨address, kind, signature⟩, depth⟩ := found
    cases kind with
    | function => exact renames_pure id (some address)
    | «variable» type => exact renames_fail id _

theorem renames_emitTarget (name : String) (target : Option Address) :
    Renames r id (emitTarget name target) (emitTarget (r.name name) target) := by
  cases target with
  | some address => exact renames_emitAll _
  | none =>
    have hforward : Renames r id (ask (·.config.forwardCalls)) (ask (·.config.forwardCalls)) :=
      renames_ask fun _ => rfl
    refine hforward.bind fun forward => ?_
    cases forward with
    | true =>
      refine (renames_emit _).bind fun patchAt => ?_
      exact (renames_log _).bind fun _ => renames_defer ⟨name, patchAt⟩
    | false => exact renames_fail id _

theorem renames_declare (type : TypeName) (name : String) :
    Renames r id (declare type name) (declare (type.rename r) (r.name name)) :=
  (renames_registerLabel name (.variable type) none).bind fun _ => renames_pure id ()

theorem renames_declareParams (params : List Param) :
    Renames r id (declareParams params) (declareParams (params.map (Param.rename r))) := by
  induction params with
  | nil => exact renames_pure id ()
  | cons p rest ih => exact (renames_declare p.type p.name).bind fun _ => ih

/-! ### Constructs -/

section Constructs

variable {x y z v x' y' z' v' : Gen Unit} (hx : Renames r id x x') (hy : Renames r id y y')
  (hz : Renames r id z z') (hv : Renames r id v v')

include hx

theorem renames_node (kind : Kind) : Renames r id (node kind x) (node kind x') :=
  renames_depth.bind fun _ => (renames_log _).bind fun _ => hx

theorem renames_assign (name : String) (u : Usage) :
    Renames r id (assign name x u) (assign (r.name name) x' u) :=
  hx.bind fun _ => renames_storeVariable name u

theorem renames_compound (op : BinaryOp) (name : String) (u : Usage) :
    Renames r id (compound op name x u) (compound op (r.name name) x' u) := by
  refine (renames_loadVariable name).bind fun _ => hx.bind fun _ => ?_
  exact (renames_emitAll _).bind fun _ => renames_storeVariable name u

theorem renames_unary (op : UnaryOp) (u : Usage) :
    Renames r id (unary op x u) (unary op x' u) :=
  hx.bind fun _ => (renames_emitAll _).bind fun _ => renames_finish u

theorem renames_call (name : String) (count : Nat) (u : Usage) :
    Renames r id (call name count x u) (call (r.name name) count x' u) := by
  refine hx.bind fun _ => (renames_callTarget name).bind fun target => ?_
  refine (renames_emitAll _).bind fun _ => (renames_emitTarget name target).bind fun _ => ?_
  exact (renames_emitAll _).bind fun _ => renames_finish u

theorem renames_block : Renames r id (block x) (block x') :=
  (renames_pushScope false).bind fun _ => hx.bind fun _ => renames_popScope false

theorem renames_declareWith (type : TypeName) (name : String) :
    Renames r id (declareWith type name x) (declareWith (type.rename r) (r.name name) x') := by
  refine hx.bind fun _ => ?_
  exact (renames_registerLabel name (.variable type) none).bind fun _ => renames_emitAll _

theorem renames_jumpOver (needed : Bool) :
    Renames r id (jumpOver needed x) (jumpOver needed x') := by
  cases needed with
  | true => exact (renames_emitJump _).bind fun hole => hx.bind fun _ => renames_land hole
  | false => exact hx

theorem renames_function (name : String) (params : List Param) (returns : TypeName) :
    Renames r id (function name params returns x)
      (function (r.name name) (params.map (Param.rename r)) (returns.rename r) x') := by
  have hneeded : Renames r id
      (ask fun s => decide (0 < s.functions.depth) || s.config.emitHalt)
      (ask fun s => decide (0 < s.functions.depth) || s.config.emitHalt) := by
    apply renames_ask
    intro s
    simp [Session.rename]
  refine hneeded.bind fun needed => renames_jumpOver ?_ needed
  refine (renames_registerLabel name .function (some ⟨params, returns⟩)).bind fun _ => ?_
  refine (renames_enterFunction returns).bind fun _ => (renames_pushScope true).bind fun _ => ?_
  refine (renames_declareParams params).bind fun _ => hx.bind fun _ => ?_
  refine (renames_emitAll _).bind fun _ => (renames_popScope true).bind fun _ => ?_
  exact renames_exitFunction

/-- This is the only place where a type matters. -/
theorem renames_ret (isEmpty : Bool) : Renames r id (ret isEmpty x) (ret isEmpty x') := by
  refine renames_currentFunctionType.bind fun type => ?_
  cases isEmpty with
  | true => exact renames_emitAll _
  | false =>
    refine hx.bind fun _ => ?_
    rw [TypeName.isVoid_rename]
    cases type.isVoid with
    | true => exact renames_emitAll _
    | false => exact renames_emitAll _

include hy

theorem renames_binary (op : BinaryOp) (u : Usage) :
    Renames r id (binary op x y u) (binary op x' y' u) := by
  refine hx.bind fun _ => hy.bind fun _ => ?_
  exact (renames_emitAll _).bind fun _ => renames_finish u

theorem renames_logical (op : LogicalOp) (u : Usage) :
    Renames r id (logical op x y u) (logical op x' y' u) := by
  refine hx.bind fun _ => (renames_emitAll _).bind fun _ => ?_
  refine (renames_emitJump _).bind fun toEnd => (renames_emitAll _).bind fun _ => ?_
  exact hy.bind fun _ => (renames_land toEnd).bind fun _ => renames_finish u

theorem renames_ifThen : Renames r id (ifThen x y) (ifThen x' y') := by
  refine hx.bind fun _ => (renames_emitJump _).bind fun toEnd => ?_
  exact hy.bind fun _ => renames_land toEnd

theorem renames_whileLoop : Renames r id (whileLoop x y) (whileLoop x' y') := by
  refine renames_here.bind fun start => hx.bind fun _ => ?_
  refine (renames_emitJump _).bind fun toEnd => hy.bind fun _ => ?_
  exact (renames_emitAll _).bind fun _ => renames_land toEnd

theorem renames_doLoop : Renames r id (doLoop x y) (doLoop x' y') := by
  refine renames_here.bind fun start => hy.bind fun _ => ?_
  exact hx.bind fun _ => renames_emitAll _

include hz

theorem renames_ifElse : Renames r id (ifElse x y z) (ifElse x' y' z') := by
  refine hx.bind fun _ => (renames_emitJump _).bind fun toOther => ?_
  refine hy.bind fun _ => (renames_emitJump _).bind fun toEnd => ?_
  exact (renames_land toOther).bind fun _ => hz.bind fun _ => renames_land toEnd

include hv

theorem renames_forLoop (isEndless : Bool) :
    Renames r id (forLoop x isEndless y z v) (forLoop x' isEndless y' z' v') := by
  refine (renames_pushScope false).bind fun _ => hx.bind fun _ => ?_
  refine renames_here.bind fun start => ?_
  cases isEndless with
  | true =>
    refine hv.bind fun _ => hz.bind fun _ => ?_
    exact (renames_emitAll _).bind fun _ => renames_popScope false
  | false =>
    refine hy.bind fun _ => (renames_emitJump _).bind fun toEnd => ?_
    refine hv.bind fun _ => hz.bind fun _ => (renames_emitAll _).bind fun _ => ?_
    exact (renames_land toEnd).bind fun _ => renames_popScope false

end Constructs

/-! ### Trees -/

mutual

theorem renames_generate (t : Tree) (u : Usage) :
    Renames r id (t.generate u) ((t.rename r).generate u) := by
  match t with
  | .empty => exact renames_pure id ()
  | .seq items => exact renames_generateAll items u
  | .program body => exact renames_node (renames_generate body _) _
  | .block body => exact renames_node (renames_block (renames_generate body _)) _
  | .function name params returns body =>
    exact renames_node (renames_function (renames_generate body _) name params returns) _
  | .ret value =>
    -- The code depends on whether there is a value, which other names do not change.
    rw [Tree.rename, Tree.generate, Tree.generate, Tree.isEmpty_rename]
    exact renames_node (renames_ret (renames_generate value _) _) _
  | .declare type name => exact renames_node (renames_declare type name) _
  | .declareWith type name value =>
    exact renames_node (renames_declareWith (renames_generate value _) type name) _
  | .assign name value => exact renames_node (renames_assign (renames_generate value _) name u) _
  | .compound op name value =>
    exact renames_node (renames_compound (renames_generate value _) op name u) _
  | .step op name =>
    refine renames_node ((renames_loadVariable name).bind fun _ => ?_) _
    exact (renames_emitAll _).bind fun _ => renames_storeVariable name u
  | .ifThen cond body =>
    exact renames_node (renames_ifThen (renames_generate cond _) (renames_generate body _)) _
  | .ifElse cond body other =>
    exact renames_node (renames_ifElse (renames_generate cond _) (renames_generate body _)
      (renames_generate other _)) _
  | .whileLoop cond body =>
    exact renames_node (renames_whileLoop (renames_generate cond _) (renames_generate body _)) _
  | .doLoop cond body =>
    exact renames_node (renames_doLoop (renames_generate cond _) (renames_generate body _)) _
  | .forLoop init cond update body =>
    rw [Tree.rename, Tree.generate, Tree.generate, Tree.isEmpty_rename]
    exact renames_node (renames_forLoop (renames_generate init _) (renames_generate cond _)
      (renames_generate update _) (renames_generate body _) _) _
  | .call name args =>
    rw [Tree.rename, Tree.generate, Tree.generate, Tree.length_renameAll]
    exact renames_node (renames_call (renames_generateAll args _) name args.length u) _
  | .binary op lhs rhs =>
    exact renames_node (renames_binary (renames_generate lhs _) (renames_generate rhs _) op u) _
  | .logical op lhs rhs =>
    exact renames_node (renames_logical (renames_generate lhs _) (renames_generate rhs _) op u) _
  | .unary op operand => exact renames_node (renames_unary (renames_generate operand _) op u) _
  | .ident name =>
    exact renames_node ((renames_loadVariable name).bind fun _ => renames_finish u) _
  | .lit value => exact renames_node ((renames_emitAll _).bind fun _ => renames_finish u) _

theorem renames_generateAll (ts : List Tree) (u : Usage) :
    Renames r id (Tree.generateAll ts u) (Tree.generateAll (Tree.renameAll r ts) u) := by
  match ts with
  | [] => exact renames_pure id ()
  | t :: rest => exact (renames_generate t u).bind fun _ => renames_generateAll rest u

end

/-! ### Whole programs -/

theorem renames_takeRootPending :
    Renames r (List.map (PendingCall.rename r)) takeRootPending takeRootPending := by
  intro s
  have hpending : (s.rename r).scopes.takeRootPending =
      (s.scopes.takeRootPending.1.map (PendingCall.rename r),
        s.scopes.takeRootPending.2.rename r) := Scopes.takeRootPending_rename r s.scopes
  unfold takeRootPending
  rw [hpending]
  rfl

theorem renames_settleAll (calls : List PendingCall) :
    Renames r id (settleAll calls) (settleAll (calls.map (PendingCall.rename r))) := by
  induction calls with
  | nil => exact renames_pure id ()
  | cons call rest ih =>
    have hcurrent : Renames r (Frame.rename r) (ask (·.scopes.current)) (ask (·.scopes.current)) :=
      renames_ask fun _ => rfl
    refine hcurrent.bind fun frame => (renames_settle frame call).bind fun settled => ?_
    cases settled with
    | true => exact ih
    | false =>
      have hfail : Renames r id (fail (.unresolved call.name) : Gen Unit)
          (fail (.unresolved (r.name call.name))) := renames_fail id _
      exact hfail.bind fun _ => ih

/-- Entry points are looked up under fixed names, so these have to stay. -/
theorem renames_entryPoint {name : String} (hname : r.name name = name) :
    Renames r id (entryPoint name) (entryPoint name) := by
  have hfind := renames_find (r := r) name
  rw [hname] at hfind
  have hentry (address : Address) :
      (Event.entryPoint name address).rename r = .entryPoint name address := by
    rw [Event.rename, hname]
  have hvariable : (Event.entryPointNotFunction name).rename r = .entryPointNotFunction name := by
    rw [Event.rename, hname]
  refine hfind.bind fun found => ?_
  cases found with
  | none => exact renames_pure id none
  | some found =>
    obtain ⟨⟨address, kind, signature⟩, depth⟩ := found
    cases kind with
    | function =>
      have hlog := renames_log (r := r) (.entryPoint name address)
      rw [hentry] at hlog
      exact hlog.bind fun _ => renames_pure id (some address)
    | «variable» type =>
      have hlog := renames_log (r := r) (.entryPointNotFunction name)
      rw [hvariable] at hlog
      exact hlog.bind fun _ => renames_pure id none

theorem renames_compile (tree : Tree) : Renames r id (compile tree) (compile (tree.rename r)) := by
  have hreset : Renames r id reset reset := renames_update fun _ => rfl
  have hhalt : Renames r id (ask (·.config.emitHalt)) (ask (·.config.emitHalt)) :=
    renames_ask fun _ => rfl
  have htake : Renames r id takeCode takeCode := fun _ => rfl
  -- What follows the halt is the same computation in both runs: only the two fixed names occur.
  have hfinal : Renames r id
      (do
        let init ← entryPoint "init"
        let render ← entryPoint "render"
        log (.compiled (← here) init render)
        return ⟨← takeCode, init, render⟩)
      (do
        let init ← entryPoint "init"
        let render ← entryPoint "render"
        log (.compiled (← here) init render)
        return ⟨← takeCode, init, render⟩ : Gen Program) := by
    refine (renames_entryPoint r.init).bind fun init => ?_
    refine (renames_entryPoint r.render).bind fun render => ?_
    refine renames_here.bind fun words => (renames_log _).bind fun _ => ?_
    exact htake.bind fun code => renames_pure id _
  refine hreset.bind fun _ => (renames_generate tree .discard).bind fun _ => ?_
  refine renames_takeRootPending.bind fun calls => (renames_settleAll calls).bind fun _ => ?_
  refine hhalt.bind fun halts => ?_
  cases halts with
  | true => exact (renames_emitAll _).bind fun _ => hfinal
  | false => exact hfinal

end Gen

/-- **A tree with other names compiles to the same program**, or fails for the same reason, and the
    fault has the other name. -/
theorem compile_rename (r : Renaming) (config : Config) (tree : Tree) :
    (tree.rename r).compile config = (tree.compile config).mapError (Fault.rename r) := by
  have hrun := Gen.renames_compile (r := r) tree { config }
  have hresult : (Gen.compile (tree.rename r) { config }).result =
      r.ending id (Gen.compile tree { config }).result := congrArg Outcome.result hrun
  have hid : Except.map id (tree.compile config) = tree.compile config := by
    cases tree.compile config <;> rfl
  calc (tree.rename r).compile config
      = (Except.map id (tree.compile config)).mapError (Fault.rename r) := hresult
    _ = (tree.compile config).mapError (Fault.rename r) := by rw [hid]

/-- The width is the height and the other way round, and all numbers are of one type. -/
def Renaming.turned : Renaming where
  name := Equiv.swap "width" "height"
  type := fun t => if t = "int" then "float" else t
  injective := (Equiv.swap "width" "height").injective
  init := Equiv.swap_apply_of_ne_of_ne (by decide) (by decide)
  render := Equiv.swap_apply_of_ne_of_ne (by decide) (by decide)
  void := by
    intro t
    by_cases hint : t = "int"
    · simp [hint]
    · simp [hint]

/-- A function that gives one of its variables the value of the other. -/
def Tree.square : Tree :=
  .program (.function "init" [⟨⟨"int"⟩, "width"⟩] .void
    (.seq [.declareWith ⟨"float"⟩ "height" (.ident "width"), .ret (.ident "height")]))

theorem compile_rename_square :
    Tree.square.rename .turned =
        .program (.function "init" [⟨⟨"float"⟩, "height"⟩] .void
          (.seq [.declareWith ⟨"float"⟩ "width" (.ident "height"), .ret (.ident "width")])) ∧
      (∃ p, Tree.square.compile {} = .ok p ∧ (Tree.square.rename .turned).compile {} = .ok p) ∧
      (Tree.assign "width" .square).compile {} = .error (.unresolved "width") ∧
      ((Tree.assign "width" .square).rename .turned).compile {} =
        .error (.unresolved "height") := by
  have hfault : (Tree.assign "width" .square).compile {} = .error (.unresolved "width") := rfl
  refine ⟨rfl, ⟨_, rfl, ?_⟩, hfault, ?_⟩
  · exact compile_rename .turned {} .square
  · rw [compile_rename, hfault]
    rfl

end SceneCode
