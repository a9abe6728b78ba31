import SceneCode.Session.Generate

/-!
# Properties of computations

Code generation is made of a few actions, one after the other.  So a property of computations holds
of the generation of every tree as soon as it holds of these actions and of one computation after
another: `Compositional.generate`.

Some properties hold of generation but not of every action by itself.  A scope that is closed is not
one that was open before, and a jump that gets its target was written before: this is known only
where the two ends are taken together.  For such a property it is enough to know it of what stands
between the two ends (`Structured.generate`).  The induction along the tree, with its case for every
construct, is made here once for all properties of both kinds.
-/

namespace SceneCode.Gen

/-- A property of computations that holds of one computation after another if it holds of both, and
    of what is opened, done and closed again if it holds of what is done between. -/
structure Structured (P : {α : Type} → Gen α → Prop) : Prop where
  pure : ∀ {α : Type} (a : α), P (Pure.pure a : Gen α)
  bind : ∀ {α β : Type} {x : Gen α} {f : α → Gen β}, P x → (∀ a, P (f a)) → P (x >>= f)
  fail : ∀ {α : Type} (e : Fault), P (fail e : Gen α)
  ask : ∀ {α : Type} (f : Session → α), P (ask f)
  ofExcept : ∀ {α : Type} (f : Session → Except Fault α), P (ofExcept f)
  log : ∀ (kind : Kind) (depth : Nat), P (log (.generate kind depth))
  emit : ∀ w : Word, P (emit w)
  registerLabel : ∀ (name : String) (kind : LabelKind) (signature : Option Signature),
    P (registerLabel name kind signature)
  /-- A call of a function that is not known yet. -/
  forward : ∀ name : String, P (emitTarget name none)
  /-- A jump, and what comes behind it, where the jump may be given its target. -/
  jump : ∀ {α : Type} (op : Opcode) {f : Address → Gen α},
    (∀ hole, P (land hole) → P (f hole)) → P (emitJump op >>= f)
  scope : ∀ (silent : Bool) {x : Gen Unit}, P x → P (do pushScope silent; x; popScope silent)
  definition : ∀ (type : TypeName) {x : Gen Unit}, P x →
    P (do enterFunction type; x; exitFunction)

namespace Structured

variable {P : {α : Type} → Gen α → Prop} (h : Structured P)

include h

/-! ### Actions -/

theorem emitAll (ws : List Word) : P (emitAll ws) := by
  induction ws with
  | nil => exact h.pure ()
  | cons w rest ih => exact h.bind (h.emit w) fun _ => ih

theorem finish (u : Usage) : P (finish u) := by
  cases u with
  | value => exact h.pure ()
  | discard => exact h.emitAll _

theorem variableAddress (name : String) : P (variableAddress name) := by
  refine h.bind (h.ofExcept _) fun r => ?_
  split
  · exact h.fail _
  · exact h.pure _

theorem loadVariable (name : String) : P (loadVariable name) :=
  h.bind (h.variableAddress name) fun _ => h.emitAll _

theorem storeVariable (name : String) (u : Usage) : P (storeVariable name u) := by
  refine h.bind (h.variableAddress name) fun (depth, slot) => ?_
  cases u with
  | value => exact h.bind (h.emitAll _) fun _ => h.emitAll _
  | discard => exact h.emitAll _

theorem callTarget (name : String) : P (callTarget name) := by
  refine h.bind (h.ask _) fun r => ?_
  split
  · exact h.pure _
  · split
    · exact h.pure _
    · exact h.fail _

theorem emitTarget (name : String) (target : Option Address) : P (emitTarget name target) := by
  cases target with
  | some address => exact h.emitAll _
  | none => exact h.forward name

theorem declareParams (params : List Param) : P (declareParams params) := by
  induction params with
  | nil => exact h.pure ()
  | cons p rest ih =>
    exact h.bind (h.bind (h.registerLabel _ _ _) fun _ => h.pure ()) fun _ => ih

/-! ### Constructs -/

section Constructs

variable {x y z v : Gen Unit} (hx : P x) (hy : P y) (hz : P z) (hv : P v)

include hx

theorem node (kind : Kind) : P (node kind x) :=
  h.bind (h.ask _) fun _ => h.bind (h.log _ _) fun _ => hx

theorem assign (name : String) (u : Usage) : P (assign name x u) :=
  h.bind hx fun _ => h.storeVariable name u

theorem compound (op : BinaryOp) (name : String) (u : Usage) : P (compound op name x u) :=
  h.bind (h.loadVariable name) fun _ => h.bind hx fun _ => h.bind (h.emitAll _) fun _ =>
    h.storeVariable name u

theorem unary (op : UnaryOp) (u : Usage) : P (unary op x u) :=
  h.bind hx fun _ => h.bind (h.emitAll _) fun _ => h.finish u

theorem call (name : String) (count : Nat) (u : Usage) : P (call name count x u) :=
  h.bind hx fun _ => h.bind (h.callTarget name) fun target => h.bind (h.emitAll _) fun _ =>
    h.bind (h.emitTarget name target) fun _ => h.bind (h.emitAll _) fun _ => h.finish u

theorem block : P (block x) :=
  h.scope false hx

theorem declareWith (type : TypeName) (name : String) : P (declareWith type name x) :=
  h.bind hx fun _ => h.bind (h.registerLabel _ _ _) fun _ => h.emitAll _

theorem jumpOver (needed : Bool) : P (jumpOver needed x) := by
  cases needed with
  | true => exact h.jump _ fun _ hland => h.bind hx fun _ => hland
  | false => exact hx

theorem function (name : String) (params : List Param) (returns : TypeName) :
    P (function name params returns x) := by
  refine h.bind (h.ask _) fun needed => h.jumpOver ?_ needed
  have hbody : P (do Gen.declareParams params; x; Gen.emitAll [.op .ret]) :=
    h.bind (h.declareParams params) fun _ => h.bind hx fun _ => h.emitAll _
  have hdefinition := h.definition returns (h.scope true hbody)
  simp only [bind_assoc] at hdefinition
  exact h.bind (h.registerLabel _ _ _) fun _ => hdefinition

theorem ret (isEmpty : Bool) : P (ret isEmpty x) := by
  refine h.bind (h.ofExcept _) fun type => ?_
  cases isEmpty with
  | true => exact h.emitAll _
  | false =>
    refine h.bind hx fun _ => ?_
    split
    · exact h.emitAll _
    · exact h.emitAll _

include hy

theorem binary (op : BinaryOp) (u : Usage) : P (binary op x y u) :=
  h.bind hx fun _ => h.bind hy fun _ => h.bind (h.emitAll _) fun _ => h.finish u

theorem logical (op : LogicalOp) (u : Usage) : P (logical op x y u) :=
  h.bind hx fun _ => h.bind (h.emitAll _) fun _ => h.jump _ fun _ hland =>
    h.bind (h.emitAll _) fun _ => h.bind hy fun _ => h.bind hland fun _ => h.finish u

theorem ifThen : P (ifThen x y) :=
  h.bind hx fun _ => h.jump _ fun _ hland => h.bind hy fun _ => hland

theorem whileLoop : P (whileLoop x y) :=
  h.bind (h.ask _) fun _ => h.bind hx fun _ => h.jump _ fun _ hland =>
    h.bind hy fun _ => h.bind (h.emitAll _) fun _ => hland

theorem doLoop : P (doLoop x y) :=
  h.bind (h.ask _) fun _ => h.bind hy fun _ => h.bind hx fun _ => h.emitAll _

include hz

theorem ifElse : P (ifElse x y z) :=
  h.bind hx fun _ => h.jump _ fun _ hother => h.bind hy fun _ =>
    h.jump _ fun _ hend => h.bind hother fun _ => h.bind hz fun _ => hend

include hv

theorem forLoop (isEndless : Bool) : P (forLoop x isEndless y z v) := by
  cases isEndless with
  | true =>
    have hrounds : P (do
        x
        let start ← here
        v
        z
        Gen.emitAll [.op .jump, .addr start]) :=
      h.bind hx fun _ => h.bind (h.ask _) fun _ => h.bind hv fun _ => h.bind hz fun _ =>
        h.emitAll _
    have hscope := h.scope false hrounds
    simp only [bind_assoc] at hscope
    exact hscope
  | false =>
    have hrounds : P (do
        x
        let start ← here
        y
        let toEnd ← emitJump .jumpIfFalse
        v
        z
        Gen.emitAll [.op .jump, .addr start]
        land toEnd) :=
      h.bind hx fun _ => h.bind (h.ask _) fun _ => h.bind hy fun _ => h.jump _ fun _ hland =>
        h.bind hv fun _ => h.bind hz fun _ => h.bind (h.emitAll _) fun _ => hland
    have hscope := h.scope false hrounds
    simp only [bind_assoc] at hscope
    exact hscope

end Constructs

/-! ### Trees -/

mutual

theorem generate (t : Tree) (u : Usage) : P (t.generate u) := by
  match t with
  | .empty => exact h.pure ()
  | .seq items => exact generateAll items u
  | .program body => exact h.node (generate body _) _
  | .block body => exact h.node (h.block (generate body _)) _
  | .function name params returns body =>
    exact h.node (h.function (generate body _) name params returns) _
  | .ret value => exact h.node (h.ret (generate value _) _) _
  | .declare type name => exact h.node (h.bind (h.registerLabel _ _ _) fun _ => h.pure ()) _
  | .declareWith type name value => exact h.node (h.declareWith (generate value _) type name) _
  | .assign name value => exact h.node (h.assign (generate value _) name u) _
  | .compound op name value => exact h.node (h.compound (generate value _) op name u) _
  | .step op name =>
    exact h.node (h.bind (h.loadVariable name) fun _ => h.bind (h.emitAll _) fun _ =>
      h.storeVariable name u) _
  | .ifThen cond body => exact h.node (h.ifThen (generate cond _) (generate body _)) _
  | .ifElse cond body other =>
    exact h.node (h.ifElse (generate cond _) (generate body _) (generate other _)) _
  | .whileLoop cond body => exact h.node (h.whileLoop (generate cond _) (generate body _)) _
  | .doLoop cond body => exact h.node (h.doLoop (generate cond _) (generate body _)) _
  | .forLoop init cond update body =>
    exact h.node (h.forLoop (generate init _) (generate cond _) (generate update _)
      (generate body _) _) _
  | .call name args => exact h.node (h.call (generateAll args _) name args.length u) _
  | .binary op lhs rhs => exact h.node (h.binary (generate lhs _) (generate rhs _) op u) _
  | .logical op lhs rhs => exact h.node (h.logical (generate lhs _) (generate rhs _) op u) _
  | .unary op operand => exact h.node (h.unary (generate operand _) op u) _
  | .ident name => exact h.node (h.bind (h.loadVariable name) fun _ => h.finish u) _
  | .lit value => exact h.node (h.bind (h.emitAll _) fun _ => h.finish u) _

theorem generateAll (ts : List Tree) (u : Usage) : P (Tree.generateAll ts u) := by
  match ts with
  | [] => exact h.pure ()
  | t :: rest => exact h.bind (generate t u) fun _ => generateAll rest u

end

end Structured

/-- A property of computations that holds of every action, and of one computation after another if
    it holds of both. -/
structure Compositional (P : {α : Type} → Gen α → Prop) : Prop where
  pure : ∀ {α : Type} (a : α), P (Pure.pure a : Gen α)
  bind : ∀ {α β : Type} {x : Gen α} {f : α → Gen β}, P x → (∀ a, P (f a)) → P (x >>= f)
  fail : ∀ {α : Type} (e : Fault), P (fail e : Gen α)
  ask : ∀ {α : Type} (f : Session → α), P (ask f)
  ofExcept : ∀ {α : Type} (f : Session → Except Fault α), P (ofExcept f)
  log : ∀ (kind : Kind) (depth : Nat), P (log (.generate kind depth))
  emit : ∀ w : Word, P (emit w)
  patch : ∀ (a : Address) (w : Word), P (patch a w)
  pushScope : ∀ silent : Bool, P (pushScope silent)
  popScope : ∀ silent : Bool, P (popScope silent)
  registerLabel : ∀ (name : String) (kind : LabelKind) (signature : Option Signature),
    P (registerLabel name kind signature)
  enterFunction : ∀ type : TypeName, P (enterFunction type)
  exitFunction : P exitFunction
  /-- A call of a function that is not known yet. -/
  forward : ∀ name : String, P (emitTarget name none)

namespace Compositional

variable {P : {α : Type} → Gen α → Prop} (h : Compositional P)

include h

theorem structured : Structured P where
  pure := h.pure
  bind := h.bind
  fail := h.fail
  ask := h.ask
  ofExcept := h.ofExcept
  log := h.log
  emit := h.emit
  registerLabel := h.registerLabel
  forward := h.forward
  jump := by
    intro α op f hf
    have hjump : P (emitJump op) := h.bind (h.emit _) fun _ => h.emit _
    exact h.bind hjump fun hole => hf hole (h.bind (h.ask _) fun _ => h.patch _ _)
  scope := by
    intro silent x hx
    exact h.bind (h.pushScope silent) fun _ => h.bind hx fun _ => h.popScope silent
  definition := by
    intro type x hx
    exact h.bind (h.enterFunction type) fun _ => h.bind hx fun _ => h.exitFunction

/-- **What holds of the actions holds of the generation of every tree.** -/
theorem generate (t : Tree) (u : Usage) : P (t.generate u) :=
  h.structured.generate t u

end Compositional

end SceneCode.Gen
