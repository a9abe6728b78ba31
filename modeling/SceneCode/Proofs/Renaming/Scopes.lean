import Mathlib.Logic.Function.Basic
import SceneCode.Session.Basic

/-!
# Other names for the same things

A `Renaming` gives every function, parameter and variable another name, and every type another tag.
Different names stay different, the names of the two entry points stay as they are, and no type
becomes `void` or stops being `void`.  It acts on trees, and on everything that a session keeps of
them.  What a scope knows under a name, it knows after the renaming under the other name.
-/

namespace SceneCode

/-- Another name for every name, and another tag for every type. -/
structure Renaming where
  name : String → String
  type : String → String
  injective : Function.Injective name
  init : name "init" = "init"
  render : name "render" = "render"
  void : ∀ t, type t = "void" ↔ t = "void"

variable (r : Renaming)

/-! ### Trees -/

def TypeName.rename (t : TypeName) : TypeName :=
  ⟨r.type t.name⟩

theorem TypeName.isVoid_rename (t : TypeName) : (t.rename r).isVoid = t.isVoid := by
  have hvoid (t : TypeName) : t = .void ↔ t.name = "void" := by
    cases t
    simp [void]
  unfold isVoid
  rw [decide_eq_decide, hvoid, hvoid]
  exact r.void t.name

def Param.rename (p : Param) : Param :=
  ⟨p.type.rename r, r.name p.name⟩

namespace Tree

mutual

/-- The tree with other names.  A text that is a value is no name. -/
def rename : Tree → Tree
  | .empty => .empty
  | .seq items => .seq (renameAll items)
  | .program body => .program (rename body)
  | .block body => .block (rename body)
  | .function name params returns body =>
    .function (r.name name) (params.map (Param.rename r)) (returns.rename r) (rename body)
  | .ret value => .ret (rename value)
  | .declare type name => .declare (type.rename r) (r.name name)
  | .declareWith type name value => .declareWith (type.rename r) (r.name name) (rename value)
  | .assign name value => .assign (r.name name) (rename value)
  | .compound op name value => .compound op (r.name name) (rename value)
  | .step op name => .step op (r.name name)
  | .ifThen cond body => .ifThen (rename cond) (rename body)
  | .ifElse cond body other => .ifElse (rename cond) (rename body) (rename other)
  | .whileLoop cond body => .whileLoop (rename cond) (rename body)
  | .doLoop cond body => .doLoop (rename cond) (rename body)
  | .forLoop init cond update body =>
    .forLoop (rename init) (rename cond) (rename update) (rename body)
  | .call name args => .call (r.name name) (renameAll args)
  | .binary op lhs rhs => .binary op (rename lhs) (rename rhs)
  | .logical op lhs rhs => .logical op (rename lhs) (rename rhs)
  | .unary op operand => .unary op (rename operand)
  | .ident name => .ident (r.name name)
  | .lit value => .lit value

def renameAll : List Tree → List Tree
  | [] => []
  | t :: rest => rename t :: renameAll rest

end

theorem isEmpty_rename (t : Tree) : (t.rename r).isEmpty = t.isEmpty := by
  cases t <;> rfl

theorem length_renameAll (ts : List Tree) : (renameAll r ts).length = ts.length := by
  induction ts with
  | nil => rfl
  | cons t rest ih => simp [renameAll, ih]

end Tree

/-- The same fault of another name. -/
def Fault.rename : Fault → Fault
  | .redefinition name => .redefinition (r.name name)
  | .unresolved name => .unresolved (r.name name)
  | .noFunction => .noFunction
  | .notA role name => .notA role (r.name name)
  | .scopeUnderflow => .scopeUnderflow
  | .patchOutOfRange address length => .patchOutOfRange address length

/-- The same end under other names: the same fault of another name, or a result that `f` takes to
    the other names. -/
def Renaming.ending {α β : Type} (f : α → β) (x : Except Fault α) : Except Fault β :=
  (x.map f).mapError (Fault.rename r)

@[simp] theorem Renaming.ending_ok {α β : Type} (f : α → β) (a : α) :
    r.ending f (.ok a) = .ok (f a) := rfl

/-! ### Labels and frames -/

def LabelKind.rename : LabelKind → LabelKind
  | .function => .function
  | .variable type => .variable (type.rename r)

def Signature.rename (s : Signature) : Signature :=
  ⟨s.params.map (Param.rename r), s.returns.rename r⟩

def Label.rename (l : Label) : Label :=
  ⟨l.address, l.kind.rename r, l.signature.map (Signature.rename r)⟩

def PendingCall.rename (c : PendingCall) : PendingCall :=
  ⟨r.name c.name, c.patchAt⟩

namespace Frame

def rename (f : Frame) : Frame :=
  ⟨f.labels.map fun (name, label) => (r.name name, label.rename r), f.slots,
    f.pending.map (PendingCall.rename r)⟩

/-- Names are only ever compared, so it is enough that different names stay different. -/
theorem get?_rename (f : Frame) (name : String) :
    (f.rename r).get? (r.name name) = (f.get? name).map (Label.rename r) := by
  unfold get? rename
  induction f.labels with
  | nil => rfl
  | cons entry rest ih =>
    obtain ⟨other, label⟩ := entry
    simp only [List.map_cons, List.lookup_cons]
    by_cases hname : name = other
    · subst hname
      simp
    · have hrenamed : r.name name ≠ r.name other := fun heq => hname (r.injective heq)
      rw [beq_false_of_ne hname, beq_false_of_ne hrenamed]
      exact ih

theorem register_rename (f : Frame) (name : String) (kind : LabelKind)
    (signature : Option Signature) (pc : Address) :
    (f.rename r).register (r.name name) (kind.rename r) (signature.map (Signature.rename r)) pc =
      r.ending (Prod.map id (rename r)) (f.register name kind signature pc) := by
  unfold register
  rw [get?_rename]
  cases f.get? name with
  | some label => rfl
  | none => cases kind <;> rfl

theorem defer_rename (f : Frame) (call : PendingCall) :
    (f.rename r).defer (call.rename r) = (f.defer call).rename r := by
  simp [defer, rename]

end Frame

/-! ### Scopes -/

def Resolved.rename (x : Resolved) : Resolved :=
  ⟨x.label.rename r, x.depth⟩

namespace Scopes

def rename (sc : Scopes) : Scopes :=
  ⟨sc.current.rename r, sc.outer.map (Frame.rename r)⟩

@[simp] theorem depth_rename (sc : Scopes) : (sc.rename r).depth = sc.depth := by
  simp [depth, rename]

theorem find?_rename (sc : Scopes) (name : String) :
    (sc.rename r).find? (r.name name) = (sc.find? name).map (Resolved.rename r) := by
  have hframes (frames : List Frame) (depth : Nat) :
      findIn (r.name name) (frames.map (Frame.rename r)) depth =
        (findIn name frames depth).map (Resolved.rename r) := by
    induction frames generalizing depth with
    | nil => rfl
    | cons f rest ih =>
      rw [List.map_cons, findIn, findIn, Frame.get?_rename]
      cases f.get? name with
      | some label => rfl
      | none => exact ih (depth + 1)
  exact hframes sc.frames 0

theorem lookup_rename (sc : Scopes) (name : String) :
    (sc.rename r).lookup (r.name name) = r.ending (Resolved.rename r) (sc.lookup name) := by
  unfold lookup
  rw [find?_rename]
  cases sc.find? name <;> rfl

theorem register_rename (sc : Scopes) (name : String) (kind : LabelKind)
    (signature : Option Signature) (pc : Address) :
    (sc.rename r).register (r.name name) (kind.rename r) (signature.map (Signature.rename r)) pc =
      r.ending (Prod.map id (rename r)) (sc.register name kind signature pc) := by
  unfold register
  simp only [rename, Frame.register_rename]
  cases sc.current.register name kind signature pc <;> rfl

theorem pop_rename (sc : Scopes) :
    (sc.rename r).pop = r.ending (Prod.map (Frame.rename r) (rename r)) sc.pop := by
  obtain ⟨current, outer⟩ := sc
  cases outer <;> rfl

theorem defer_rename (sc : Scopes) (call : PendingCall) :
    (sc.rename r).defer (call.rename r) = (sc.defer call).rename r := by
  simp [defer, rename, Frame.defer_rename]

theorem takeRootPending_rename (sc : Scopes) :
    (sc.rename r).takeRootPending =
      (sc.takeRootPending.1.map (PendingCall.rename r), sc.takeRootPending.2.rename r) := by
  have hpending (f : Frame) : (f.rename r).pending = f.pending.map (PendingCall.rename r) := rfl
  have hsettled (f : Frame) : (f.rename r).settled = f.settled.rename r := rfl
  unfold takeRootPending rename
  simp only [List.getLast?_map]
  cases sc.outer.getLast? with
  | none => rfl
  | some root => simp [hpending, hsettled, List.map_dropLast]

end Scopes

/-! ### Sessions -/

namespace ReturnTypes

def rename (f : ReturnTypes) : ReturnTypes :=
  ⟨f.types.map (TypeName.rename r)⟩

@[simp] theorem depth_rename (f : ReturnTypes) : (f.rename r).depth = f.depth := by
  simp [depth, rename]

theorem current_rename (f : ReturnTypes) :
    (f.rename r).current = r.ending (TypeName.rename r) f.current := by
  obtain ⟨types⟩ := f
  cases types <;> rfl

end ReturnTypes

/-- The session that the other names lead to.  Its code is the same. -/
def Session.rename (s : Session) : Session :=
  ⟨s.config, s.code, s.scopes.rename r, s.functions.rename r⟩

def Event.rename : Event → Event
  | .registerLabel name address depth => .registerLabel (r.name name) address depth
  | .forwardCall name patchAt => .forwardCall (r.name name) patchAt
  | .patchCall name patchAt target => .patchCall (r.name name) patchAt target
  | .entryPoint name address => .entryPoint (r.name name) address
  | .entryPointNotFunction name => .entryPointNotFunction (r.name name)
  | e => e

end SceneCode
