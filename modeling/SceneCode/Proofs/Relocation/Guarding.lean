import SceneCode.Proofs.Reading.Layout
import SceneCode.Proofs.Results

/-!
# Jumps over functions

A program that halts has a jump over every function, a program that does not has none over the
functions that are not inside another one.  Everything else about the code of a tree is the same, so
what a tree emits for the one follows from what it emits for the other: `Emits.guard`.  The segment
gets the jumps that it lacks, and the functions, which now start elsewhere, get other addresses.

Where they start is not computed here.  It is enough to know of some `move` that it takes the start
of every function of the one segment to the start of the same function of the other
(`Segment.Aligned`).
-/

namespace SceneCode

variable {move : Address → Address}

/-! ### Labels at other addresses -/

/-- The label of a function at another address.  A variable keeps its slot. -/
def Label.relocate (move : Address → Address) (label : Label) : Label :=
  match label.kind with
  | .function => { label with address := move label.address }
  | .variable _ => label

@[simp] theorem Label.kind_relocate (label : Label) : (label.relocate move).kind = label.kind := by
  unfold relocate
  split <;> rfl

namespace Frame

def relocate (move : Address → Address) (f : Frame) : Frame :=
  { f with labels := f.labels.map fun (name, label) => (name, label.relocate move) }

theorem get?_relocate (f : Frame) (name : String) :
    (f.relocate move).get? name = (f.get? name).map (Label.relocate move) :=
  f.lookup_map_labels (Label.relocate move) name

/-- A label that is given at the old address can be given at the new one. -/
theorem register_relocate (move : Address → Address) {f g : Frame} {name : String}
    {kind : LabelKind} {signature : Option Signature} {pc a : Address}
    (h : f.register name kind signature pc = .ok (a, g)) :
    (f.relocate move).register name kind signature (move pc) =
      .ok (if kind.isFunction then move a else a, g.relocate move) := by
  unfold register at h ⊢
  rw [get?_relocate]
  cases hget : f.get? name with
  | some label =>
    rw [hget] at h
    cases h
  | none =>
    rw [hget] at h
    cases kind <;> cases h <;> rfl

end Frame

namespace Scopes

def relocate (move : Address → Address) (sc : Scopes) : Scopes :=
  ⟨sc.current.relocate move, sc.outer.map (Frame.relocate move)⟩

theorem find?_relocate (sc : Scopes) (name : String) :
    (sc.relocate move).find? name =
      (sc.find? name).map fun r => { r with label := r.label.relocate move } := by
  have hframes (frames : List Frame) (depth : Nat) :
      findIn name (frames.map (Frame.relocate move)) depth =
        (findIn name frames depth).map fun r => { r with label := r.label.relocate move } := by
    induction frames generalizing depth with
    | nil => rfl
    | cons f rest ih =>
      rw [List.map_cons, findIn, findIn, Frame.get?_relocate]
      cases f.get? name with
      | some label => rfl
      | none => exact ih (depth + 1)
  exact hframes sc.frames 0

@[simp] theorem locate?_relocate (sc : Scopes) (name : String) :
    (sc.relocate move).locate? name = sc.locate? name := by
  unfold locate?
  rw [find?_relocate]
  rcases sc.find? name with _ | ⟨⟨address, kind, signature⟩, depth⟩
  · rfl
  · cases kind <;> rfl

theorem function?_relocate (sc : Scopes) (name : String) :
    (sc.relocate move).function? name = (sc.function? name).map move := by
  unfold function?
  rw [find?_relocate]
  rcases sc.find? name with _ | ⟨⟨address, kind, signature⟩, depth⟩
  · rfl
  · cases kind <;> rfl

theorem register_relocate (move : Address → Address) {sc sc' : Scopes} {name : String}
    {kind : LabelKind} {signature : Option Signature} {pc a : Address}
    (h : sc.register name kind signature pc = .ok (a, sc')) :
    (sc.relocate move).register name kind signature (move pc) =
      .ok (if kind.isFunction then move a else a, sc'.relocate move) := by
  obtain ⟨⟨b, frame⟩, hframe, h⟩ := bind_eq_ok.mp h
  cases h
  exact bind_eq_ok.mpr ⟨_, Frame.register_relocate move hframe, rfl⟩

theorem declare_relocate (move : Address → Address) {sc sc' : Scopes} {type : TypeName}
    {name : String} {slot : Nat} (h : sc.declare type name = .ok (slot, sc')) :
    (sc.relocate move).declare type name = .ok (slot, sc'.relocate move) :=
  -- the slot of a variable does not depend on where the code is
  register_relocate move h

theorem declareAll_relocate (move : Address → Address) {sc sc' : Scopes} {params : List Param}
    (h : sc.declareAll params = .ok sc') :
    (sc.relocate move).declareAll params = .ok (sc'.relocate move) := by
  induction params generalizing sc with
  | nil =>
    cases h
    rfl
  | cons p rest ih =>
    obtain ⟨slot, mid, hdeclare, hrest⟩ := declareAll_cons.mp h
    exact declareAll_cons.mpr ⟨slot, mid.relocate move, declare_relocate move hdeclare, ih hrest⟩

end Scopes

/-! ### Segments with jumps over all functions -/

def Target.relocate (move : Address → Address) : Target → Target
  | .known a => .known (move a)
  | .pending name => .pending name

theorem Scopes.CallsTo.relocate (move : Address → Address) {config config' : Config} {sc : Scopes}
    {name : String} {target : Target} (hforward : config'.forwardCalls = config.forwardCalls)
    (h : sc.CallsTo config name target) :
    (sc.relocate move).CallsTo config' name (target.relocate move) := by
  cases target with
  | known a =>
    have hknown : sc.function? name = some a := h
    change (sc.relocate move).function? name = some (move a)
    rw [function?_relocate, hknown]
    rfl
  | pending other =>
    refine ⟨h.1, ?_, hforward.trans h.2.2⟩
    rw [find?_relocate, h.2.1]
    rfl

namespace Plain

def relocate (move : Address → Address) : Plain → Plain
  | .call target count => .call (target.relocate move) count
  | i => i

@[simp] theorem size_relocate (i : Plain) : (i.relocate move).size = i.size := by
  cases i <;> rfl

@[simp] theorem pending?_relocate (i : Plain) : (i.relocate move).pending? = i.pending? := by
  cases i with
  | call target count => cases target <;> rfl
  | _ => rfl

/-- A function that a frame knows is called at its new address. -/
theorem relocate_settle {frame : Frame} {i : Plain}
    (h : ∀ name label, i.pending? = some name → frame.get? name = some label →
      label.kind = .function) :
    (i.settle frame).relocate move = (i.relocate move).settle (frame.relocate move) := by
  cases i with
  | call target count =>
    cases target with
    | known a => rfl
    | pending name =>
      simp only [settle, relocate, Target.settle, Target.relocate, Frame.get?_relocate]
      cases hget : frame.get? name with
      | none => rfl
      | some label =>
        have hkind := h name label rfl hget
        simp only [Option.map_some, Label.relocate, hkind]
  | _ => rfl

end Plain

namespace Segment

/-- The segment with a jump over every function, and with the functions at other addresses. -/
def guard (move : Address → Address) : Segment → Segment
  | .nothing => .nothing
  | .one i => .one (i.relocate move)
  | .seq p q => .seq (p.guard move) (q.guard move)
  | .skip kind body => .skip kind (body.guard move)
  | .choice body other => .choice (body.guard move) (other.guard move)
  | .loop cond body => .loop (cond.guard move) (body.guard move)
  | .rounds body back => .rounds (body.guard move) back
  | .function _ body => .function true (body.guard move)

@[simp] theorem guard_finish (u : Usage) : (finish u).guard move = finish u := by
  cases u <;> rfl

@[simp] theorem guard_store (u : Usage) (depth slot : Nat) :
    (store u depth slot).guard move = store u depth slot := by
  cases u <;> rfl

@[simp] theorem guard_leave (type : TypeName) : (leave type).guard move = leave type := by
  unfold leave
  split <;> rfl

theorem guard_scope (p : Segment) : (scope p).guard move = scope (p.guard move) := rfl

theorem plains_guard (p : Segment) :
    (p.guard move).plains = p.plains.map (Plain.relocate move) := by
  induction p with
  | nothing => rfl
  | one i => rfl
  | seq p q ihp ihq => simp [guard, plains, ihp, ihq]
  | skip kind body ih => simp [guard, plains, ih]
  | choice body other ihb iho => simp [guard, plains, ihb, iho]
  | loop cond body ihc ihb => simp [guard, plains, ihc, ihb]
  | rounds body back ih => simp [guard, plains, ih]
  | function guarded body ih => simp [guard, plains, ih, Plain.relocate]

theorem pending_guard (p : Segment) : (p.guard move).pending = p.pending := by
  unfold pending
  rw [plains_guard, List.filterMap_map]
  congr 1
  funext i
  exact Plain.pending?_relocate i

theorem SettledBy.guard {p : Segment} {frame : Frame} (h : p.SettledBy frame) :
    (p.guard move).SettledBy (frame.relocate move) := by
  intro name hname label hlabel
  rw [pending_guard] at hname
  rw [Frame.get?_relocate] at hlabel
  obtain ⟨old, hold, rfl⟩ := Option.map_eq_some_iff.mp hlabel
  rw [Label.kind_relocate]
  exact h name hname old hold

theorem guard_settle {p : Segment} {frame : Frame} (h : p.SettledBy frame) :
    (p.settle frame).guard move = (p.guard move).settle (frame.relocate move) := by
  have hplain : ∀ i ∈ p.plains,
      (i.settle frame).relocate move = (i.relocate move).settle (frame.relocate move) := by
    intro i hi
    apply Plain.relocate_settle
    intro name label hname hlabel
    exact h name (List.mem_filterMap.mpr ⟨i, hi, hname⟩) label hlabel
  clear h
  induction p with
  | nothing => rfl
  | one i => simp_all [settle, guard, plains]
  | seq p q ihp ihq => simp_all [settle, guard, plains, or_imp, forall_and]
  | skip kind body ih => simp_all [settle, guard, plains]
  | choice body other ihb iho => simp_all [settle, guard, plains, or_imp, forall_and]
  | loop cond body ihc ihb => simp_all [settle, guard, plains, or_imp, forall_and]
  | rounds body back ih => simp_all [settle, guard, plains]
  | function guarded body ih => simp_all [settle, guard, plains, or_imp, forall_and]

/-- The functions of a segment that starts at `a` are moved to where they start in the segment with
    jumps over them, if that starts at `b`. -/
def Aligned (move : Address → Address) (a b : Address) (p : Segment) : Prop :=
  (p.starts a).map move = (p.guard move).starts b

theorem length_starts_guard (p : Segment) (a b : Nat) :
    ((p.guard move).starts b).length = (p.starts a).length := by
  induction p generalizing a b with
  | nothing => rfl
  | one i => rfl
  | seq p q ihp ihq => simp [guard, starts, ihp a b, ihq (a + p.size) (b + (p.guard move).size)]
  | skip kind body ih => exact ih (a + 2) (b + 2)
  | choice body other ihb iho =>
    simp [guard, starts, ihb (a + 2) (b + 2),
      iho (a + 2 + body.size + 2) (b + 2 + (body.guard move).size + 2)]
  | loop cond body ihc ihb =>
    simp [guard, starts, ihc a b, ihb (a + cond.size + 2) (b + (cond.guard move).size + 2)]
  | rounds body back ih => exact ih a b
  | function guarded body ih =>
    simp [guard, starts, ih (a + guardSize guarded) (b + guardSize true)]

namespace Aligned

variable {a b : Address} {p q : Segment}

theorem append {a' b' : Address}
    (h : (p.starts a ++ q.starts a').map move =
      (p.guard move).starts b ++ (q.guard move).starts b') :
    p.Aligned move a b ∧ q.Aligned move a' b' := by
  rw [List.map_append] at h
  exact List.append_inj h (by rw [List.length_map, length_starts_guard])

theorem seq (h : (Segment.seq p q).Aligned move a b) :
    p.Aligned move a b ∧ q.Aligned move (a + p.size) (b + (p.guard move).size) :=
  append h

theorem choice (h : (Segment.choice p q).Aligned move a b) :
    p.Aligned move (a + 2) (b + 2) ∧
      q.Aligned move (a + 2 + p.size + 2) (b + 2 + (p.guard move).size + 2) :=
  append h

theorem loop (h : (Segment.loop p q).Aligned move a b) :
    p.Aligned move a b ∧ q.Aligned move (a + p.size + 2) (b + (p.guard move).size + 2) :=
  append h

theorem function {guarded : Bool} (h : (Segment.function guarded p).Aligned move a b) :
    move (a + guardSize guarded) = b + 2 ∧ p.Aligned move (a + guardSize guarded) (b + 2) :=
  List.cons.inj h

theorem settle {frame : Frame} (hsettled : p.SettledBy frame)
    (h : (p.settle frame).Aligned move a b) : p.Aligned move a b := by
  unfold Aligned at h
  rwa [guard_settle hsettled, starts_settle, starts_settle] at h

theorem scope {frame : Frame} (hsettled : p.SettledBy frame)
    (h : (Segment.scope (p.settle frame)).Aligned move a b) : p.Aligned move (a + 1) (b + 1) :=
  (h.seq.2.seq.1).settle hsettled

end Aligned

end Segment

/-! ### The rules -/

/-- **What a tree emits for a program that halts.**  The rules are the same but for the jumps over
    functions, so each case applies its rule again, with the functions at their new addresses. -/
theorem Emits.guard {config : Config} {fn : Option TypeName} {sc sc' : Scopes} {a b : Address}
    {t : Tree} {u : Usage} {p : Segment} (h : Emits config fn sc a t u p sc') (halting : Config)
    (hforward : halting.forwardCalls = config.forwardCalls) (hhalts : halting.emitHalt = true)
    (hp : p.Aligned move a b) :
    Emits halting fn (sc.relocate move) b t u (p.guard move) (sc'.relocate move) := by
  induction h generalizing b with
  | empty => exact .empty
  | seqNil => exact .seqNil
  | seqCons _ _ ihp ihq => exact .seqCons (ihp hp.seq.1) (ihq hp.seq.2)
  | program _ ih => exact .program (ih hp)
  | block _ hsettled ih =>
    rw [Segment.guard_scope, Segment.guard_settle hsettled]
    exact .block (ih (hp.scope hsettled)) hsettled.guard
  | @function fn sc a u name params returns body sc₁ sc₂ p frame hregister hparams _ hsettled ih =>
    obtain ⟨hstart, hbody⟩ := hp.function
    have hguarded : guarded halting fn = true := by
      unfold guarded
      rw [hhalts, Bool.or_true]
    have hregister := Scopes.register_relocate move hregister
    simp only [LabelKind.isFunction, if_true, hstart] at hregister
    rw [Segment.guard, Segment.guard_settle hsettled, ← hguarded]
    refine .function ?_ (Scopes.declareAll_relocate move hparams) ?_ hsettled.guard
    · rw [hguarded]
      exact hregister
    · rw [hguarded]
      exact ih (hbody.settle hsettled)
  | retEmpty => exact .retEmpty
  | ret hempty _ ih =>
    rw [Segment.guard, Segment.guard_leave]
    exact .ret hempty (ih hp.seq.1)
  | declare hdeclare => exact .declare (Scopes.declare_relocate move hdeclare)
  | declareWith _ hdeclare ih =>
    exact .declareWith (ih hp.seq.1) (Scopes.declare_relocate move hdeclare)
  | assign _ hlocate ih =>
    rw [Segment.guard, Segment.guard_store]
    exact .assign (ih hp.seq.1) (by rwa [Scopes.locate?_relocate])
  | compound hload _ hlocate ih =>
    simp only [Segment.guard, Segment.guard_store]
    exact .compound (by rwa [Scopes.locate?_relocate]) (ih hp.seq.2.seq.1)
      (by rwa [Scopes.locate?_relocate])
  | step hlocate =>
    rw [Segment.guard, Segment.guard_store]
    exact .step (by rwa [Scopes.locate?_relocate])
  | ifThen _ _ ihp ihq => exact .ifThen (ihp hp.seq.1) (ihq hp.seq.2)
  | ifElse _ _ _ ihp ihq ihr =>
    exact .ifElse (ihp hp.seq.1) (ihq hp.seq.2.choice.1) (ihr hp.seq.2.choice.2)
  | whileLoop _ _ ihp ihq => exact .whileLoop (ihp hp.loop.1) (ihq hp.loop.2)
  | doLoop _ _ ihp ihq =>
    have hround := Segment.Aligned.seq hp
    exact .doLoop (ihp hround.1) (ihq hround.2)
  | forEndless _ _ _ hsettled ihp ihq ihr =>
    have hinside := hp.scope hsettled
    have hround := Segment.Aligned.seq hinside.seq.2
    rw [Segment.guard_scope, Segment.guard_settle hsettled]
    exact .forEndless (ihp hinside.seq.1) (ihq hround.1) (ihr hround.2) hsettled.guard
  | forLoop hempty _ _ _ _ hsettled ihp ihc ihq ihr =>
    have hinside := hp.scope hsettled
    obtain ⟨hcond, hround⟩ := hinside.seq.2.loop
    rw [Segment.guard_scope, Segment.guard_settle hsettled]
    exact .forLoop hempty (ihp hinside.seq.1) (ihc hcond) (ihq hround.seq.1) (ihr hround.seq.2)
      hsettled.guard
  | call _ hcalls ih =>
    simp only [Segment.guard, Segment.guard_finish]
    exact .call (ih hp.seq.1) (hcalls.relocate move hforward)
  | binary _ _ ihp ihq =>
    simp only [Segment.guard, Segment.guard_finish]
    exact .binary (ihp hp.seq.1) (ihq hp.seq.2.seq.1)
  | logical _ _ ihp ihq =>
    simp only [Segment.guard, Segment.guard_finish]
    exact .logical (ihp hp.seq.1) (ihq hp.seq.2.seq.2.seq.1.seq.2)
  | unary _ ih =>
    simp only [Segment.guard, Segment.guard_finish]
    exact .unary (ih hp.seq.1)
  | ident hlocate =>
    simp only [Segment.guard, Segment.guard_finish]
    exact .ident (by rwa [Scopes.locate?_relocate])
  | lit =>
    simp only [Segment.guard, Segment.guard_finish]
    exact .lit

end SceneCode
