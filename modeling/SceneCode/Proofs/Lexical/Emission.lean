import Mathlib.Data.List.Forall2
import SceneCode.Proofs.Emission.Program
import SceneCode.Proofs.Lexical.Covering

/-!
# Emitted code has the scopes of its tree

A frame gives its slots out one by one, and the outline of a tree counts the variables that the tree
declares.  So if a scope has room for the variables of a tree before the tree is read, every
variable in the code of the tree gets a slot for which there is room, also one of a scope around it.
Both things are proved together, one case for each rule of `Emits`: the segment has the scopes of
the outline, and the room that is left behind the tree is what the tree did not take.
-/

namespace SceneCode

/-! ### Room for variables -/

/-- The frame has room for more variables, up to a number of them, and every variable has one of the
    slots that have been given out. -/
structure Frame.Room (more : Nat) (f : Frame) (count : Nat) : Prop where
  slots : f.slots + more ≤ count
  sound : ∀ {name label}, f.get? name = some label → label.kind.isFunction = false →
    label.address < f.slots

theorem Frame.room_empty (count : Nat) : Frame.Room count {} count where
  slots := Nat.le_of_eq (Nat.zero_add count)
  sound h := by cases h

theorem Frame.Room.mono {f : Frame} {more less count : Nat} (h : f.Room more count)
    (hless : less ≤ more) : f.Room less count where
  slots := Nat.le_trans (Nat.add_le_add_left hless _) h.slots
  sound := h.sound

/-- A variable takes a slot. -/
theorem Frame.Room.declare {f g : Frame} {name : String} {type : TypeName}
    {signature : Option Signature} {pc slot : Address} {more count : Nat}
    (hroom : f.Room (1 + more) count)
    (h : f.register name (.variable type) signature pc = .ok (slot, g)) :
    g.Room more count ∧ slot < count := by
  have hregistered := Frame.registered_of_register h
  have hslots : g.slots = f.slots + 1 := hregistered.slots
  have hslot : slot = f.slots := hregistered.slot rfl
  have hbound := hroom.slots
  have hlt : f.slots < count := by omega
  refine ⟨⟨by omega, ?_⟩, Nat.lt_of_le_of_lt (Nat.le_of_eq hslot) hlt⟩
  intro other label hother hkind
  rw [Frame.get?_of_register h] at hother
  rw [hslots]
  split at hother
  · cases hother
    exact Nat.lt_succ_of_le (Nat.le_of_eq hslot)
  · exact Nat.lt_succ_of_lt (hroom.sound hother hkind)

/-- A function takes no slot. -/
theorem Frame.Room.function {f g : Frame} {name : String} {signature : Option Signature}
    {pc a : Address} {more count : Nat} (hroom : f.Room more count)
    (h : f.register name .function signature pc = .ok (a, g)) : g.Room more count := by
  have hslots : g.slots = f.slots := (Frame.registered_of_register h).slots
  constructor
  · rw [hslots]
    exact hroom.slots
  · intro other label hother hkind
    rw [Frame.get?_of_register h] at hother
    rw [hslots]
    split at hother
    · cases hother
      cases hkind
    · exact hroom.sound hother hkind

/-- The innermost scope has room for more variables, and those around it for the ones they have. -/
def Scopes.Room (more : Nat) (sc : Scopes) : List Nat → Prop
  | [] => False
  | count :: rest => sc.current.Room more count ∧ List.Forall₂ (Frame.Room 0) sc.outer rest

namespace Scopes.Room

variable {sc sc' : Scopes} {more less : Nat} {frames : List Nat}

theorem mono (h : sc.Room more frames) (hless : less ≤ more) : sc.Room less frames := by
  cases frames with
  | nil => exact h
  | cons count rest => exact ⟨h.1.mono hless, h.2⟩

theorem forall₂ (h : sc.Room more frames) : List.Forall₂ (Frame.Room 0) sc.frames frames := by
  cases frames with
  | nil => exact h.elim
  | cons count rest => exact .cons (h.1.mono (Nat.zero_le _)) h.2

/-- A new scope is opened with room for just the variables that it will have. -/
theorem push {n count : Nat} (h : sc.Room more frames) (hcount : n = count) :
    sc.push.Room n (count :: frames) :=
  ⟨hcount ▸ Frame.room_empty n, h.forall₂⟩

theorem declare {type : TypeName} {name : String} {slot : Nat} (h : sc.Room (1 + more) frames)
    (hdeclare : sc.declare type name = .ok (slot, sc')) :
    sc'.Room more frames ∧ ∃ count, frames[0]? = some count ∧ slot < count := by
  cases frames with
  | nil => exact h.elim
  | cons count rest =>
    obtain ⟨hframe, houter⟩ := frame_of_register hdeclare
    obtain ⟨hroom, hslot⟩ := h.1.declare hframe
    have hrest := h.2
    rw [← houter] at hrest
    exact ⟨⟨hroom, hrest⟩, count, rfl, hslot⟩

theorem declareAll {params : List Param} (h : sc.Room (params.length + more) frames)
    (hdeclare : sc.declareAll params = .ok sc') : sc'.Room more frames := by
  induction params generalizing sc with
  | nil =>
    cases hdeclare
    rwa [List.length_nil, Nat.zero_add] at h
  | cons p ps ih =>
    obtain ⟨slot, mid, hfirst, hrest⟩ := declareAll_cons.mp hdeclare
    rw [List.length_cons, Nat.add_comm ps.length, Nat.add_assoc] at h
    exact ih (h.declare hfirst).1 hrest

theorem function {name : String} {signature : Option Signature} {pc a : Address}
    (h : sc.Room more frames)
    (hregister : sc.register name .function signature pc = .ok (a, sc')) :
    sc'.Room more frames := by
  cases frames with
  | nil => exact h.elim
  | cons count rest =>
    obtain ⟨hframe, houter⟩ := frame_of_register hregister
    have hrest := h.2
    rw [← houter] at hrest
    exact ⟨h.1.function hframe, hrest⟩

end Scopes.Room

/-- A variable that is found has a slot in the frame where it is found. -/
theorem Scopes.slot_lt_of_findIn {fs : List Frame} {frames : List Nat} {name : String}
    {r : Resolved} {d : Nat} (h : List.Forall₂ (Frame.Room 0) fs frames)
    (hfind : findIn name fs d = some r) (hkind : r.label.kind.isFunction = false) :
    ∃ k count, r.depth = d + k ∧ frames[k]? = some count ∧ r.label.address < count := by
  induction h generalizing d with
  | nil => cases hfind
  | @cons f count fs frames hroom _ ih =>
    rw [findIn] at hfind
    split at hfind
    · rename_i label hlabel
      cases hfind
      exact ⟨0, count, rfl, rfl, Nat.lt_of_lt_of_le (hroom.sound hlabel hkind) hroom.slots⟩
    · obtain ⟨k, bound, hdepth, hbound, hlt⟩ := ih hfind
      exact ⟨k + 1, bound, by omega, hbound, hlt⟩

theorem Scopes.Room.locate {sc : Scopes} {more : Nat} {frames : List Nat} {name : String}
    {depth slot : Nat} (h : sc.Room more frames) (hlocate : sc.locate? name = some (depth, slot)) :
    ∃ count, frames[depth]? = some count ∧ slot < count := by
  unfold Scopes.locate? at hlocate
  split at hlocate
  · rename_i address type signature found hfind
    cases hlocate
    obtain ⟨k, count, hdepth, hcount, hlt⟩ := slot_lt_of_findIn h.forall₂ hfind rfl
    have hk : depth = k := hdepth.trans (Nat.zero_add k)
    rw [← hk] at hcount
    exact ⟨count, hcount, hlt⟩
  · cases hlocate

/-! ### Parts of segments -/

namespace Covers

open Outline (words)
open Segment (finish store leave)

variable {halts inside : Bool} {frames : List Nat} {m n : Nat} {p q : Segment}

theorem append (hp : Covers halts inside frames (words m) p)
    (hq : Covers halts inside frames (words n) q) :
    Covers halts inside frames (words (m + n)) (.seq p q) :=
  .join hp hq

theorem finish (u : Usage) : Covers halts inside frames (words u.finishSize) (finish u) := by
  have hpop : Plain.pop.Ordinary inside frames := trivial
  cases u with
  | value => exact .nothing
  | discard => exact .one hpop

theorem store (u : Usage) {depth slot : Nat}
    (h : ∃ count, frames[depth]? = some count ∧ slot < count) :
    Covers halts inside frames (words u.storeSize) (store u depth slot) := by
  have hdup : Plain.dup.Ordinary inside frames := trivial
  have hstore : (Plain.store depth slot).Ordinary inside frames := h
  cases u with
  | value => exact append (.one hdup) (append (.one hstore) .nothing)
  | discard => exact append (.one hstore) .nothing

theorem leave (type : TypeName) :
    Covers halts true frames (words (Mark.leave (some type))) (leave type) := by
  have hpop : Plain.pop.Ordinary true frames := trivial
  have hret : Plain.ret.Ordinary true frames := rfl
  have hvalue : Plain.retValue.Ordinary true frames := rfl
  rw [← Segment.size_leave]
  unfold Segment.leave
  split
  · exact append (.one hpop) (append (.one hret) .nothing)
  · exact append (.one hvalue) .nothing

end Covers

/-! ### The rules -/

open Outline (words)

variable {config : Config} {fn : Option TypeName} {sc sc' : Scopes} {a : Address} {t : Tree}
  {u : Usage} {p : Segment}

/-- **Emitted code has the scopes of its tree**, and takes as much room as the outline says. -/
theorem Emits.covers {more : Nat} {frames : List Nat} (h : Emits config fn sc a t u p sc')
    (hroom : sc.Room ((t.outline config fn u).locals + more) frames) :
    Covers config.emitHalt fn.isSome frames (t.outline config fn u) p ∧ sc'.Room more frames := by
  induction h generalizing more frames with
  | empty | seqNil => exact ⟨.nothing, hroom.mono (Nat.le_add_left ..)⟩
  | seqCons _ _ ihp ihq =>
    simp only [Tree.outline, Tree.outlineAll, Outline.locals, Nat.add_assoc] at hroom
    obtain ⟨hp, hroom⟩ := ihp hroom
    obtain ⟨hq, hroom⟩ := ihq hroom
    exact ⟨.seq hp hq, hroom⟩
  | program _ ih => exact ih hroom
  | block _ _ ih =>
    -- the room behind the block is that before it, whatever its own scope takes
    obtain ⟨hp, -⟩ := ih (hroom.push (Nat.add_zero _))
    exact ⟨.scope (hp.settle _), hroom.mono (Nat.le_add_left ..)⟩
  | function hregister hparams _ _ ih =>
    have hregistered := hroom.function hregister
    have hsum (n : Nat) (o : Outline) : n + (o.locals + 0) = n + o.locals := rfl
    obtain ⟨hp, -⟩ := ih ((hregistered.push (hsum _ _)).declareAll hparams)
    exact ⟨.function (hp.settle _), hregistered.mono (Nat.le_add_left ..)⟩
  | @retEmpty type sc a u =>
    have hret : Plain.ret.Ordinary true frames := rfl
    exact ⟨.one hret, hroom.mono (Nat.le_add_left ..)⟩
  | ret hempty _ ih =>
    simp only [Tree.outline, hempty, Bool.false_eq_true, if_false] at hroom ⊢
    obtain ⟨hp, hroom⟩ := ih hroom
    exact ⟨.seq hp (.leave _), hroom⟩
  | declare hdeclare => exact ⟨.nothing, (hroom.declare hdeclare).1⟩
  | @declareWith fn sc a u type name value p sc₁ slot sc₂ _ hdeclare ih =>
    simp only [Tree.outline, Outline.locals, Nat.add_assoc] at hroom
    obtain ⟨hp, hroom⟩ := ih hroom
    obtain ⟨hroom, hslot⟩ := hroom.declare hdeclare
    have hstore : (Plain.store 0 slot).Ordinary fn.isSome frames := hslot
    exact ⟨.seq hp (.one hstore), hroom⟩
  | assign _ hlocate ih =>
    obtain ⟨hp, hroom⟩ := ih hroom
    exact ⟨.seq hp (.store _ (hroom.locate hlocate)), hroom⟩
  | @compound fn sc a u op name value depth slot p sc' depth' slot' hload _ hlocate ih =>
    simp only [Tree.outline, words, Outline.locals, Nat.zero_add, Nat.add_zero] at hroom
    have hload : (Plain.load depth slot).Ordinary fn.isSome frames := hroom.locate hload
    have hbinary : (Plain.binary op).Ordinary fn.isSome frames := trivial
    obtain ⟨hp, hroom⟩ := ih hroom
    exact ⟨.seq (.one hload)
      (.seq hp (.append (.one hbinary) (.store _ (hroom.locate hlocate)))), hroom⟩
  | @step fn sc a u op name depth slot hlocate =>
    have hload : (Plain.load depth slot).Ordinary fn.isSome frames := hroom.locate hlocate
    have hpush : (Plain.push (.int 1)).Ordinary fn.isSome frames := trivial
    have hbinary : (Plain.binary op.binary).Ordinary fn.isSome frames := trivial
    have hvalue : Covers config.emitHalt fn.isSome frames (words 6)
        (.ops [.load depth slot, .push (.int 1), .binary op.binary]) :=
      .append (.one hload) (.append (.one hpush) (.append (.one hbinary) .nothing))
    exact ⟨.append hvalue (.store u (hroom.locate hlocate)), hroom.mono (Nat.le_add_left ..)⟩
  | ifThen _ _ ihp ihq =>
    simp only [Tree.outline, words, Outline.locals, Nat.zero_add, Nat.add_assoc] at hroom
    obtain ⟨hp, hroom⟩ := ihp hroom
    obtain ⟨hq, hroom⟩ := ihq hroom
    exact ⟨.seq hp (.skip hq), hroom⟩
  | ifElse _ _ _ ihp ihq ihr =>
    simp only [Tree.outline, words, Outline.locals, Nat.zero_add, Nat.add_assoc] at hroom
    obtain ⟨hp, hroom⟩ := ihp hroom
    obtain ⟨hq, hroom⟩ := ihq hroom
    obtain ⟨hr, hroom⟩ := ihr hroom
    exact ⟨.seq hp (.choice hq hr), hroom⟩
  | whileLoop _ _ ihp ihq =>
    simp only [Tree.outline, words, Outline.locals, Nat.zero_add, Nat.add_zero,
      Nat.add_assoc] at hroom
    obtain ⟨hp, hroom⟩ := ihp hroom
    obtain ⟨hq, hroom⟩ := ihq hroom
    exact ⟨.loop hp hq, hroom⟩
  | doLoop _ _ ihp ihq =>
    simp only [Tree.outline, words, Outline.locals, Nat.add_zero, Nat.add_assoc] at hroom
    obtain ⟨hp, hroom⟩ := ihp hroom
    obtain ⟨hq, hroom⟩ := ihq hroom
    exact ⟨.rounds (.seq hp hq), hroom⟩
  | forEndless _ _ _ _ ihp ihq ihr =>
    have hsum (o b r : Outline) : o.locals + (b.locals + (r.locals + 0)) =
        (Outline.seq o (.seq (.seq b r) (words 2))).locals := rfl
    simp only [Tree.outline, Tree.isEmpty, if_true] at hroom ⊢
    obtain ⟨hp, hinside⟩ := ihp (hroom.push (hsum _ _ _))
    obtain ⟨hq, hinside⟩ := ihq hinside
    obtain ⟨hr, -⟩ := ihr hinside
    exact ⟨.scope (.settle (.seq hp (.rounds (.seq hq hr))) _), hroom.mono (Nat.le_add_left ..)⟩
  | forLoop hempty _ _ _ _ _ ihp ihc ihq ihr =>
    have hsum (o c b r : Outline) :
        o.locals + (c.locals + (b.locals + (r.locals + 0))) =
          (Outline.seq o (.seq c (.seq (words 2) (.seq (.seq b r) (words 2))))).locals := by
      simp only [Outline.locals, words, Nat.zero_add, Nat.add_zero]
    simp only [Tree.outline, hempty, Bool.false_eq_true, if_false] at hroom ⊢
    obtain ⟨hp, hinside⟩ := ihp (hroom.push (hsum _ _ _ _))
    obtain ⟨hc, hinside⟩ := ihc hinside
    obtain ⟨hq, hinside⟩ := ihq hinside
    obtain ⟨hr, -⟩ := ihr hinside
    exact ⟨.scope (.settle (.seq hp (.loop hc (.seq hq hr))) _), hroom.mono (Nat.le_add_left ..)⟩
  | @call fn sc a u name args p sc' target _ _ ih =>
    have hcall : (Plain.call target args.length).Ordinary fn.isSome frames := trivial
    obtain ⟨hp, hroom⟩ := ih hroom
    exact ⟨.seq hp (.append (.one hcall) (.finish u)), hroom⟩
  | @binary fn sc a u op lhs rhs p sc₁ q sc₂ _ _ ihp ihq =>
    have hbinary : (Plain.binary op).Ordinary fn.isSome frames := trivial
    simp only [Tree.outline, words, Outline.locals, Nat.add_zero, Nat.add_assoc] at hroom
    obtain ⟨hp, hroom⟩ := ihp hroom
    obtain ⟨hq, hroom⟩ := ihq hroom
    exact ⟨.seq hp (.seq hq (.append (.one hbinary) (.finish u))), hroom⟩
  | @logical fn sc a u op lhs rhs p sc₁ q sc₂ _ _ ihp ihq =>
    have hdup : Plain.dup.Ordinary fn.isSome frames := trivial
    have hpop : Plain.pop.Ordinary fn.isSome frames := trivial
    simp only [Tree.outline, words, Outline.locals, Nat.zero_add, Nat.add_zero,
      Nat.add_assoc] at hroom
    obtain ⟨hp, hroom⟩ := ihp hroom
    obtain ⟨hq, hroom⟩ := ihq hroom
    exact ⟨.seq hp (.seq (.one hdup) (.seq (.skip (.seq (.one hpop) hq)) (.finish u))), hroom⟩
  | @unary fn sc a u op operand p sc' _ ih =>
    have hunary : (Plain.unary op).Ordinary fn.isSome frames := trivial
    obtain ⟨hp, hroom⟩ := ih hroom
    exact ⟨.seq hp (.append (.one hunary) (.finish u)), hroom⟩
  | @ident fn sc a u name depth slot hlocate =>
    have hload : (Plain.load depth slot).Ordinary fn.isSome frames := hroom.locate hlocate
    exact ⟨.append (.one hload) (.finish u), hroom.mono (Nat.le_add_left ..)⟩
  | @lit fn sc a u value =>
    have hpush : (Plain.push value).Ordinary fn.isSome frames := trivial
    exact ⟨.append (.one hpush) (.finish u), hroom.mono (Nat.le_add_left ..)⟩

/-- The code of a whole program has the scopes of its tree. -/
theorem Tree.Compiles.covers {tree : Tree} {frame : Frame} {program : Program}
    (h : tree.Compiles config p frame program) :
    Covers config.emitHalt false (Layer.counts (tree.wholeOutline config).locals [])
      (tree.wholeOutline config) (p.settle frame) := by
  have hroom : Scopes.Room ((tree.wholeOutline config).locals + 0) {}
      [(tree.wholeOutline config).locals] :=
    ⟨Frame.room_empty _, .nil⟩
  exact (h.emits.covers hroom).1.settle frame

end SceneCode
