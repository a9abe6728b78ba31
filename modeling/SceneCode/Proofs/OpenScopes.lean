import SceneCode.Proofs.Results
import SceneCode.Proofs.Session.Growth
import Mathlib.Logic.ExistsUnique

/-!
# Laws of the open scopes

Scopes are opened and closed, names get their labels and calls are put off in any order, and some of
these steps are refused.  Whatever the order was, the variables of each frame have the first slots,
each slot one variable (`Frame.Allots`), so no two variables of a frame share a place.

A look-up goes by the frames alone: it finds the label of the innermost frame that has the name, and
the depth that it returns is the number of scopes to close until that frame is the current one
(`Scopes.Finds`).
-/

namespace SceneCode

/-! ### Slots of a frame -/

namespace Frame

variable {f g : Frame} {name : String} {kind : LabelKind} {signature : Option Signature}
  {pc a : Address}

/-- The slot of a variable of the frame. -/
def slot? (f : Frame) (name : String) : Option Nat :=
  (f.get? name).bind fun label => if label.kind.isFunction then none else some label.address

/-- The variables of the frame have the slots that were given out, each slot one variable. -/
structure Allots (f : Frame) : Prop where
  below : ∀ name n, f.slot? name = some n → n < f.slots
  once : ∀ n < f.slots, ∃! name, f.slot? name = some n

theorem allots_empty : Allots {} where
  below name n h := by cases h
  once n h := absurd h (Nat.not_lt_zero n)

theorem Allots.congr (hf : f.Allots) (hslots : g.slots = f.slots)
    (hslot : ∀ name, g.slot? name = f.slot? name) : g.Allots := by
  constructor
  · intro name n hn
    rw [hslots]
    exact hf.below name n (hslot name ▸ hn)
  · intro n hn
    rw [hslots] at hn
    simp only [hslot]
    exact hf.once n hn

/-- The first free slot goes to a new variable. -/
theorem Allots.extend (hf : f.Allots) (hfresh : f.slot? name = none)
    (hslots : g.slots = f.slots + 1)
    (hslot : ∀ other, g.slot? other = if other = name then some f.slots else f.slot? other) :
    g.Allots := by
  have hnew : g.slot? name = some f.slots := by rw [hslot, if_pos rfl]
  have hold {other : String} (hother : other ≠ name) : g.slot? other = f.slot? other := by
    rw [hslot, if_neg hother]
  constructor
  · intro other n hn
    rw [hslots]
    by_cases hother : other = name
    · rw [hother, hnew] at hn
      cases hn
      exact Nat.lt_succ_self _
    · rw [hold hother] at hn
      exact Nat.lt_succ_of_lt (hf.below other n hn)
  · intro n hn
    rw [hslots] at hn
    rcases Nat.lt_succ_iff_lt_or_eq.mp hn with hlt | rfl
    · -- an old slot keeps its variable, which is not the new one
      obtain ⟨owner, howner, honly⟩ := hf.once n hlt
      have hne : owner ≠ name := by
        rintro rfl
        cases hfresh.symm.trans howner
      refine ⟨owner, (hold hne).trans howner, ?_⟩
      intro other hother
      by_cases hname : other = name
      · rw [hname, hnew] at hother
        cases hother
        exact absurd hlt (Nat.lt_irrefl _)
      · rw [hold hname] at hother
        exact honly other hother
    · refine ⟨name, hnew, ?_⟩
      intro other hother
      by_cases hname : other = name
      · exact hname
      · rw [hold hname] at hother
        exact absurd (hf.below other _ hother) (Nat.lt_irrefl _)

theorem slot?_of_register (h : f.register name kind signature pc = .ok (a, g)) (other : String) :
    g.slot? other =
      if other = name then if kind.isFunction then none else some f.slots else f.slot? other := by
  unfold slot?
  rw [get?_of_register h]
  by_cases hother : other = name
  · rw [if_pos hother, if_pos hother, Option.bind_some]
    cases hkind : kind.isFunction with
    | true => rfl
    | false =>
      have hslot : a = f.slots := (registered_of_register h).slot hkind
      rw [hslot]
  · rw [if_neg hother, if_neg hother]

/-- A function takes no slot, and a variable the first one that is free. -/
theorem Allots.register (hf : f.Allots) (h : f.register name kind signature pc = .ok (a, g)) :
    g.Allots := by
  have hregistered := registered_of_register h
  have hfresh : f.slot? name = none := by rw [slot?, hregistered.fresh, Option.bind_none]
  have hslots : g.slots = f.slots + if kind.isFunction then 0 else 1 := hregistered.slots
  have hslot := slot?_of_register h
  cases kind with
  | function =>
    apply hf.congr hslots
    intro other
    rw [hslot]
    by_cases hother : other = name
    · rw [if_pos hother, hother, hfresh]
      rfl
    · rw [if_neg hother]
  | «variable» type => exact hf.extend hfresh hslots hslot

theorem register_eq_error_iff {e : Fault} :
    f.register name kind signature pc = .error e ↔
      e = .redefinition name ∧ ∃ label, f.get? name = some label := by
  unfold register
  cases hget : f.get? name with
  | none => cases kind <;> simp
  | some label => simp [eq_comm]

end Frame

namespace Scopes

/-! ### Steps -/

/-- Something that is done to the open scopes. -/
inductive Change where
  | push
  | pop
  | reset
  | register (name : String) (kind : LabelKind) (signature : Option Signature) (pc : Address)
  | defer (call : PendingCall)

/-- The scopes behind a step.  A step that is refused leaves them as they are. -/
def Change.after (s : Scopes) : Change → Scopes
  | .push => s.push
  | .pop => match s.pop with
    | .ok (_, t) => t
    | .error _ => s
  | .reset => fresh
  | .register name kind signature pc => match s.register name kind signature pc with
    | .ok (_, t) => t
    | .error _ => s
  | .defer call => s.defer call

/-- The scopes that steps lead to, from those of a new program. -/
inductive Reachable : Scopes → Prop where
  | fresh : Reachable fresh
  | after {s : Scopes} (h : Reachable s) (c : Change) : Reachable (c.after s)

theorem Reachable.afterAll {s : Scopes} (h : Reachable s) (cs : List Change) :
    Reachable (cs.foldl Change.after s) := by
  induction cs generalizing s with
  | nil => exact h
  | cons c rest ih => exact ih (h.after c)

variable {s t : Scopes} {f : Frame} {name : String} {kind : LabelKind}
  {signature : Option Signature} {pc a : Address}

theorem pop_eq_ok_iff : s.pop = .ok (f, t) ↔ s.frames = f :: t.frames := by
  obtain ⟨current, outer⟩ := s
  cases outer with
  | nil => simp [pop, frames]
  | cons next rest =>
    constructor
    · rintro ⟨⟩
      rfl
    · rintro ⟨⟩
      rfl

theorem register_eq_error_iff {e : Fault} :
    s.register name kind signature pc = .error e ↔
      e = .redefinition name ∧ ∃ label, s.current.get? name = some label := by
  have hframe : s.current.register name kind signature pc = .error e ↔
      e = .redefinition name ∧ ∃ label, s.current.get? name = some label :=
    Frame.register_eq_error_iff
  rw [← hframe, register]
  rcases s.current.register name kind signature pc with e | ⟨b, f⟩
  · constructor <;> rintro ⟨⟩ <;> rfl
  · constructor <;> rintro ⟨⟩

/-- Every step keeps the slots of all frames in order. -/
theorem Change.allots (hs : ∀ f ∈ s.frames, f.Allots) (c : Change) :
    ∀ f ∈ (c.after s).frames, f.Allots := by
  have hcurrent : s.current.Allots := hs _ List.mem_cons_self
  have houter : ∀ f ∈ s.outer, f.Allots := fun f hf => hs f (List.mem_cons_of_mem _ hf)
  cases c with
  | push => exact List.forall_mem_cons.mpr ⟨Frame.allots_empty, hs⟩
  | pop =>
    rw [after]
    rcases hpop : s.pop with e | ⟨f, t⟩
    · exact hs
    · rw [pop_eq_ok_iff.mp hpop] at hs
      exact (List.forall_mem_cons.mp hs).2
  | reset => exact List.forall_mem_singleton.mpr Frame.allots_empty
  | register name kind signature pc =>
    rw [after]
    rcases hregister : s.register name kind signature pc with e | ⟨a, t⟩
    · exact hs
    · obtain ⟨hframe, hsame⟩ := frame_of_register hregister
      refine List.forall_mem_cons.mpr ⟨hcurrent.register hframe, ?_⟩
      rw [hsame]
      exact houter
  | defer call =>
    refine List.forall_mem_cons.mpr ⟨?_, houter⟩
    exact hcurrent.congr rfl fun _ => rfl

theorem Reachable.allots (h : s.Reachable) : ∀ f ∈ s.frames, f.Allots := by
  induction h with
  | fresh => exact List.forall_mem_singleton.mpr Frame.allots_empty
  | after _ c ih => exact c.allots ih

/-! ### Closing scopes -/

/-- Close a number of scopes, the innermost one first. -/
def close (s : Scopes) : Nat → Except Fault Scopes
  | 0 => .ok s
  | n + 1 => do
    let t ← s.close n
    return (← t.pop).2

theorem close_succ_eq_ok {n : Nat} :
    s.close (n + 1) = .ok t ↔ ∃ u f, s.close n = .ok u ∧ u.frames = f :: t.frames := by
  simp only [close, bind_eq_ok, pure_eq_ok]
  constructor
  · rintro ⟨u, hclose, ⟨f, v⟩, hpop, rfl⟩
    exact ⟨u, f, hclose, pop_eq_ok_iff.mp hpop⟩
  · rintro ⟨u, f, hclose, hframes⟩
    exact ⟨u, hclose, ⟨f, t⟩, pop_eq_ok_iff.mpr hframes, rfl⟩

/-- What is open after `n` scopes have been closed is what was open around them. -/
theorem frames_of_close {n : Nat} (h : s.close n = .ok t) : t.frames = s.frames.drop n := by
  induction n generalizing t with
  | zero =>
    cases h
    rfl
  | succ n ih =>
    obtain ⟨u, f, hclose, hframes⟩ := close_succ_eq_ok.mp h
    rw [← List.drop_drop, ← ih hclose, hframes, List.drop_one, List.tail_cons]

theorem current_of_close {n : Nat} (h : s.close n = .ok t) : s.frames[n]? = some t.current := by
  rw [← List.head?_drop, ← frames_of_close h, frames, List.head?_cons]

/-- All scopes but the outermost one can be closed. -/
theorem exists_close {n : Nat} (h : n ≤ s.depth) : ∃ t, s.close n = .ok t := by
  induction n with
  | zero => exact ⟨s, rfl⟩
  | succ n ih =>
    obtain ⟨u, hclose⟩ := ih (Nat.le_of_succ_le h)
    have hlength := congrArg List.length (frames_of_close hclose)
    rw [List.length_drop] at hlength
    cases houter : u.outer with
    | nil =>
      simp only [frames, houter, List.length_cons, List.length_nil] at hlength
      unfold depth at h
      omega
    | cons next rest =>
      refine ⟨⟨next, rest⟩, close_succ_eq_ok.mpr ⟨u, u.current, hclose, ?_⟩⟩
      rw [frames, frames, houter]

/-! ### Looking names up -/

/-- The label of the first frame that has the name. -/
structure Innermost (frames : List Frame) (name : String) (r : Resolved) : Prop where
  has : ∃ f, frames[r.depth]? = some f ∧ f.get? name = some r.label
  lacks : ∀ n < r.depth, ∀ f, frames[n]? = some f → f.get? name = none

theorem innermost_zero {rest : List Frame} {label : Label} :
    Innermost (f :: rest) name ⟨label, 0⟩ ↔ f.get? name = some label := by
  constructor
  · rintro ⟨⟨g, ⟨⟩, hget⟩, -⟩
    exact hget
  · intro hget
    exact ⟨⟨f, rfl, hget⟩, fun n hn => absurd hn (Nat.not_lt_zero n)⟩

theorem innermost_succ {rest : List Frame} {label : Label} {depth : Nat} :
    Innermost (f :: rest) name ⟨label, depth + 1⟩ ↔
      f.get? name = none ∧ Innermost rest name ⟨label, depth⟩ := by
  constructor
  · rintro ⟨hhas, hlacks⟩
    refine ⟨hlacks 0 (Nat.succ_pos depth) f rfl, hhas, ?_⟩
    intro n hn g hg
    exact hlacks (n + 1) (Nat.succ_lt_succ hn) g hg
  · rintro ⟨hget, hhas, hlacks⟩
    refine ⟨hhas, ?_⟩
    intro n hn g hg
    cases n with
    | zero =>
      cases hg
      exact hget
    | succ n => exact hlacks n (Nat.lt_of_succ_lt_succ hn) g hg

theorem findIn_eq_some_iff {frames : List Frame} {start : Nat} {r : Resolved} :
    findIn name frames start = some r ↔
      ∃ depth, r.depth = start + depth ∧ Innermost frames name ⟨r.label, depth⟩ := by
  induction frames generalizing start with
  | nil =>
    constructor
    · rintro ⟨⟩
    · rintro ⟨depth, -, ⟨f, hf, -⟩, -⟩
      cases hf
  | cons f rest ih =>
    rw [findIn]
    cases hget : f.get? name with
    | some label =>
      constructor
      · rintro ⟨⟩
        exact ⟨0, rfl, innermost_zero.mpr hget⟩
      · rintro ⟨depth, hdepth, hr⟩
        cases depth with
        | zero =>
          obtain ⟨found, d⟩ := r
          cases hdepth
          cases hget.symm.trans (innermost_zero.mp hr)
          rfl
        | succ depth => cases hget.symm.trans (innermost_succ.mp hr).1
    | none =>
      simp only [ih]
      constructor
      · rintro ⟨depth, hdepth, hr⟩
        exact ⟨depth + 1, by omega, innermost_succ.mpr ⟨hget, hr⟩⟩
      · rintro ⟨depth, hdepth, hr⟩
        cases depth with
        | zero => cases hget.symm.trans (innermost_zero.mp hr)
        | succ depth => exact ⟨depth, by omega, (innermost_succ.mp hr).2⟩

theorem find?_eq_some_iff {r : Resolved} :
    s.find? name = some r ↔ Innermost s.frames name r := by
  rw [find?, findIn_eq_some_iff]
  simp only [Nat.zero_add, exists_eq_left']

theorem findIn_eq_none_iff {frames : List Frame} {start : Nat} :
    findIn name frames start = none ↔ ∀ f ∈ frames, f.get? name = none := by
  induction frames generalizing start with
  | nil => simp [findIn]
  | cons f rest ih =>
    rw [findIn, List.forall_mem_cons]
    cases f.get? name with
    | some label => simp
    | none => simp [ih]

/-- What a look-up that finds a label says about the scopes. -/
structure Finds (s : Scopes) (name : String) (r : Resolved) : Prop where
  depth_le : r.depth ≤ s.depth
  /-- No scope inside of the one with the label has the name. -/
  lacks : ∀ n < r.depth, ∃ t, s.close n = .ok t ∧ t.current.get? name = none
  has : ∃ t, s.close r.depth = .ok t ∧ t.current.get? name = some r.label
  /-- The scopes around it are looked through as if they were alone. -/
  around : ∀ t, s.close (r.depth + 1) = .ok t →
    ∀ found, t.find? name = some found ↔ Innermost (s.frames.drop (r.depth + 1)) name found

/-- What happens when a name is to get a label. -/
structure Registers (s : Scopes) (name : String) (kind : LabelKind)
    (signature : Option Signature) (pc : Address) : Prop where
  refused : (∃ e, s.register name kind signature pc = .error e) ↔
    ∃ label, s.current.get? name = some label
  fault : ∀ e, s.register name kind signature pc = .error e →
    e = .redefinition name ∧ (Change.register name kind signature pc).after s = s
  accepted : ∀ a t, s.register name kind signature pc = .ok (a, t) →
    (Change.register name kind signature pc).after s = t ∧ t.outer = s.outer ∧
      ∀ other, t.current.get? other =
        if other = name then some ⟨a, kind, signature⟩ else s.current.get? other

theorem Innermost.finds {r : Resolved} (h : Innermost s.frames name r) : s.Finds name r := by
  obtain ⟨f, hf, hlabel⟩ := h.has
  have hdepth : r.depth ≤ s.depth := by
    have hlt := (List.getElem?_eq_some_iff.mp hf).1
    exact Nat.le_of_lt_succ hlt
  refine ⟨hdepth, ?_, ?_, ?_⟩
  · intro n hn
    obtain ⟨t, hclose⟩ := exists_close (Nat.le_trans (Nat.le_of_lt hn) hdepth)
    exact ⟨t, hclose, h.lacks n hn _ (current_of_close hclose)⟩
  · obtain ⟨t, hclose⟩ := exists_close hdepth
    rw [current_of_close hclose] at hf
    cases hf
    exact ⟨t, hclose, hlabel⟩
  · intro t hclose found
    rw [find?_eq_some_iff, frames_of_close hclose]

theorem registers (s : Scopes) (name : String) (kind : LabelKind) (signature : Option Signature)
    (pc : Address) : s.Registers name kind signature pc := by
  refine ⟨?_, ?_, ?_⟩
  · simp only [register_eq_error_iff, exists_eq_left]
  · intro e he
    refine ⟨(register_eq_error_iff.mp he).1, ?_⟩
    rw [Change.after, he]
  · intro a t ht
    refine ⟨?_, outer_of_register ht, Frame.get?_of_register (frame_of_register ht).1⟩
    rw [Change.after, ht]

end Scopes

/-- **Laws of the open scopes.**  Whatever has been done to them, there is a scope, each frame has
    given each of its slots to one variable, a name gets a label unless the current scope has one
    for it, and a look-up finds the label of the innermost scope that has the name. -/
theorem open_scopes_laws {s : Scopes} (h : s.Reachable) :
    s.frames ≠ [] ∧ (∀ f ∈ s.frames, f.Allots) ∧
      (∀ name kind signature pc, s.Registers name kind signature pc) ∧
      (∀ name, s.find? name = none ↔ ∀ f ∈ s.frames, f.get? name = none) ∧
      ∀ name r, s.find? name = some r → s.Finds name r := by
  refine ⟨List.cons_ne_nil _ _, h.allots, s.registers, fun name => Scopes.findIn_eq_none_iff, ?_⟩
  intro name r hfind
  exact (Scopes.find?_eq_some_iff.mp hfind).finds

/-- A variable below a function and one that is refused, seen from two scopes further in. -/
def Scopes.nested : Scopes :=
  [.pop, .register "f" .function none 7, .register "x" (.variable ⟨"int"⟩) none 0,
    .register "x" .function none 9, .push, .register "y" (.variable ⟨"int"⟩) none 0, .push, .pop,
    .push, .register "f" (.variable ⟨"int"⟩) none 0, .defer ⟨"g", 4⟩].foldl Change.after .fresh

theorem open_scopes_laws_nested :
    Scopes.nested.Reachable ∧
      Scopes.nested.find? "x" = some ⟨⟨0, .variable ⟨"int"⟩, none⟩, 2⟩ ∧
      Scopes.nested.Finds "x" ⟨⟨0, .variable ⟨"int"⟩, none⟩, 2⟩ ∧
      Scopes.nested.Registers "f" .function none 11 ∧ ∀ f ∈ Scopes.nested.frames, f.Allots := by
  have hreachable : Scopes.nested.Reachable := Scopes.Reachable.fresh.afterAll _
  have hfind : Scopes.nested.find? "x" = some ⟨⟨0, .variable ⟨"int"⟩, none⟩, 2⟩ := rfl
  obtain ⟨-, hallots, hregisters, -, hfinds⟩ := open_scopes_laws hreachable
  exact ⟨hreachable, hfind, hfinds "x" _ hfind, hregisters "f" .function none 11, hallots⟩

end SceneCode
