import SceneCode.Proofs.Functions.Nodes
import SceneCode.Proofs.Lexical.Covering

/-!
# Returns in the code of functions

The code of a function lies in one stretch, from its label to the return behind its body, but the
functions that are defined inside of it lie there too.  What is left without them are the
instructions that the function has itself (`Definition.Owns`).

A segment tells which returns it has outside of the functions in it (`Segment.returns`), and what
the bodies of these functions are (`Segment.bodies`), without any address.  Here is proved that this
is the same as what the addresses of the outline say: the instructions that are outside of all
functions have the returns of the segment (`Covers.exits_outside`), and those that a function has
itself have the returns of its body and one more (`Covers.map_exits`).
-/

namespace SceneCode

/-- The operation by which an instruction ends the run of a function. -/
def Plain.exit? : Plain → Option Opcode
  | .ret => some .ret
  | .retValue => some .retValue
  | _ => none

namespace Instruction

def exit? : Instruction → Option Opcode
  | .plain i => i.exit?
  | .jump _ _ => none

/-- The operations of the returns at addresses with a property, if the instructions start at `a`. -/
def exits (P : Address → Prop) [DecidablePred P] (a : Address) (is : List Instruction) :
    List Opcode :=
  (located a is).flatMap fun x => if P x.1 then x.2.exit?.toList else []

section

variable {P : Address → Prop} [DecidablePred P]

@[simp] theorem exits_append (a : Nat) (is js : List Instruction) :
    exits P a (is ++ js) = exits P a is ++ exits P (a + sizes is) js := by
  simp [exits]

/-- An instruction that does not return makes no difference. -/
theorem exits_cons_of_none {a : Nat} {i : Instruction} (is : List Instruction)
    (h : i.exit? = none) : exits P a (i :: is) = exits P (a + i.size) is := by
  unfold exits
  rw [located, List.flatMap_cons, h, Option.toList_none, ite_self, List.nil_append]

theorem exits_eq_nil {a : Nat} {is : List Instruction} (h : ∀ b, a ≤ b → b < a + sizes is → ¬P b) :
    exits P a is = [] := by
  apply List.flatMap_eq_nil_iff.mpr
  rintro ⟨b, i⟩ hmem
  obtain ⟨hstart, hend⟩ := bounds_of_mem_located hmem
  have hpos := i.size_pos
  exact if_neg (h b hstart (by omega))

end

end Instruction

open Instruction

/-! ### Segments -/

namespace Segment

/-- The operations of the returns of a segment.  Those of the functions in it are left out. -/
def returns : Segment → List Opcode
  | .nothing => []
  | .one i => i.exit?.toList
  | .seq p q => p.returns ++ q.returns
  | .skip _ body => body.returns
  | .choice body other => body.returns ++ other.returns
  | .loop cond body => cond.returns ++ body.returns
  | .rounds body _ => body.returns
  | .function _ _ => []

/-- The bodies of the functions in a segment, those inside other ones included. -/
def bodies : Segment → List Segment
  | .nothing => []
  | .one _ => []
  | .seq p q => p.bodies ++ q.bodies
  | .skip _ body => body.bodies
  | .choice body other => body.bodies ++ other.bodies
  | .loop cond body => cond.bodies ++ body.bodies
  | .rounds body _ => body.bodies
  | .function _ body => body :: body.bodies

@[simp] theorem returns_settle (frame : Frame) (p : Segment) :
    (p.settle frame).returns = p.returns := by
  induction p with
  | one i => cases i <;> rfl
  | _ => simp_all [settle, returns]

@[simp] theorem bodies_settle (frame : Frame) (p : Segment) :
    (p.settle frame).bodies = p.bodies.map (settle frame) := by
  induction p <;> simp_all [settle, bodies]

@[simp] theorem returns_scope (p : Segment) : (scope p).returns = p.returns := by
  simp [scope, returns, Plain.exit?]

@[simp] theorem bodies_scope (p : Segment) : (scope p).bodies = p.bodies := by
  simp [scope, bodies]

section

variable {P : Address → Prop} [DecidablePred P] (p q : Segment) (a : Nat)

theorem exits_seq : exits P a ((seq p q).code a) =
    exits P a (p.code a) ++ exits P (a + p.size) (q.code (a + p.size)) := by
  rw [code, exits_append, sizes_code]

theorem exits_skip (kind : Jump) : exits P a ((skip kind p).code a) =
    exits P (a + 2) (p.code (a + 2)) :=
  exits_cons_of_none _ rfl

theorem exits_choice : exits P a ((choice p q).code a) =
    exits P (a + 2) (p.code (a + 2)) ++
      exits P (a + 2 + p.size + 2) (q.code (a + 2 + p.size + 2)) := by
  rw [code, exits_cons_of_none _ rfl, exits_append, exits_cons_of_none _ rfl, sizes_code]
  rfl

theorem exits_loop : exits P a ((loop p q).code a) =
    exits P a (p.code a) ++ exits P (a + p.size + 2) (q.code (a + p.size + 2)) := by
  rw [code, exits_append, exits_cons_of_none _ rfl, exits_append, exits_cons_of_none _ rfl,
    sizes_code]
  exact congrArg _ (List.append_nil _)

theorem exits_rounds (back : Jump) : exits P a ((rounds p back).code a) =
    exits P a (p.code a) := by
  rw [code, exits_append, exits_cons_of_none _ rfl]
  exact List.append_nil _

theorem exits_scope : exits P a ((scope p).code a) = exits P (a + 1) (p.code (a + 1)) := by
  rw [scope, exits_seq, exits_seq]
  have henter : exits P a ((one .enterScope).code a) = [] := exits_cons_of_none _ rfl
  have hexit : exits P (a + 1 + p.size) ((one .exitScope).code (a + 1 + p.size)) = [] :=
    exits_cons_of_none _ rfl
  rw [henter]
  exact congrArg _ hexit |>.trans (List.append_nil _)

theorem exits_function (guarded : Bool) : exits P a ((function guarded p).code a) =
    exits P (a + guardSize guarded) (p.code (a + guardSize guarded) ++ [.plain .ret]) := by
  have hguard (target : Address) : exits P a (guardCode guarded target) = [] := by
    cases guarded with
    | false => rfl
    | true => exact exits_cons_of_none _ rfl
  rw [code, exits_append, hguard, sizes_guardCode, List.nil_append]

end

end Segment

/-! ### Code outside of functions -/

/-- The address is in the code of the function, and not in that of a function inside of it. -/
def Definition.Owns (d : Definition) (b : Nat) : Prop :=
  d.Contains b ∧ ∀ e ∈ d.inner, ¬e.Contains b

instance (d : Definition) (b : Nat) : Decidable (d.Contains b) :=
  inferInstanceAs (Decidable (_ ∧ _))

instance (d : Definition) : DecidablePred d.Owns := fun b =>
  inferInstanceAs (Decidable (d.Contains b ∧ ∀ e ∈ d.inner, ¬e.Contains b))

namespace Outline

/-- The property picks out the addresses of the outline that are outside of all functions. -/
def Outside (P : Nat → Prop) (a : Nat) (around : List Layer) (o : Outline) : Prop :=
  ∀ b, a ≤ b → b < a + o.size → (P b ↔ ∀ d ∈ o.definitions a around, ¬d.Contains b)

namespace Outside

variable {P : Nat → Prop} {a : Nat} {around : List Layer} {o r : Outline}

/-- A function of one part has no code in the other one. -/
theorem left (h : (seq o r).Outside P a around) : o.Outside P a around := by
  intro b hstart hend
  rw [h b hstart (by simp only [size]; omega), definitions, List.forall_mem_append]
  refine and_iff_left ?_
  intro d hd hcontains
  have hbounds := bounds_of_mem_definitions hd
  have hfirst := hcontains.1
  omega

theorem right (h : (seq o r).Outside P a around) : r.Outside P (a + o.size) around := by
  intro b hstart hend
  rw [h b (by omega) (by simp only [size]; omega), definitions, List.forall_mem_append]
  refine and_iff_right ?_
  intro d hd hcontains
  have hbounds := bounds_of_mem_definitions hd
  have hlast := hcontains.2
  omega

theorem scope (h : (Outline.scope o).Outside P a around) :
    o.Outside P (a + 1) (.scope o.locals :: around) := by
  intro b hstart hend
  exact h b (by omega) (by simp only [size]; omega)

theorem split {words more locals others : Nat}
    (h : (Outline.code (words + more) (locals + others)).Outside P a around) :
    (seq (.code words locals) (.code more others)).Outside P a around := h

theorem code {words locals b : Nat} (h : (Outline.code words locals).Outside P a around)
    (hstart : a ≤ b) (hend : b < a + words) : P b :=
  (h b hstart hend).mpr nofun

end Outside

end Outline

namespace Covers

variable {halts inside : Bool} {frames : List Nat} {o : Outline} {p : Segment}

/-- **Outside of all functions there are the returns of the segment.** -/
theorem exits_outside {P : Nat → Prop} [DecidablePred P] {a : Nat} {around : List Layer}
    (h : Covers halts inside frames o p) (hP : o.Outside P a around) :
    exits P a (p.code a) = p.returns := by
  induction h generalizing a around with
  | nothing => rfl
  | @one inside frames locals i hi =>
    have hpos : 0 < i.size := (Instruction.plain i).size_pos
    have hfirst : P a := hP.code (Nat.le_refl a) (by omega)
    simp [Segment.code, exits, located, hfirst, Segment.returns, Instruction.exit?]
  | join hp _ ihp ihq =>
    have hright := hP.split.right
    rw [hp.size_eq] at hright
    rw [Segment.exits_seq, ihp hP.split.left, ihq hright, Segment.returns]
  | seq hp _ ihp ihq =>
    have hright := hP.right
    rw [hp.size_eq] at hright
    rw [Segment.exits_seq, ihp hP.left, ihq hright, Segment.returns]
  | skip _ ih =>
    rw [Segment.exits_skip]
    exact ih hP.right
  | @choice inside frames o r p q hp _ ihp ihq =>
    have hbody : o.Outside P (a + 2) around := hP.right.left
    have hother := hP.right.right.right
    rw [hp.size_eq] at hother
    rw [Segment.exits_choice, ihp hbody, Segment.returns, ← ihq hother]
    rfl
  | loop hp _ ihp ihq =>
    have hbody := hP.right.right.left
    rw [hp.size_eq] at hbody
    rw [Segment.exits_loop, ihp hP.left, Segment.returns, ← ihq hbody]
    rfl
  | rounds _ ih =>
    rw [Segment.exits_rounds]
    exact ih hP.left
  | scope _ ih => rw [Segment.exits_scope, ih hP.scope, Segment.returns_scope]
  | @function inside frames params o p hp ih =>
    rw [Segment.exits_function]
    apply exits_eq_nil
    intro b hstart hend hb
    rw [sizes_append, Segment.sizes_code, ← hp.size_eq] at hend
    have hend : b ≤ a + Segment.guardSize (inside || halts) + o.size := Nat.le_of_lt_succ hend
    have houtside := (hP b (by omega) (by simp only [Outline.size]; omega)).mp hb
    exact houtside _ (List.mem_cons_self ..) ⟨hstart, hend⟩

/-- Outside of functions nothing returns. -/
theorem returns_eq_nil (h : Covers halts inside frames o p) (hinside : inside = false) :
    p.returns = [] := by
  induction h with
  | nothing | function => rfl
  | @one inside frames locals i hi =>
    cases i with
    | ret | retValue => exact (Bool.eq_false_iff.mp hinside hi).elim
    | _ => rfl
  | join _ _ ihp ihq | seq _ _ ihp ihq | choice _ _ ihp ihq | loop _ _ ihp ihq =>
    rw [Segment.returns, ihp hinside, ihq hinside, List.append_nil]
  | skip _ ih | rounds _ ih => exact ih hinside
  | scope _ ih => rw [Segment.returns_scope, ih hinside]

end Covers

/-! ### Code of functions -/

/-- A function owns nothing of the code behind it and before it. -/
theorem Definition.exits_apart {d : Definition} {a : Nat} {is : List Instruction}
    (h : d.finish < a ∨ a + sizes is ≤ d.start) : exits d.Owns a is = [] := by
  apply exits_eq_nil
  intro b hstart hend hb
  obtain ⟨hfirst, hlast⟩ := hb.1
  omega

theorem Definition.owns_finish (d : Definition) : d.Owns d.finish := by
  refine ⟨⟨Nat.le_add_right .., Nat.le_refl _⟩, ?_⟩
  intro e he hcontains
  have hbounds := Outline.bounds_of_mem_definitions he
  have hlast := hcontains.2
  unfold Definition.finish at hbounds hlast
  omega

/-- The outline of the body says which code the function owns. -/
theorem Definition.outside_owns (d : Definition) : d.body.Outside d.Owns d.start d.base := by
  intro b hstart hend
  have hcontains : d.Contains b := ⟨hstart, Nat.le_of_lt hend⟩
  exact and_iff_right hcontains

/-- The returns of a function are those of its body and the one behind it. -/
theorem Definition.exits_owned {halts : Bool} {frames : List Nat} {d : Definition} {p : Segment}
    (h : Covers halts true frames d.body p) :
    exits d.Owns d.start (p.code d.start ++ [.plain .ret]) = p.returns ++ [.ret] := by
  have hlast : d.Owns (d.start + p.size) := by
    rw [← h.size_eq]
    exact d.owns_finish
  rw [exits_append, h.exits_outside d.outside_owns, Segment.sizes_code]
  simp [exits, located, hlast, Instruction.exit?, Plain.exit?]

/-- Functions of one part own nothing of the other one. -/
theorem Outline.map_exits_apart {o r : Outline} {p q : Segment} {a b : Nat} {around : List Layer}
    (hp : o.size = p.size) (hb : a + p.size ≤ b) :
    (o.definitions a around ++ r.definitions b around).map
        (fun d => exits d.Owns a (p.code a) ++ exits d.Owns b (q.code b)) =
      (o.definitions a around).map (fun d => exits d.Owns a (p.code a)) ++
        (r.definitions b around).map fun d => exits d.Owns b (q.code b) := by
  rw [List.map_append]
  congr 1
  · apply List.map_congr_left
    intro d hd
    have hbounds := bounds_of_mem_definitions hd
    have hother : exits d.Owns b (q.code b) = [] := Definition.exits_apart (Or.inl (by omega))
    rw [hother, List.append_nil]
  · apply List.map_congr_left
    intro d hd
    have hbounds := bounds_of_mem_definitions hd
    have hother : exits d.Owns a (p.code a) = [] := by
      apply Definition.exits_apart
      rw [Segment.sizes_code]
      omega
    rw [hother, List.nil_append]

/-- **Every function owns the returns of its body and one more.** -/
theorem Covers.map_exits {halts inside : Bool} {frames : List Nat} {o : Outline} {p : Segment}
    {a : Nat} {around : List Layer} (h : Covers halts inside frames o p) :
    (o.definitions a around).map (fun d => exits d.Owns a (p.code a)) =
      p.bodies.map fun q => q.returns ++ [.ret] := by
  induction h generalizing a around with
  | nothing | one => rfl
  | join _ _ ihp ihq =>
    -- words without a function among them have no body
    have hp := @ihp a around
    have hq := @ihq a around
    rw [Segment.bodies, List.map_append, ← hp, ← hq]
    rfl
  | @seq inside frames o r p q hp _ ihp ihq =>
    rw [Segment.bodies, List.map_append, ← @ihp a around, ← @ihq (a + p.size) around,
      Outline.definitions, hp.size_eq]
    simp only [Segment.exits_seq]
    exact Outline.map_exits_apart hp.size_eq (Nat.le_refl _)
  | skip _ ih =>
    rw [Segment.bodies, ← @ih (a + 2) around]
    simp only [Segment.exits_skip]
    rfl
  | @choice inside frames o r p q hp _ ihp ihq =>
    have hdefinitions : (Outline.seq (.words 2) (.seq o (.seq (.words 2) r))).definitions a around =
        o.definitions (a + 2) around ++ r.definitions (a + 2 + p.size + 2) around := by
      rw [← hp.size_eq]
      rfl
    rw [Segment.bodies, List.map_append, ← @ihp (a + 2) around,
      ← @ihq (a + 2 + p.size + 2) around, hdefinitions]
    simp only [Segment.exits_choice]
    exact Outline.map_exits_apart hp.size_eq (by omega)
  | @loop inside frames o r p q hp _ ihp ihq =>
    have hdefinitions : (Outline.seq o (.seq (.words 2) (.seq r (.words 2)))).definitions a around =
        o.definitions a around ++ r.definitions (a + p.size + 2) around := by
      simp only [Outline.definitions, Outline.definitions_words, List.append_nil, List.nil_append,
        hp.size_eq]
      rfl
    rw [Segment.bodies, List.map_append, ← @ihp a around, ← @ihq (a + p.size + 2) around,
      hdefinitions]
    simp only [Segment.exits_loop]
    exact Outline.map_exits_apart hp.size_eq (by omega)
  | rounds _ ih =>
    rw [Segment.bodies, ← @ih a around, Outline.definitions, Outline.definitions_words,
      List.append_nil]
    simp only [Segment.exits_rounds]
  | scope _ ih =>
    simp only [Segment.exits_scope, Segment.bodies_scope]
    exact ih
  | @function inside frames params o p hp ih =>
    simp only [Segment.exits_function, Segment.bodies, Outline.definitions, List.map_cons]
    congr 1
    · exact Definition.exits_owned hp
    · -- the return behind the body belongs to none of the functions inside
      rw [← ih]
      apply List.map_congr_left
      intro d hd
      have hbounds := Outline.bounds_of_mem_definitions hd
      rw [hp.size_eq] at hbounds
      have hlast : exits d.Owns _ [.plain .ret] = [] := Definition.exits_apart (Or.inl hbounds.2)
      rw [exits_append, Segment.sizes_code, hlast, List.append_nil]

end SceneCode
