import SceneCode.Proofs.Emission.Rules
import SceneCode.Proofs.Reading.Basic

/-!
# Readings tell where code stands

The segment that a tree emits has as many words as the reading of the tree, and the bodies of its
functions start where the reading says.  Both follow the rules of `Emits`, one case for each rule.
-/

namespace SceneCode

namespace Segment

/-- The addresses where the bodies of functions start in a segment that starts at `a`. -/
def starts (a : Address) : Segment → List Address
  | .nothing => []
  | .one _ => []
  | .seq p q => p.starts a ++ q.starts (a + p.size)
  | .skip _ body => body.starts (a + 2)
  | .choice body other => body.starts (a + 2) ++ other.starts (a + 2 + body.size + 2)
  | .loop cond body => cond.starts a ++ body.starts (a + cond.size + 2)
  | .rounds body _ => body.starts a
  | .function guarded body =>
    (a + guardSize guarded) :: body.starts (a + guardSize guarded)

@[simp] theorem starts_settle (frame : Frame) (p : Segment) (a : Nat) :
    (p.settle frame).starts a = p.starts a := by
  induction p generalizing a <;> simp_all [settle, starts]

@[simp] theorem starts_ops (is : List Plain) (a : Nat) : (ops is).starts a = [] := by
  induction is generalizing a with
  | nil => rfl
  | cons i is ih => simp [ops, starts, ih]

@[simp] theorem starts_finish (u : Usage) (a : Nat) : (finish u).starts a = [] := by
  cases u <;> rfl

@[simp] theorem starts_store (u : Usage) (depth slot a : Nat) :
    (store u depth slot).starts a = [] := by
  cases u <;> simp [store]

@[simp] theorem starts_leave (type : TypeName) (a : Nat) : (leave type).starts a = [] := by
  unfold leave
  split <;> simp

@[simp] theorem starts_scope (p : Segment) (a : Nat) : (scope p).starts a = p.starts (a + 1) := by
  simp [scope, starts, size, Plain.size]

@[simp] theorem size_scope (p : Segment) : (scope p).size = 1 + (p.size + 1) := rfl

@[simp] theorem size_leave (type : TypeName) : (leave type).size = Mark.leave (some type) := by
  unfold leave Mark.leave TypeName.isVoid
  by_cases hvoid : type = .void
  · simp [hvoid, Plain.size]
  · simp [hvoid, Plain.size]

/-- The body of a function starts with an instruction. -/
theorem mem_located_of_mem_starts {p : Segment} {a b : Nat} (h : b ∈ p.starts a) :
    ∃ i, (b, i) ∈ Instruction.located a (p.code a) := by
  induction p generalizing a with
  | nothing => cases h
  | one i => cases h
  | seq p q ihp ihq =>
    simp only [code, Instruction.located_append, List.mem_append, sizes_code]
    rcases List.mem_append.mp h with h | h
    · obtain ⟨i, hi⟩ := ihp h
      exact ⟨i, Or.inl hi⟩
    · obtain ⟨i, hi⟩ := ihq h
      exact ⟨i, Or.inr hi⟩
  | skip kind body ih =>
    obtain ⟨i, hi⟩ := ih h
    exact ⟨i, List.mem_cons_of_mem _ hi⟩
  | choice body other ihb iho =>
    simp only [code, Instruction.located, Instruction.located_append, List.mem_cons,
      List.mem_append, sizes_code, Instruction.size]
    rcases List.mem_append.mp h with h | h
    · obtain ⟨i, hi⟩ := ihb h
      exact ⟨i, Or.inr (Or.inl hi)⟩
    · obtain ⟨i, hi⟩ := iho h
      exact ⟨i, Or.inr (Or.inr (Or.inr hi))⟩
  | loop cond body ihc ihb =>
    simp only [code, Instruction.located, Instruction.located_append, List.mem_cons,
      List.mem_append, sizes_code, Instruction.size]
    rcases List.mem_append.mp h with h | h
    · obtain ⟨i, hi⟩ := ihc h
      exact ⟨i, Or.inl hi⟩
    · obtain ⟨i, hi⟩ := ihb h
      exact ⟨i, Or.inr (Or.inr (Or.inl hi))⟩
  | rounds body back ih =>
    obtain ⟨i, hi⟩ := ih h
    rw [code, Instruction.located_append]
    exact ⟨i, List.mem_append_left _ hi⟩
  | function guarded body ih =>
    simp only [code, Instruction.located_append, List.mem_append, sizes_guardCode, sizes_code]
    rcases List.mem_cons.mp h with rfl | h
    · -- an empty body still has the return behind it
      have hfirst := Instruction.exists_first (a + guardSize guarded)
        (body.code (a + guardSize guarded)) (.plain .ret)
      obtain ⟨i, hi⟩ := hfirst
      simp only [Instruction.located_append, List.mem_append, sizes_code] at hi
      exact ⟨i, Or.inr hi⟩
    · obtain ⟨i, hi⟩ := ih h
      exact ⟨i, Or.inr (Or.inl hi)⟩

end Segment

/-! ### Sizes and addresses -/

/-- The number of words that drop a value where nobody uses it. -/
def Usage.finishSize : Usage → Nat
  | .value => 0
  | .discard => 1

/-- The number of words that pop a value into a variable. -/
def Usage.storeSize : Usage → Nat
  | .value => 4
  | .discard => 3

@[simp] theorem Segment.size_finish (u : Usage) : (finish u).size = u.finishSize := by
  cases u <;> rfl

@[simp] theorem Segment.size_store (u : Usage) (depth slot : Nat) :
    (store u depth slot).size = u.storeSize := by
  cases u <;> rfl

namespace Reading

@[simp] theorem width_finish (u : Usage) : width (Mark.finish u) = u.finishSize := by
  cases u <;> rfl

@[simp] theorem width_store (u : Usage) (name : String) :
    width (Mark.store u name) = u.storeSize := by
  cases u <;> rfl

@[simp] theorem width_scope (marks : List Mark) :
    width (Mark.scope marks) = 1 + (width marks + 1) := by
  simp [Mark.scope, Mark.width]

theorem guard_eq (config : Config) (fn : Option TypeName) :
    Mark.guard config fn = Segment.guardSize (guarded config fn) := rfl

@[simp] theorem bodies_finish (u : Usage) (a : Nat) : bodies a (Mark.finish u) = [] := by
  cases u <;> rfl

@[simp] theorem bodies_store (u : Usage) (name : String) (a : Nat) :
    bodies a (Mark.store u name) = [] := by
  cases u <;> rfl

@[simp] theorem bodies_scope (marks : List Mark) (a : Nat) :
    bodies a (Mark.scope marks) = bodies (a + 1) marks := by
  simp [Mark.scope, bodies]

end Reading

section

open Reading Segment

variable {config : Config} {fn : Option TypeName} {sc sc' : Scopes} {a : Address} {t : Tree}
  {u : Usage} {p : Segment}

/-- The reading of a tree has as many words as its code. -/
theorem Emits.width_reading (h : Emits config fn sc a t u p sc') :
    width (t.reading config fn u) = p.size := by
  induction h with
  | empty | seqNil | retEmpty | declare => rfl
  | seqCons _ _ ihp ihq =>
    simp only [Tree.reading] at ihq
    simp only [Tree.reading, Tree.readingAll, width_append, ihp, ihq, size]
  | program _ ih => rw [Tree.reading, ih]
  | block _ _ ih => rw [Tree.reading, width_scope, ih, size_scope, size_settle]
  | function _ _ _ _ ih =>
    simp only [Tree.reading, width_append, width_cons, width_nil, width_declares, ih, Mark.width,
      size, size_settle, guard_eq]
    omega
  | ret hempty _ ih => simp [Tree.reading, hempty, ih, size, Mark.width]
  | forEndless _ _ _ _ ihp ihq ihr =>
    simp only [Tree.reading, Tree.isEmpty, if_true, width_scope, width_append, width_cons,
      width_nil, ihp, ihq, ihr, Mark.width, size_scope, size_settle, size]
    omega
  | forLoop hempty _ _ _ _ _ ihp ihc ihq ihr =>
    simp only [Tree.reading, hempty, Bool.false_eq_true, if_false, width_scope, width_append,
      width_cons, width_nil, ihp, ihc, ihq, ihr, Mark.width, size_scope, size_settle, size]
    omega
  | call _ _ ih =>
    simp only [Tree.reading] at ih
    simp [Tree.reading, ih, size, Mark.width, Plain.size]
  | ident | lit => simp [Tree.reading, size, Mark.width, Plain.size]
  | step => simp [Tree.reading, size, Mark.width, Plain.size, ← Nat.add_assoc]
  | declareWith _ _ ih | assign _ _ ih | unary _ ih =>
    simp [Tree.reading, ih, size, Mark.width, Plain.size]
  | compound _ _ _ ih =>
    simp only [Tree.reading, width_append, width_cons, width_nil, width_store, ih, Mark.width, size,
      size_store, Plain.size]
    omega
  | ifThen _ _ ihp ihq | whileLoop _ _ ihp ihq | doLoop _ _ ihp ihq | binary _ _ ihp ihq
  | logical _ _ ihp ihq =>
    simp [Tree.reading, ihp, ihq, Mark.width, size, Plain.size, ← Nat.add_assoc]
  | ifElse _ _ _ ihp ihq ihr =>
    simp only [Tree.reading, width_append, width_cons, width_nil, ihp, ihq, ihr, Mark.width, size]
    omega

/-- The bodies of functions start where the reading says. -/
theorem Emits.bodies_reading (h : Emits config fn sc a t u p sc') :
    bodies a (t.reading config fn u) = p.starts a := by
  induction h with
  | empty | seqNil | retEmpty | declare => rfl
  | seqCons hp _ ihp ihq =>
    simp only [Tree.reading] at ihq
    simp only [Tree.reading, Tree.readingAll, bodies_append, hp.width_reading, ihp, ihq, starts]
  | program _ ih => rw [Tree.reading, ih]
  | block _ _ ih => rw [Tree.reading, bodies_scope, ih, starts_scope, starts_settle]
  | function _ _ _ _ ih =>
    simp only [Tree.reading, bodies_append, List.cons_append, List.nil_append, bodies,
      bodies_declares, width_declares, Nat.add_zero, guard_eq, ih, starts, starts_settle,
      List.append_nil]
  | ret hempty _ ih => simp [Tree.reading, hempty, ih, starts, bodies]
  | forEndless hp hq hr _ ihp ihq ihr =>
    simp [Tree.reading, Tree.isEmpty, hp.width_reading, hq.width_reading, ihp, ihq, ihr, settle,
      starts, bodies]
  | forLoop hempty hp hc hq _ _ ihp ihc ihq ihr =>
    simp [Tree.reading, hempty, hp.width_reading, hc.width_reading, hq.width_reading, ihp, ihc,
      ihq, ihr, settle, starts, bodies]
  | call _ _ ih =>
    simp only [Tree.reading] at ih
    simp [Tree.reading, ih, starts, bodies]
  | ident | lit | step => simp [Tree.reading, starts, bodies]
  | declareWith _ _ ih | assign _ _ ih | unary _ ih => simp [Tree.reading, ih, starts, bodies]
  | compound _ _ _ ih => simp [Tree.reading, ih, starts, bodies, size, Plain.size]
  | ifThen hp _ ihp ihq | whileLoop hp _ ihp ihq | doLoop hp _ ihp ihq | binary hp _ ihp ihq
  | logical hp _ ihp ihq =>
    simp [Tree.reading, hp.width_reading, ihp, ihq, starts, bodies, size, Plain.size,
      ← Nat.add_assoc]
  | ifElse hp hq _ ihp ihq ihr =>
    simp [Tree.reading, hp.width_reading, hq.width_reading, ihp, ihq, ihr, starts, bodies]

end

end SceneCode
