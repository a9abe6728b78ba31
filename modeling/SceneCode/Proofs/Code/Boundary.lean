import SceneCode.Proofs.Code.Segment

/-!
# Boundaries

A boundary of some code is an address where control can go: the address of an instruction, or the
end of the code.  The end of one stretch of code is the start of the next, so a boundary of a part
is a boundary of the whole, and every jump of a segment leads to a boundary of the segment.
-/

namespace SceneCode

namespace Instruction

/-- The address of an instruction, or the end of the code. -/
def Boundary (a : Address) (is : List Instruction) (b : Address) : Prop :=
  (∃ i, (b, i) ∈ located a is) ∨ b = a + sizes is

namespace Boundary

variable {a b : Nat} {is js : List Instruction}

theorem start (a : Nat) (is : List Instruction) : Boundary a is a := by
  cases is with
  | nil => exact Or.inr rfl
  | cons i is => exact Or.inl ⟨i, List.mem_cons_self ..⟩

theorem finish (a : Nat) (is : List Instruction) : Boundary a is (a + sizes is) :=
  Or.inr rfl

theorem append_right (h : Boundary (a + sizes is) js b) : Boundary a (is ++ js) b := by
  rcases h with ⟨i, hi⟩ | rfl
  · refine Or.inl ⟨i, ?_⟩
    rw [located_append]
    exact List.mem_append_right _ hi
  · exact Or.inr (by rw [sizes_append, Nat.add_assoc])

theorem append_left (h : Boundary a is b) : Boundary a (is ++ js) b := by
  rcases h with ⟨i, hi⟩ | rfl
  · refine Or.inl ⟨i, ?_⟩
    rw [located_append]
    exact List.mem_append_left _ hi
  · exact append_right (start _ js)

theorem cons {i : Instruction} (h : Boundary (a + i.size) is b) : Boundary a (i :: is) b := by
  have hsingle : Boundary (a + sizes [i]) is b := h
  exact append_right hsingle

theorem bounds (h : Boundary a is b) : a ≤ b ∧ b ≤ a + sizes is := by
  rcases h with ⟨i, hi⟩ | rfl
  · have := bounds_of_mem_located hi
    omega
  · omega

/-- Behind an instruction there is a boundary. -/
theorem behind {i : Instruction} (h : (b, i) ∈ located a is) : Boundary a is (b + i.size) := by
  induction is generalizing a with
  | nil => cases h
  | cons j is ih =>
    rcases List.mem_cons.mp h with heq | hmem
    · cases heq
      exact cons (start _ _)
    · exact cons (ih hmem)

end Boundary

end Instruction

namespace Segment

open Instruction

/-- Every jump of a segment leads to a boundary of the segment. -/
theorem boundary_of_jump {p : Segment} {a b target : Nat} {kind : Jump}
    (h : (b, .jump kind target) ∈ located a (p.code a)) : Boundary a (p.code a) target := by
  induction p generalizing a with
  | nothing => cases h
  | one i =>
    rcases List.mem_cons.mp h with heq | hmem
    · cases heq
    · cases hmem
  | seq p q ihp ihq =>
    simp only [code, located_append, List.mem_append, sizes_code] at h
    rcases h with h | h
    · exact (ihp h).append_left
    · apply Boundary.append_right
      rw [sizes_code]
      exact ihq h
  | skip k body ih =>
    rcases List.mem_cons.mp h with heq | hmem
    · cases heq
      refine Boundary.cons (Or.inr ?_)
      rw [sizes_code]
      rfl
    · exact Boundary.cons (ih hmem)
  | choice body other ihb iho =>
    have hsecond : Boundary (a + 2 + body.size) (.jump .always
        (a + 2 + body.size + 2 + other.size) :: other.code (a + 2 + body.size + 2)) target →
        Boundary a ((choice body other).code a) target := by
      intro hboundary
      refine Boundary.cons (Boundary.append_right ?_)
      rw [sizes_code]
      exact hboundary
    simp only [code, located, located_append, List.mem_cons, List.mem_append, sizes_code,
      Prod.mk.injEq, Instruction.size, Instruction.jump.injEq] at h
    rcases h with ⟨-, -, rfl⟩ | h | ⟨-, -, rfl⟩ | h
    · exact hsecond (Boundary.cons (Boundary.start _ _))
    · exact Boundary.cons (ihb h).append_left
    · refine hsecond (Boundary.cons (Or.inr ?_))
      rw [sizes_code]
      rfl
    · exact hsecond (Boundary.cons (iho h))
  | loop cond body ihc ihb =>
    simp only [code, located, located_append, List.mem_cons, List.mem_append, sizes_code,
      Prod.mk.injEq, Instruction.size, Instruction.jump.injEq, List.not_mem_nil, or_false] at h
    rcases h with h | ⟨-, -, rfl⟩ | h | ⟨-, -, rfl⟩
    · exact (ihc h).append_left
    · apply Or.inr
      simp only [sizes_code, size, Nat.add_assoc]
    · apply Boundary.append_right
      rw [sizes_code]
      exact Boundary.cons (ihb h).append_left
    · exact Boundary.start _ _
  | rounds body back ih =>
    rw [code, located_append] at h
    rcases List.mem_append.mp h with h | h
    · exact (ih h).append_left
    · rcases List.mem_cons.mp h with heq | hmem
      · cases heq
        exact Boundary.start _ _
      · cases hmem
  | function guarded body ih =>
    have hbody : (b, .jump kind target) ∈ located (a + guardSize guarded)
        (body.code (a + guardSize guarded)) → Boundary a ((function guarded body).code a) target := by
      intro hmem
      apply Boundary.append_right
      rw [sizes_guardCode]
      exact (ih hmem).append_left
    simp only [code, located_append, List.mem_append, sizes_guardCode, located, List.mem_cons,
      Prod.mk.injEq, reduceCtorEq, and_false, List.not_mem_nil, or_false] at h
    rcases h with h | h
    · cases guarded with
      | false => cases h
      | true =>
        rcases List.mem_cons.mp h with heq | hmem
        · cases heq
          apply Or.inr
          simp only [sizes_code, size, Nat.add_assoc]
        · cases hmem
    · exact hbody h

end Segment

end SceneCode
