import SceneCode.Proofs.Lexical.Paths
import Mathlib.Data.List.Chain

/-!
# Rows tile the code

The rows of a listing are a walk through the code: each row starts where the one before it ends, and
the walk is over at the end of the code.  The induction over that walk stands here once, as
`Listing.walk_induction`.  Nothing is asked of the code.  Whatever its words are, every word is in
exactly one row, and only the row that ends the code can lack operands (`Listing.tiles_rows`).
-/

namespace SceneCode

namespace Row

/-- The number of operands that a row wants. -/
def Content.wanted : Content → Nat
  | .instruction op _ => op.operandCount
  | .data _ => 0

theorem Content.size_pos (c : Content) : 0 < c.size := by
  cases c with
  | instruction op operands => exact Nat.add_pos_left Nat.zero_lt_one _
  | data w => exact Nat.zero_lt_one

theorem Content.length_words (c : Content) : c.words.length = c.size := by
  cases c with
  | instruction op operands => exact Nat.add_comm ..
  | data w => rfl

/-- The word at the address is in the row. -/
def Covers (r : Row) (a : Address) : Prop :=
  r.offset ≤ a ∧ a < r.offset + r.content.size

instance (r : Row) (a : Address) : Decidable (r.Covers a) :=
  inferInstanceAs (Decidable (_ ∧ _))

end Row

namespace Listing

variable {code : List Word} {a : Nat} {c : Row.Content}

/-! ### The row at an address -/

theorem rowAt?_eq_none : rowAt? code a = none ↔ code.length ≤ a := by
  rw [rowAt?, ← List.drop_eq_nil_iff]
  cases code.drop a <;> simp

theorem rowAt?_eq_some :
    rowAt? code a = some c ↔ ∃ w rest, code.drop a = w :: rest ∧ Row.Content.start w rest = c := by
  rw [rowAt?]
  cases code.drop a <;> simp

/-- The words of a row and the words behind it. -/
theorem drop_of_rowAt? (h : rowAt? code a = some c) :
    code.drop a = c.words ++ code.drop (a + c.size) := by
  obtain ⟨w, rest, hdrop, rfl⟩ := rowAt?_eq_some.mp h
  have hbehind : code.drop (a + (Row.Content.start w rest).size) =
      rest.drop ((Row.Content.start w rest).size - 1) := by
    rw [← List.drop_drop, hdrop]
    obtain ⟨n, hn⟩ := Nat.exists_eq_add_of_lt (Row.Content.start w rest).size_pos
    rw [hn, Nat.zero_add, List.drop_succ_cons, Nat.add_sub_cancel]
  rw [hdrop, hbehind, words_start]

/-- A row ends within the code. -/
theorem end_le_of_rowAt? (h : rowAt? code a = some c) : a + c.size ≤ code.length := by
  have hlength := congrArg List.length (drop_of_rowAt? h)
  rw [List.length_append, Row.Content.length_words, List.length_drop, List.length_drop] at hlength
  have hpos := c.size_pos
  omega

/-- The operands of a row are a slice of the code. -/
theorem operands_of_rowAt? {op : Opcode} {operands : List Word}
    (h : rowAt? code a = some (.instruction op operands)) :
    operands = code.extract (a + 1) (min code.length (a + 1 + op.operandCount)) := by
  obtain ⟨w, rest, hdrop, hstart⟩ := rowAt?_eq_some.mp h
  have hrest : code.drop (a + 1) = rest := by
    rw [← List.drop_drop, hdrop, List.drop_one, List.tail_cons]
  have hlength : code.length - (a + 1) = rest.length := by
    rw [← hrest, List.length_drop]
  cases w with
  | op op' =>
    cases hstart
    rw [List.extract_eq_take_drop, hrest, ← Nat.sub_min_sub_right, hlength,
      Nat.add_sub_cancel_left, List.take_eq_take_min, Nat.min_comm]
  | _ => cases hstart

theorem size_le_of_rowAt? (h : rowAt? code a = some c) : c.size ≤ 1 + c.wanted := by
  obtain ⟨w, rest, -, rfl⟩ := rowAt?_eq_some.mp h
  cases w with
  | op op => exact Nat.add_le_add_left (List.length_take_le ..) 1
  | _ => exact Nat.le_refl _

/-- A row that lacks operands ends the code. -/
theorem end_of_isTruncated (h : rowAt? code a = some c) (htruncated : c.isTruncated = true) :
    a + c.size = code.length := by
  cases c with
  | data w => cases htruncated
  | instruction op operands =>
    have hshort : operands.length < op.operandCount := of_decide_eq_true htruncated
    have hend := end_le_of_rowAt? h
    have hslice := congrArg List.length (operands_of_rowAt? h)
    rw [List.extract_eq_take_drop, List.length_take, List.length_drop] at hslice
    simp only [Row.Content.size] at hend ⊢
    omega

/-! ### The walk -/

/-- The rows from an address on. -/
def rowsFrom (code : List Word) (a : Nat) : List Row :=
  rows a (code.drop a)

theorem rowsFrom_zero (code : List Word) : rowsFrom code 0 = rows 0 code := by
  rw [rowsFrom, List.drop_zero]

theorem rowsFrom_of_none (h : rowAt? code a = none) : rowsFrom code a = [] := by
  rw [rowsFrom, List.drop_eq_nil_of_le (rowAt?_eq_none.mp h), rows]

theorem rowsFrom_of_some (h : rowAt? code a = some c) :
    rowsFrom code a = ⟨a, c⟩ :: rowsFrom code (a + c.size) := by
  have hdrop := drop_of_rowAt? h
  obtain ⟨w, rest, hcons, rfl⟩ := rowAt?_eq_some.mp h
  have hbehind := words_start w rest
  rw [← hcons, hdrop] at hbehind
  rw [rowsFrom, rowsFrom, hcons, rows, List.append_cancel_left hbehind]

/-- What holds where no row stands, and at a row if it holds behind that row, holds everywhere. -/
theorem walk_induction (code : List Word) {motive : Nat → Prop}
    (done : ∀ a, rowAt? code a = none → motive a)
    (step : ∀ a c, rowAt? code a = some c → motive (a + c.size) → motive a) (a : Nat) :
    motive a := by
  rcases hrow : rowAt? code a with _ | c
  · exact done a hrow
  · exact step a c hrow (walk_induction code done step (a + c.size))
termination_by code.length - a
decreasing_by
  have hpos := c.size_pos
  have hend := end_le_of_rowAt? hrow
  omega

theorem rowAt?_of_mem {r : Row} (h : r ∈ rowsFrom code a) :
    rowAt? code r.offset = some r.content := by
  induction a using walk_induction code with
  | done a hrow =>
    rw [rowsFrom_of_none hrow] at h
    cases h
  | step a c hrow ih =>
    rw [rowsFrom_of_some hrow] at h
    rcases List.mem_cons.mp h with rfl | h
    · exact hrow
    · exact ih h

theorem offset_of_head? {r : Row} (h : (rowsFrom code a).head? = some r) : r.offset = a := by
  rcases hrow : rowAt? code a with _ | c
  · rw [rowsFrom_of_none hrow] at h
    cases h
  · rw [rowsFrom_of_some hrow] at h
    cases h
    rfl

/-- Each row starts where the row before it ends. -/
theorem isChain_rowsFrom (code : List Word) (a : Nat) :
    (rowsFrom code a).IsChain fun r r' =>
      r.offset < r'.offset ∧ r'.offset = r.offset + r.content.size := by
  induction a using walk_induction code with
  | done a hrow =>
    rw [rowsFrom_of_none hrow]
    exact .nil
  | step a c hrow ih =>
    rw [rowsFrom_of_some hrow, List.isChain_cons]
    refine ⟨?_, ih⟩
    intro r hr
    have hoffset := offset_of_head? hr
    exact ⟨hoffset ▸ Nat.lt_add_of_pos_right c.size_pos, hoffset⟩

/-- The last row is the one that ends where the code ends. -/
theorem getLast?_rowsFrom {r : Row} :
    (rowsFrom code a).getLast? = some r ↔
      r ∈ rowsFrom code a ∧ r.offset + r.content.size = code.length := by
  induction a using walk_induction code with
  | done a hrow => simp [rowsFrom_of_none hrow]
  | step a c hrow ih =>
    rw [rowsFrom_of_some hrow, List.mem_cons]
    have hend := end_le_of_rowAt? hrow
    rcases hnext : rowAt? code (a + c.size) with _ | c'
    · have hover := rowAt?_eq_none.mp hnext
      rw [rowsFrom_of_none hnext, List.getLast?_singleton, Option.some_inj]
      constructor
      · rintro rfl
        exact ⟨Or.inl rfl, Nat.le_antisymm hend hover⟩
      · rintro ⟨rfl | hmem, -⟩
        · rfl
        · cases hmem
    · have hne : rowsFrom code (a + c.size) ≠ [] := by
        rw [rowsFrom_of_some hnext]
        exact List.cons_ne_nil _ _
      rw [List.getLast?_cons_of_ne_nil hne, ih]
      constructor
      · exact fun ⟨hmem, hlast⟩ => ⟨Or.inr hmem, hlast⟩
      · rintro ⟨rfl | hmem, hlast⟩
        · have hbehind := Nat.lt_of_lt_of_le (Nat.lt_add_of_pos_right c'.size_pos)
            (end_le_of_rowAt? hnext)
          exact absurd hlast (Nat.ne_of_lt hbehind)
        · exact ⟨hmem, hlast⟩

/-- Every word from an address on is in one row. -/
theorem covers_once {b : Nat} (hle : a ≤ b) (hlt : b < code.length) :
    ∃ r, (rowsFrom code a).filter (·.Covers b) = [r] ∧
      r.content.words[b - r.offset]? = code[b]? := by
  induction a using walk_induction code with
  | done a hrow => exact absurd (rowAt?_eq_none.mp hrow) (by omega)
  | step a c hrow ih =>
    rw [rowsFrom_of_some hrow]
    by_cases hin : b < a + c.size
    · -- the rows behind start after the word
      have hcovers : Row.Covers ⟨a, c⟩ b := ⟨hle, hin⟩
      have hbehind : (rowsFrom code (a + c.size)).filter (·.Covers b) = [] := by
        apply List.filter_eq_nil_iff.mpr
        intro r hr hcovers
        exact Nat.not_lt.mpr (le_offset hr) (Nat.lt_of_le_of_lt (of_decide_eq_true hcovers).1 hin)
      refine ⟨⟨a, c⟩, ?_, ?_⟩
      · rw [List.filter_cons, if_pos (decide_eq_true hcovers), hbehind]
      · have hwithin : b - a < c.words.length := by
          rw [c.length_words]
          omega
        calc c.words[b - a]?
            = (code.drop a)[b - a]? := by
              rw [drop_of_rowAt? hrow, List.getElem?_append_left hwithin]
          _ = code[b]? := by rw [List.getElem?_drop, Nat.add_sub_cancel' hle]
    · have hnot : ¬Row.Covers ⟨a, c⟩ b := fun h => hin h.2
      rw [List.filter_cons_of_neg (by simpa using hnot)]
      exact ih (Nat.not_lt.mp hin)

/-- At the offset of a row there is no other row. -/
theorem filter_offset {r : Row} (h : r ∈ rowsFrom code a) :
    (rowsFrom code a).filter (·.offset = r.offset) = [r] := by
  induction a using walk_induction code with
  | done a hrow =>
    rw [rowsFrom_of_none hrow] at h
    cases h
  | step a c hrow ih =>
    have hbehind {s : Row} (hs : s ∈ rowsFrom code (a + c.size)) : a < s.offset :=
      Nat.lt_of_lt_of_le (Nat.lt_add_of_pos_right c.size_pos) (le_offset hs)
    rw [rowsFrom_of_some hrow] at h ⊢
    rcases List.mem_cons.mp h with rfl | h
    · have hnone : (rowsFrom code (a + c.size)).filter (·.offset = a) = [] := by
        apply List.filter_eq_nil_iff.mpr
        intro s hs heq
        exact Nat.ne_of_gt (hbehind hs) (of_decide_eq_true heq)
      rw [List.filter_cons, if_pos (decide_eq_true rfl), hnone]
    · have hnot : ¬decide (a = r.offset) = true := by
        simpa using Nat.ne_of_lt (hbehind h)
      rw [List.filter_cons, if_neg hnot, ih h]

/-! ### Tilings -/

/-- The rows tile the code: they start at its first word, each where the one before it ends, and end
    with its last word, behind which no row stands.  Each row is the row at its offset and takes its
    operands out of the code, every word is in one row, and only the last row can lack operands. -/
structure Tiles (code : List Word) (shown : List Row) : Prop where
  first : ∀ r ∈ shown.head?, r.offset = 0
  next : shown.IsChain fun r r' => r.offset < r'.offset ∧ r'.offset = r.offset + r.content.size
  last : ∀ r ∈ shown.getLast?, r.offset + r.content.size = code.length
  stops : rowAt? code code.length = none
  stands : ∀ r ∈ shown, rowAt? code r.offset = some r.content
  size : ∀ r ∈ shown, 1 ≤ r.content.size ∧ r.content.size ≤ 1 + r.content.wanted
  slice : ∀ r ∈ shown, ∀ op operands, r.content = .instruction op operands →
    let stop := min code.length (r.offset + 1 + op.operandCount)
    r.offset + 1 ≤ stop ∧ stop ≤ code.length ∧ operands = code.extract (r.offset + 1) stop
  once : ∀ a < code.length, ∃ r, shown.filter (·.Covers a) = [r] ∧
    r.content.words[a - r.offset]? = code[a]?
  truncated : ∀ r ∈ shown, r.content.isTruncated = true → shown.getLast? = some r

/-- Whatever the words are, the rows tile them. -/
theorem tiles_rows (code : List Word) : Tiles code (rows 0 code) := by
  rw [← rowsFrom_zero]
  exact {
    first := fun r hr => offset_of_head? hr
    next := isChain_rowsFrom code 0
    last := fun r hr => (getLast?_rowsFrom.mp hr).2
    stops := rowAt?_eq_none.mpr (Nat.le_refl _)
    stands := fun r hr => rowAt?_of_mem hr
    size := fun r hr => ⟨r.content.size_pos, size_le_of_rowAt? (rowAt?_of_mem hr)⟩
    slice := by
      intro r hr op operands hcontent
      have hrow := rowAt?_of_mem hr
      have hend := end_le_of_rowAt? hrow
      rw [hcontent] at hrow hend
      have hfirst : r.offset + 1 ≤ code.length :=
        Nat.le_trans (Nat.add_le_add_left (Row.Content.size_pos _) _) hend
      exact ⟨Nat.le_min.mpr ⟨hfirst, Nat.le_add_right ..⟩, Nat.min_le_left ..,
        operands_of_rowAt? hrow⟩
    once := fun a ha => covers_once a.zero_le ha
    truncated := fun r hr htruncated =>
      getLast?_rowsFrom.mpr ⟨hr, end_of_isTruncated (rowAt?_of_mem hr) htruncated⟩ }

end Listing

end SceneCode
