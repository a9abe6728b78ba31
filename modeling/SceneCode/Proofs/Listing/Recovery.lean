import SceneCode.Proofs.Listing.Words

/-!
# Programs recovered from listings

The lines of a listing can be read back, so two programs with the same listing have the same lines
(`Listing.read_text`).  The rows among the lines hold every word of the code, and the marks hold the
entry points that are addresses of rows.  So a listing determines the program, as long as no word is
a double (`listing_determines_program`).

Nothing is asked of the code but that.  A text in it may hold line breaks, blanks and quotes, or
look like a line of its own, operations may stand where operands should, and the last one may lack
some.
-/

namespace SceneCode

open Text

/-! ### Operands -/

namespace Row

/-- What stands behind the first token of a row: the operands, and a note if some are missing. -/
def operandText (wanted : Nat) (operands : List Word) : List Char :=
  operands.flatMap (fun w => ' ' :: w.text.toList) ++
    if operands.length < wanted then " <truncated>".toList else []

theorem operandText_cons (wanted : Nat) (w : Word) (operands : List Word) :
    operandText (wanted + 1) (w :: operands) =
      ' ' :: (w.text.toList ++ operandText wanted operands) := by
  simp only [operandText, List.flatMap_cons, List.length_cons, Nat.add_lt_add_iff_right,
    List.cons_append, List.append_assoc]

theorem divided_operandText (wanted : Nat) (operands : List Word) :
    Divided (operandText wanted operands) := by
  intro c hc
  cases operands with
  | nil =>
    rw [operandText, List.flatMap_nil, List.nil_append] at hc
    split at hc
    · exact (Option.some.inj hc).symm
    · cases hc
  | cons w operands => exact (Option.some.inj hc).symm

/-- Read operands up to the end of a line. -/
def operands? : (wanted : Nat) → List Char → Option (List Word)
  | 0, [] => some []
  | 0, _ :: _ => none
  | _ + 1, [] => none
  -- a blank stands before each operand and before the note
  | n + 1, _ :: rest =>
    match Word.read? rest with
    | some (w, behind) => (operands? n behind).map (w :: ·)
    | none => if rest = "<truncated>".toList then some [] else none

theorem operands?_operandText {wanted : Nat} {operands : List Word}
    (hlength : operands.length ≤ wanted) (hfloat : ∀ x, Word.float x ∉ operands) :
    operands? wanted (operandText wanted operands) = some operands := by
  induction operands generalizing wanted with
  | nil =>
    cases wanted with
    | zero => rfl
    | succ n => rfl
  | cons w operands ih =>
    cases wanted with
    | zero => cases hlength
    | succ n =>
      have hw : ∀ x, w ≠ .float x := fun x hx => hfloat x (hx ▸ List.mem_cons_self)
      have hread := Word.read?_text hw (divided_operandText n operands)
      have hrest := ih (Nat.le_of_succ_le_succ hlength)
        fun x hx => hfloat x (List.mem_cons_of_mem _ hx)
      rw [operandText_cons, operands?, hread]
      simp only [hrest, Option.map_some]

/-! ### Rows -/

namespace Content

/-- Read a row without its offset. -/
def read? (cs : List Char) : Option Content :=
  let token := cs.takeWhile (· ≠ ' ')
  let behind := cs.dropWhile (· ≠ ' ')
  if token = ".word".toList then
    match operands? 1 behind with
    | some [w] => some (.data w)
    | _ => none
  else
    (Opcode.ofMnemonic? token).bind fun op =>
      (operands? op.operandCount behind).map (.instruction op)

theorem toList_data (w : Word) :
    (Content.data w).text.toList = ".word".toList ++ operandText 1 [w] := by
  have hword : ".word ".toList = ".word".toList ++ [' '] := by decide
  simp [text, operandText, hword]

theorem toList_instruction (op : Opcode) (operands : List Word) :
    (Content.instruction op operands).text.toList =
      op.mnemonic.toList ++ operandText op.operandCount operands := by
  have hblank (w : Word) : (" " ++ w.text).toList = ' ' :: w.text.toList := String.toList_append
  have hnote : (if operands.length < op.operandCount then " <truncated>" else "").toList =
      if operands.length < op.operandCount then " <truncated>".toList else [] := by
    split <;> rfl
  rw [text_eq]
  simp only [shown, isTruncated, operandText, decide_eq_true_eq, String.toList_append, hnote,
    String.toList_join, List.flatMap_cons, List.flatMap_map, hblank, List.append_assoc]

theorem mnemonic_ne_word (op : Opcode) : op.mnemonic.toList ≠ ".word".toList := by
  cases op <;> decide

theorem read?_text {c : Content} (hsize : c.size ≤ 1 + c.wanted)
    (hfloat : ∀ x, Word.float x ∉ c.words) : read? c.text.toList = some c := by
  cases c with
  | data w =>
    have htoken : IsToken ".word".toList := by decide
    have hbehind := divided_operandText 1 [w]
    have hoperand : operands? 1 (operandText 1 [w]) = some [w] :=
      operands?_operandText (Nat.le_refl 1) hfloat
    rw [toList_data, read?]
    simp only [takeWhile_token htoken hbehind, dropWhile_token htoken hbehind, hoperand, if_true]
  | instruction op operands =>
    have htoken := Word.isToken_mnemonic op
    have hbehind := divided_operandText op.operandCount operands
    have hlength : operands.length ≤ op.operandCount := Nat.le_of_add_le_add_left hsize
    have hoperands : ∀ x, Word.float x ∉ operands :=
      fun x hx => hfloat x (List.mem_cons_of_mem _ hx)
    rw [toList_instruction, read?]
    simp only [takeWhile_token htoken hbehind, dropWhile_token htoken hbehind]
    rw [if_neg (mnemonic_ne_word op), Opcode.ofMnemonic?_mnemonic, Option.bind_some,
      operands?_operandText hlength hoperands, Option.map_some]

end Content

end Row

/-! ### Lines -/

namespace Listing

variable {p q : Program}

/-- The line with the given offset and the given text behind it. -/
def Line.ofShown? (offset : Address) (shown : List Char) : Option Line :=
  match Row.Content.read? shown with
  | some content => some (.row ⟨offset, content⟩)
  | none =>
    (["init", "render"].find? fun name => ("<" ++ name ++ ">").toList = shown).map (.entry · offset)

/-- Read a line: an offset, two blanks, and a row or the mark of an entry point. -/
def Line.read? (cs : List Char) : Option Line :=
  ofShown? (spelled 10 (cs.takeWhile (· ≠ ' '))) ((cs.dropWhile (· ≠ ' ')).drop 2)

theorem read?_offset (a : Address) (s : String) :
    Line.read? (paddedDecimal 4 a ++ "  " ++ s).toList = Line.ofShown? a s.toList := by
  have htoken := isToken_paddedDecimal 4 a
  have hdivided : Divided (' ' :: ' ' :: s.toList) := fun c hc => (Option.some.inj hc).symm
  have htext : (paddedDecimal 4 a ++ "  " ++ s).toList =
      (paddedDecimal 4 a).toList ++ ' ' :: ' ' :: s.toList := by
    rw [String.toList_append, String.toList_append, List.append_assoc]
    rfl
  rw [htext, Line.read?, takeWhile_token htoken hdivided, spelled_paddedDecimal,
    dropWhile_token htoken hdivided]
  rfl

theorem read?_entry {name : String} (hname : name = "init" ∨ name = "render") (a : Address) :
    Line.read? (Line.entry name a).text.toList = some (.entry name a) := by
  rw [Line.text_entry, read?_offset]
  rcases hname with rfl | rfl <;> rfl

theorem read?_row {r : Row} (hrow : rowAt? p.code r.offset = some r.content)
    (hp : ∀ x, Word.float x ∉ p.code) : Line.read? (Line.row r).text.toList = some (.row r) := by
  have hfloat : ∀ x, Word.float x ∉ r.content.words := by
    intro x hx
    apply hp x
    apply List.mem_of_mem_drop
    rw [drop_of_rowAt? hrow]
    exact List.mem_append_left _ hx
  have hread := Row.Content.read?_text (size_le_of_rowAt? hrow) hfloat
  have htext : (Line.row r).text = paddedDecimal 4 r.offset ++ "  " ++ r.content.text := rfl
  rw [htext, read?_offset, Line.ofShown?, hread]

/-- Read the lines of a listing, as far as they can be read. -/
def read (s : String) : List (Option Line) :=
  (s.toList.splitOn '\n').dropLast.map Line.read?

/-- **The lines of a listing are read back.** -/
theorem read_text (hp : ∀ x, Word.float x ∉ p.code) : read (text p) = (lines p).map some := by
  rw [read, splitOn_text, List.dropLast_concat, List.map_map]
  apply List.map_congr_left
  intro l hl
  rw [Function.comp_apply]
  obtain ⟨r, hr, hline⟩ := List.mem_flatMap.mp hl
  rw [linesOf_eq, List.mem_append, List.mem_append, mem_mark, mem_mark, List.mem_singleton] at hline
  rcases hline with (⟨-, rfl⟩ | ⟨-, rfl⟩) | rfl
  · exact read?_entry (Or.inl rfl) r.offset
  · exact read?_entry (Or.inr rfl) r.offset
  · exact read?_row (rowAt?_of_mem (rowsFrom_zero p.code ▸ hr)) hp

/-! ### Programs with the same lines -/

/-- The rows hold all words, in their order. -/
theorem words_rows (a : Address) (code : List Word) :
    (rows a code).flatMap (·.content.words) = code := by
  fun_induction rows a code with
  | case1 a => rfl
  | case2 a w rest content ih => rw [List.flatMap_cons, ih, words_start]

theorem code_eq_of_lines_eq (h : lines p = lines q) : p.code = q.code := by
  have hrows : rows 0 p.code = rows 0 q.code := by rw [← row?_lines, h, row?_lines]
  rw [← words_rows 0 p.code, hrows, words_rows]

/-- The marks of a name tell which entry point is marked. -/
theorem Marks.entry_eq {name : String} {entry other : Option Address} {ls ms : List Line}
    (h : Marks name entry ls) (hother : Marks name other ms) (hlines : ls = ms) :
    entry = other := by
  subst hlines
  cases entry with
  | none =>
    cases other with
    | none => rfl
    | some b => cases h.symm.trans hother.1
  | some a =>
    cases other with
    | none => cases hother.symm.trans h.1
    | some b =>
      cases h.1.symm.trans hother.1
      rfl

/-- The address is that of a row, if there is an address at all. -/
def OnRow (p : Program) (entry : Option Address) : Prop :=
  ∀ a, entry = some a → ∃ r ∈ rows 0 p.code, r.offset = a

end Listing

/-- **A listing determines the program.**  Two programs without doubles that are listed alike have
    the same code, and the same entry points where each is missing or the address of a row. -/
theorem listing_determines_program {p q : Program} (hp : ∀ x, Word.float x ∉ p.code)
    (hq : ∀ x, Word.float x ∉ q.code) (htext : Listing.text p = Listing.text q) :
    p.code = q.code ∧
      (Listing.OnRow p p.init → Listing.OnRow q q.init → p.init = q.init) ∧
      (Listing.OnRow p p.render → Listing.OnRow q q.render → p.render = q.render) := by
  have hlines : Listing.lines p = Listing.lines q := by
    apply (List.map_inj_right fun _ _ => Option.some.inj).mp
    rw [← Listing.read_text hp, htext, Listing.read_text hq]
  refine ⟨Listing.code_eq_of_lines_eq hlines, ?_, ?_⟩
  · intro hpinit hqinit
    exact (Listing.marks_init hpinit).entry_eq (Listing.marks_init hqinit) hlines
  · intro hprender hqrender
    exact (Listing.marks_render hprender).entry_eq (Listing.marks_render hqrender) hlines

/-- A text that looks like a line, an operation as an operand, and an operation that lacks one. -/
def Program.lookalike : Program where
  code := [.str "\n0001  RET", .op .push, .op .push, .op .load, .int (-1)]
  init := some 1
  render := none

/-- The same code with an entry point inside of a row. -/
def Program.lookalikeInside : Program :=
  { lookalike with render := some 2 }

theorem listing_determines_lookalike :
    (∀ x, Word.float x ∉ Program.lookalike.code) ∧
      Listing.text .lookalike = Listing.text .lookalikeInside ∧
      Listing.OnRow .lookalike (some 1) ∧ ¬Listing.OnRow .lookalikeInside (some 2) ∧
      Program.lookalike.code = Program.lookalikeInside.code ∧
      Program.lookalike.init = Program.lookalikeInside.init := by
  have hfloat : ∀ x, Word.float x ∉ Program.lookalike.code := by simp [Program.lookalike]
  have hcode : Program.lookalikeInside.code = Program.lookalike.code := rfl
  have hrows : Listing.rows 0 Program.lookalike.code =
      [⟨0, .data (.str "\n0001  RET")⟩, ⟨1, .instruction .push [.op .push]⟩,
        ⟨3, .instruction .load [.int (-1)]⟩] := by
    simp [Program.lookalike, Listing.rows, Row.Content.start, Row.Content.size,
      Opcode.operandCount]
  have htext : Listing.text .lookalike = Listing.text .lookalikeInside := by
    rw [Listing.text, Listing.text, Listing.lines, Listing.lines, hcode, hrows]
    rfl
  have hrow : Listing.OnRow .lookalike (some 1) := by
    rintro a ⟨⟩
    exact ⟨_, hrows ▸ List.mem_cons_of_mem _ List.mem_cons_self, rfl⟩
  have hinside : ¬Listing.OnRow .lookalikeInside (some 2) := by
    intro h
    simpa [hcode, hrows] using h 2 rfl
  have hsame := listing_determines_program hfloat (hcode ▸ hfloat) htext
  exact ⟨hfloat, htext, hrow, hinside, hsame.1, hsame.2.1 hrow hrow⟩

end SceneCode
