import SceneCode.Proofs.Listing.Tiling

/-!
# Lines of listings

A listing prints one line for each row of the code, and a line for an entry point in front of the
row at its address.  No line holds a line break, not even when it shows a text that does, so the
printed text falls apart into these lines again (`Listing.splitOn_text`).  Of any code the rows that
are printed tile the code.  In a compiled program every row is a whole instruction, and the address
of an entry point is that of a row, so the entry point is marked exactly once.
-/

namespace SceneCode

/-! ### Texts without line breaks -/

namespace Text

def OneLine (cs : List Char) : Prop :=
  '\n' ∉ cs

instance (cs : List Char) : Decidable (OneLine cs) :=
  inferInstanceAs (Decidable (_ ∉ cs))

theorem oneLine_cons {c : Char} {cs : List Char} : OneLine (c :: cs) ↔ c ≠ '\n' ∧ OneLine cs := by
  rw [OneLine, OneLine, List.mem_cons, not_or, ne_comm]

theorem oneLine_append {cs ds : List Char} : OneLine (cs ++ ds) ↔ OneLine cs ∧ OneLine ds := by
  rw [OneLine, OneLine, OneLine, List.mem_append, not_or]

theorem oneLine_flatMap {α : Type} {xs : List α} {f : α → List Char} :
    OneLine (xs.flatMap f) ↔ ∀ x ∈ xs, OneLine (f x) := by
  simp [OneLine]

theorem oneLine_replicate {c : Char} (hc : c ≠ '\n') (n : Nat) : OneLine (.replicate n c) :=
  fun hmem => hc (List.eq_of_mem_replicate hmem).symm

theorem OneLine.sublist {cs ds : List Char} (h : OneLine ds) (hsub : cs.Sublist ds) : OneLine cs :=
  fun hmem => h (hsub.mem hmem)

/-! ### Numbers and quoted texts -/

theorem exists_digitChar {base n : Nat} {c : Char} (hbase : 1 < base)
    (h : c ∈ Nat.toDigits base n) : ∃ d < base, Nat.digitChar d = c := by
  induction n using Nat.strong_induction_on with
  | _ n ih =>
    rw [Nat.toDigits_eq_if hbase] at h
    split at h
    · next hlt => exact ⟨n, hlt, (List.mem_singleton.mp h).symm⟩
    · next hge =>
      rcases List.mem_append.mp h with h | h
      · exact ih _ (Nat.div_lt_self (by omega) hbase) h
      · exact ⟨n % base, Nat.mod_lt _ (by omega), (List.mem_singleton.mp h).symm⟩

theorem hexDigitValue?_digitChar : ∀ d < 16, hexDigitValue? (Nat.digitChar d) = some d := by
  decide

/-- A character that is no digit is in no number. -/
theorem not_mem_toDigits {base : Nat} (hbase : 1 < base) (hle : base ≤ 16) {c : Char}
    (hc : hexDigitValue? c = none) (n : Nat) : c ∉ Nat.toDigits base n := by
  intro hmem
  obtain ⟨d, hd, rfl⟩ := exists_digitChar hbase hmem
  rw [hexDigitValue?_digitChar d (Nat.lt_of_lt_of_le hd hle)] at hc
  contradiction

theorem oneLine_digits (n : Nat) : OneLine (Nat.toDigits 10 n) :=
  not_mem_toDigits (by decide) (by decide) (by decide) n

theorem oneLine_paddedDecimal (width n : Nat) : OneLine (paddedDecimal width n).toList := by
  rw [paddedDecimal, String.toList_ofList, List.leftpad, oneLine_append]
  exact ⟨oneLine_replicate (by decide) _, oneLine_digits n⟩

theorem oneLine_signedDecimal (n : Int) : OneLine (signedDecimal n).toList := by
  have hdecimal : OneLine (decimal n.natAbs).toList := by
    rw [decimal, String.toList_ofList]
    exact oneLine_digits n.natAbs
  unfold signedDecimal
  split
  · rw [String.toList_append, oneLine_append]
    exact ⟨by decide, hdecimal⟩
  · exact hdecimal

/-- A line break in a text is written as an escape. -/
theorem oneLine_quoted (s : String) : OneLine (quoted s).toList := by
  have hchar (c : Char) : OneLine (quotedChar c) := by
    unfold quotedChar
    split
    case h_7 hne _ _ _ =>
      split
      · exact oneLine_cons.mpr ⟨hne, List.not_mem_nil⟩
      · have hdigits : OneLine (Nat.toDigits 16 c.toNat) :=
          not_mem_toDigits (by decide) (by decide) (by decide) c.toNat
        simp only [oneLine_cons, oneLine_append]
        exact ⟨by decide, by decide, by decide, hdigits, by decide⟩
    all_goals decide
  rw [quoted, String.toList_ofList, oneLine_append, oneLine_cons, oneLine_flatMap]
  exact ⟨⟨by decide, fun c _ => hchar c⟩, by decide⟩

end Text

namespace Binary64.Layout

open Text

theorem oneLine_plain {digits : List Char} (h : OneLine digits) (exponent : Int) :
    OneLine (plain digits exponent) := by
  unfold plain
  split
  · simp only [List.cons_append, oneLine_cons, oneLine_append]
    exact ⟨by decide, by decide, oneLine_replicate (by decide) _, h⟩
  · simp only [List.rightpad, oneLine_append, oneLine_cons]
    refine ⟨⟨h.sublist (List.take_sublist ..), oneLine_replicate (by decide) _⟩, by decide, ?_⟩
    split
    · decide
    · exact h.sublist (List.drop_sublist ..)

theorem oneLine_scientific {sign : String} {digits : List Char} (hsign : OneLine sign.toList)
    (h : OneLine digits) (exponent : Int) : OneLine (scientific sign digits exponent) := by
  have hpoint : OneLine (if (digits.drop 1).isEmpty then [] else '.' :: digits.drop 1) := by
    split
    · decide
    · exact oneLine_cons.mpr ⟨by decide, h.sublist (List.drop_sublist ..)⟩
  have hmark : OneLine (if exponent < 0 then "-" else sign).toList := by
    split
    · decide
    · exact hsign
  simp only [scientific, oneLine_append, oneLine_cons]
  exact ⟨⟨⟨h.sublist (List.take_sublist ..), hpoint⟩, by decide, hmark⟩, oneLine_digits _⟩

end Binary64.Layout

namespace Word

open Text

theorem oneLine_render (x : Binary64) : OneLine (floatLayout.render x).toList := by
  have hbody : OneLine (if x.isZero then ['0', '.', '0']
      else floatLayout.magnitude (x.shortest floatLayout.tie)) := by
    split
    · decide
    · unfold Binary64.Layout.magnitude
      simp only
      split
      · exact Binary64.Layout.oneLine_plain (oneLine_digits _) _
      · exact Binary64.Layout.oneLine_scientific (by decide) (oneLine_digits _) _
  unfold Binary64.Layout.render
  split
  · rw [String.toList_ofList]
    split
    · exact oneLine_cons.mpr ⟨by decide, hbody⟩
    · exact hbody
  · split
    · decide
    · split <;> decide

theorem oneLine_mnemonic (op : Opcode) : OneLine op.mnemonic.toList := by
  cases op <;> decide

theorem oneLine_text (w : Word) : OneLine w.text.toList := by
  cases w with
  | op o => exact oneLine_mnemonic o
  | int n => exact oneLine_signedDecimal n
  | float x => exact oneLine_render x
  | bool b => cases b <;> decide
  | str s => exact oneLine_quoted s
  | addr a =>
    rw [text, String.toList_append, oneLine_append]
    exact ⟨by decide, oneLine_paddedDecimal 4 a⟩

end Word

/-! ### The lines of a listing -/

/-- The text of a row without the note that operands are missing. -/
def Row.Content.shown : Content → String
  | .data w => ".word " ++ w.text
  | .instruction op operands =>
    String.join (op.mnemonic :: operands.map fun w => " " ++ w.text)

theorem Row.Content.text_eq (c : Content) :
    c.text = c.shown ++ if c.isTruncated then " <truncated>" else "" := by
  cases c with
  | data w => simp [text, shown, isTruncated]
  | instruction op operands =>
    simp only [text, shown, isTruncated, decide_eq_true_eq]
    split
    · rfl
    · exact String.append_empty.symm

namespace Listing

open Text

/-- The row that a line shows. -/
def Line.row? : Line → Option Row
  | .row r => some r
  | .entry _ _ => none

/-- The entry point that a line marks. -/
def Line.name? : Line → Option String
  | .row _ => none
  | .entry name _ => some name

theorem oneLine_content (c : Row.Content) : OneLine c.text.toList := by
  have hshown : OneLine c.shown.toList := by
    cases c with
    | data w =>
      rw [Row.Content.shown, String.toList_append, oneLine_append]
      exact ⟨by decide, w.oneLine_text⟩
    | instruction op operands =>
      rw [Row.Content.shown, String.toList_join, oneLine_flatMap]
      intro s hs
      rcases List.mem_cons.mp hs with rfl | hs
      · exact Word.oneLine_mnemonic op
      · obtain ⟨w, -, rfl⟩ := List.mem_map.mp hs
        rw [String.toList_append, oneLine_append]
        exact ⟨by decide, w.oneLine_text⟩
  rw [c.text_eq, String.toList_append, oneLine_append]
  refine ⟨hshown, ?_⟩
  split <;> decide

/-- The mark of an entry point at a row. -/
def mark (name : String) (entry : Option Address) (r : Row) : List Line :=
  if entry = some r.offset then [.entry name r.offset] else []

theorem linesOf_eq (p : Program) (r : Row) :
    linesOf p r = mark "init" p.init r ++ mark "render" p.render r ++ [.row r] :=
  rfl

theorem mem_mark {name : String} {entry : Option Address} {r : Row} {l : Line} :
    l ∈ mark name entry r ↔ entry = some r.offset ∧ l = .entry name r.offset := by
  unfold mark
  split
  · next h => simp [h]
  · next h => simp [h]

theorem Line.text_entry (name : String) (a : Address) :
    (Line.entry name a).text = paddedDecimal 4 a ++ "  " ++ ("<" ++ name ++ ">") := by
  have hopen : "  <" = "  " ++ "<" := by decide
  simp only [Line.text, hopen, String.append_assoc]

theorem oneLine_of_mem_lines {p : Program} {l : Line} (h : l ∈ lines p) :
    OneLine l.text.toList := by
  have hentry {name : String} (hname : OneLine name.toList) (a : Address) :
      OneLine (Line.entry name a).text.toList := by
    simp only [Line.text, String.toList_append, oneLine_append]
    exact ⟨⟨⟨oneLine_paddedDecimal 4 a, by decide⟩, hname⟩, by decide⟩
  obtain ⟨r, -, hl⟩ := List.mem_flatMap.mp h
  rw [linesOf_eq, List.mem_append, List.mem_append, mem_mark, mem_mark, List.mem_singleton] at hl
  rcases hl with (⟨-, rfl⟩ | ⟨-, rfl⟩) | rfl
  · exact hentry (by decide) r.offset
  · exact hentry (by decide) r.offset
  · simp only [Line.text, String.toList_append, oneLine_append]
    exact ⟨⟨oneLine_paddedDecimal 4 r.offset, by decide⟩, oneLine_content r.content⟩

/-- Lines that are ended by line breaks come back when their text is split. -/
theorem splitOn_ended {ls : List (List Char)} (h : ∀ l ∈ ls, OneLine l) :
    (ls.flatMap (· ++ ['\n'])).splitOn '\n' = ls ++ [[]] := by
  induction ls with
  | nil => exact List.splitOn_nil _
  | cons l ls ih =>
    have hl : ∀ c ∈ l, (c == '\n') = false := by
      intro c hc
      rw [beq_eq_false_iff_ne]
      rintro rfl
      exact h l List.mem_cons_self hc
    have hsplit := List.splitOnP_append_cons_of_forall_mem hl '\n' (beq_self_eq_true _)
      (ls.flatMap (· ++ ['\n']))
    rw [List.flatMap_cons, List.append_assoc, List.singleton_append, List.cons_append,
      ← ih fun l hl => h l (List.mem_cons_of_mem _ hl)]
    exact hsplit

theorem splitOn_text (p : Program) :
    (text p).toList.splitOn '\n' = (lines p).map (·.text.toList) ++ [[]] := by
  have htext : (text p).toList = ((lines p).map (·.text.toList)).flatMap (· ++ ['\n']) := by
    simp [text, String.toList_join, List.flatMap_map, String.toList_append]
  rw [htext]
  apply splitOn_ended
  intro l hl
  obtain ⟨line, hline, rfl⟩ := List.mem_map.mp hl
  exact oneLine_of_mem_lines hline

/-! ### Rows among the lines -/

theorem row?_linesOf (p : Program) (r : Row) : (linesOf p r).filterMap Line.row? = [r] := by
  have hmark (name : String) (entry : Option Address) :
      (mark name entry r).filterMap Line.row? = [] := by
    unfold mark
    split <;> rfl
  rw [linesOf_eq, List.filterMap_append, List.filterMap_append, hmark, hmark]
  rfl

theorem row?_lines (p : Program) : (lines p).filterMap Line.row? = rows 0 p.code := by
  rw [lines, List.filterMap_flatMap]
  simp only [row?_linesOf, List.flatMap_singleton']

theorem row_mem_lines {p : Program} {r : Row} : .row r ∈ lines p ↔ r ∈ rows 0 p.code := by
  rw [← row?_lines, List.mem_filterMap]
  constructor
  · exact fun h => ⟨_, h, rfl⟩
  · rintro ⟨l, hl, hrow⟩
    cases l with
    | row r' =>
      cases hrow
      exact hl
    | entry name a => cases hrow

/-- A listing ends with its last row. -/
theorem getLast?_lines {p : Program} {r : Row} (h : (rows 0 p.code).getLast? = some r) :
    (lines p).getLast? = some (.row r) := by
  obtain ⟨before, hsplit⟩ := List.getLast?_eq_some_iff.mp h
  rw [lines, hsplit, List.flatMap_append, List.flatMap_singleton, linesOf_eq, ← List.append_assoc,
    List.getLast?_concat]

/-! ### Marks -/

/-- An entry point that a program has is marked once: at its address, with no other line than the
    mark of another entry point between the mark and the row.  One that it lacks is not marked. -/
def Marks (name : String) (entry : Option Address) (ls : List Line) : Prop :=
  match entry with
  | none => ls.filter (·.name? = some name) = []
  | some a => ls.filter (·.name? = some name) = [.entry name a] ∧
    ∃ before others r after, ls = before ++ .entry name a :: (others ++ .row r :: after) ∧
      r.offset = a ∧ (others = [] ∨ ∃ other, other ≠ name ∧ others = [.entry other a])

theorem filter_mark (name other : String) (entry : Option Address) (r : Row) :
    (mark other entry r).filter (·.name? = some name) =
      if other = name then mark other entry r else [] := by
  unfold mark
  split
  · by_cases hname : other = name <;> simp [Line.name?, hname]
  · simp

theorem mark_cases (name : String) (entry : Option Address) (r : Row) :
    mark name entry r = [] ∨ mark name entry r = [.entry name r.offset] := by
  unfold mark
  split
  · exact Or.inr rfl
  · exact Or.inl rfl

theorem flatMap_mark {code : List Word} {name : String} {r : Row} (h : r ∈ rows 0 code) :
    (rows 0 code).flatMap (mark name (some r.offset)) = [.entry name r.offset] := by
  have hselect (rs : List Row) : rs.flatMap (mark name (some r.offset)) =
      (rs.filter (·.offset = r.offset)).map fun s => .entry name s.offset := by
    induction rs with
    | nil => rfl
    | cons s rs ih =>
      rw [List.flatMap_cons, ih, mark, List.filter_cons]
      by_cases hs : s.offset = r.offset
      · simp [hs]
      · simp [hs, Ne.symm hs]
  rw [hselect, ← rowsFrom_zero, filter_offset (rowsFrom_zero code ▸ h)]
  rfl

/-- The lines mark an entry point at the address of a row, if `front` and `others` are what every
    row shows before and behind its mark. -/
theorem marks_lines {p : Program} {name : String} {entry : Option Address}
    (front others : Row → List Line)
    (hlines : ∀ r, linesOf p r = front r ++ mark name entry r ++ (others r ++ [.row r]))
    (hfront : ∀ r, (front r).filter (·.name? = some name) = [])
    (hothers : ∀ r, others r = [] ∨ ∃ other, other ≠ name ∧ others r = [.entry other r.offset])
    (hentry : ∀ a, entry = some a → ∃ r ∈ rows 0 p.code, r.offset = a) :
    Marks name entry (lines p) := by
  have hmarks : (lines p).filter (·.name? = some name) =
      (rows 0 p.code).flatMap (mark name entry) := by
    have hrest (r : Row) : (others r).filter (·.name? = some name) = [] := by
      rcases hothers r with hnone | ⟨other, hne, hone⟩
      · rw [hnone, List.filter_nil]
      · simp [hone, Line.name?, hne]
    have hrow (r : Row) : [Line.row r].filter (·.name? = some name) = [] := rfl
    rw [lines, List.filter_flatMap]
    congr 1
    funext r
    simp only [hlines, List.filter_append, hfront, hrest, hrow, filter_mark, if_true,
      List.nil_append, List.append_nil]
  unfold Marks
  rw [hmarks]
  cases entry with
  | none => exact List.flatMap_eq_nil_iff.mpr fun r _ => if_neg nofun
  | some a =>
    obtain ⟨r, hr, rfl⟩ := hentry a rfl
    refine ⟨flatMap_mark hr, ?_⟩
    obtain ⟨before, after, hsplit⟩ := List.append_of_mem hr
    have hmark : mark name (some r.offset) r = [.entry name r.offset] := if_pos rfl
    refine ⟨before.flatMap (linesOf p) ++ front r, others r, r, after.flatMap (linesOf p), ?_, rfl,
      hothers r⟩
    rw [lines, hsplit, List.flatMap_append, List.flatMap_cons, hlines, hmark]
    simp only [List.append_assoc, List.cons_append, List.nil_append]

theorem marks_init {p : Program} (h : ∀ a, p.init = some a → ∃ r ∈ rows 0 p.code, r.offset = a) :
    Marks "init" p.init (lines p) := by
  refine marks_lines (fun _ => []) (mark "render" p.render) (fun r => ?_) (fun _ => rfl)
    (fun r => ?_) h
  · rw [linesOf_eq, List.nil_append, List.append_assoc]
  · exact (mark_cases "render" p.render r).imp_right fun hone => ⟨"render", by decide, hone⟩

theorem marks_render {p : Program}
    (h : ∀ a, p.render = some a → ∃ r ∈ rows 0 p.code, r.offset = a) :
    Marks "render" p.render (lines p) := by
  refine marks_lines (mark "init" p.init) (fun _ => []) (fun _ => rfl) (fun r => ?_)
    (fun _ => Or.inl rfl) h
  rw [filter_mark, if_neg (by decide)]

/-! ### What a listing shows -/

/-- A listing shows the code: it prints its lines, and those for rows tile the code.  The note that
    operands are missing stands in the last line only. -/
structure ShowsCode (p : Program) : Prop where
  printed : (text p).toList.splitOn '\n' = (lines p).map (·.text.toList) ++ [[]]
  tiles : Tiles p.code ((lines p).filterMap Line.row?)
  line : ∀ r, .row r ∈ lines p → (Line.row r).text = Text.paddedDecimal 4 r.offset ++ "  " ++
    (r.content.shown ++ if r.content.isTruncated then " <truncated>" else "")
  truncated : ∀ r, .row r ∈ lines p → r.content.isTruncated = true →
    (lines p).getLast? = some (.row r)

/-- A listing shows whole instructions and marks the entry points. -/
structure ShowsEntries (p : Program) : Prop where
  whole : ∀ r, .row r ∈ lines p →
    (∃ op operands, r.content = .instruction op operands) ∧ r.content.isTruncated = false
  line : ∀ name a, .entry name a ∈ lines p →
    (Line.entry name a).text = Text.paddedDecimal 4 a ++ "  " ++ ("<" ++ name ++ ">")
  init : Marks "init" p.init (lines p)
  render : Marks "render" p.render (lines p)

theorem showsCode (p : Program) : ShowsCode p where
  printed := splitOn_text p
  tiles := by
    rw [row?_lines]
    exact tiles_rows p.code
  line r _ := by
    rw [Line.text, r.content.text_eq]
  truncated r hr htruncated :=
    getLast?_lines ((tiles_rows p.code).truncated r (row_mem_lines.mp hr) htruncated)

end Listing

/-- Every program that a tree compiles to is listed with its entry points. -/
theorem Tree.Compiles.showsEntries {config : Config} {tree : Tree} {p : Segment} {frame : Frame}
    {program : Program} (h : tree.Compiles config p frame program) :
    Listing.ShowsEntries program := by
  have hentry {name : String} (a : Address)
      (ha : Scopes.function? ⟨frame, []⟩ name = some a) :
      ∃ r ∈ Listing.rows 0 program.code, r.offset = a :=
    (h.isBody (h.mem_bodies_of_function? ha)).1
  refine ⟨?_, fun name a _ => Listing.Line.text_entry name a, ?_, ?_⟩
  · intro r hr
    obtain ⟨a, i, -, rfl⟩ := h.mem_rows.mp (Listing.row_mem_lines.mp hr)
    exact ⟨⟨i.opcode, i.operands, rfl⟩, decide_eq_false (Nat.not_lt.mpr i.length_operands.ge)⟩
  · exact Listing.marks_init (h.init ▸ hentry)
  · exact Listing.marks_render (h.render ▸ hentry)

/-- **Listings are complete.**  The listing of any program shows every word of its code in one line,
    and the listing of a compiled program marks each of its entry points once. -/
theorem listing_shows_program :
    (∀ program : Program, Listing.ShowsCode program) ∧
      ∀ (config : Config) (tree : Tree) (program : Program), tree.compile config = .ok program →
        Listing.ShowsEntries program := by
  refine ⟨Listing.showsCode, ?_⟩
  intro config tree program h
  obtain ⟨p, frame, hcompiles⟩ := Tree.compiles_of_compile h
  exact hcompiles.showsEntries

theorem listing_shows_doubling :
    Tree.doubling.compile {} = .ok .doubling ∧
      Listing.Marks "init" (some 0) (Listing.lines .doubling) ∧
      Listing.Marks "render" none (Listing.lines .doubling) ∧
      .entry "init" 0 ∈ Listing.lines .doubling ∧
      (Listing.Line.entry "init" 0).text = "0000  <init>" := by
  have hcompile : Tree.doubling.compile {} = .ok .doubling := rfl
  have hentries := listing_shows_program.2 {} .doubling .doubling hcompile
  have hmem : .entry "init" 0 ∈ Listing.lines .doubling := by
    simp [Listing.lines, Program.doubling, Listing.rows, Listing.linesOf]
  have hline := hentries.line "init" 0 hmem
  exact ⟨hcompile, hentries.init, hentries.render, hmem, hline.trans (by decide)⟩

end SceneCode
