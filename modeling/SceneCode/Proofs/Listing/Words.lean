import SceneCode.Proofs.Listing.Lines

/-!
# Reading words back

In a listing a text stands between quotes, and any other word is a token: it has no blank and no
quote.  So a word can be read off the front of a line, whatever stands behind it: a quoted text ends
at its first bare quote, a token at the next blank.

`Text.unquote` reads a quoted text, and `Word.read?` a word.  Doubles are left out: nothing is said
about the text of a double but that it has no line break.
-/

namespace SceneCode

namespace Text

/-! ### Digits -/

/-- The number with a digit written behind it. -/
def withDigit (base n : Nat) (digit : Char) : Nat :=
  n * base + (hexDigitValue? digit).getD 0

/-- The number that digits spell. -/
def spelled (base : Nat) (digits : List Char) : Nat :=
  digits.foldl (withDigit base) 0

theorem spelled_toDigits {base : Nat} (hbase : 1 < base) (hle : base ≤ 16) (n : Nat) :
    spelled base (Nat.toDigits base n) = n := by
  have hdigit {d : Nat} (hd : d < base) (m : Nat) :
      withDigit base m (Nat.digitChar d) = m * base + d := by
    rw [withDigit, hexDigitValue?_digitChar d (Nat.lt_of_lt_of_le hd hle), Option.getD_some]
  induction n using Nat.strong_induction_on with
  | _ n ih =>
    rw [Nat.toDigits_eq_if hbase]
    split
    · next hlt =>
      rw [spelled, List.foldl_cons, List.foldl_nil, hdigit hlt, Nat.zero_mul, Nat.zero_add]
    · next hge =>
      have hless : n / base < n := Nat.div_lt_self (by omega) hbase
      rw [spelled, List.foldl_append, ← spelled, ih _ hless, List.foldl_cons, List.foldl_nil,
        hdigit (Nat.mod_lt _ (by omega)), Nat.div_add_mod']

/-- Zeros in front of a number do not change it. -/
theorem spelled_leftpad (base width : Nat) (digits : List Char) :
    spelled base (digits.leftpad width '0') = spelled base digits := by
  have hzeros (k : Nat) : (List.replicate k '0').foldl (withDigit base) 0 = 0 := by
    induction k with
    | zero => rfl
    | succ k ih =>
      have hzero : withDigit base 0 '0' = 0 := by simp [withDigit, hexDigitValue?]
      rw [List.replicate_succ, List.foldl_cons, hzero, ih]
  rw [spelled, List.leftpad, List.foldl_append, hzeros, spelled]

theorem spelled_paddedDecimal (width n : Nat) : spelled 10 (paddedDecimal width n).toList = n := by
  rw [paddedDecimal, String.toList_ofList, spelled_leftpad,
    spelled_toDigits (by decide) (by decide)]

theorem isDigit_paddedDecimal {width n : Nat} {c : Char} (h : c ∈ (paddedDecimal width n).toList) :
    c.isDigit = true := by
  rw [paddedDecimal, String.toList_ofList, List.leftpad, List.mem_append] at h
  rcases h with h | h
  · rw [List.eq_of_mem_replicate h]
    decide
  · exact Nat.isDigit_of_mem_toDigits (by decide) (by decide) h

theorem decimal_eq (n : Nat) : decimal n = paddedDecimal 0 n := by
  simp [decimal, paddedDecimal, List.leftpad]

/-! ### Quoted texts -/

/-- The character that an escape with one letter stands for. -/
def escaped : Char → Char
  | '0' => '\x00'
  | 't' => '\t'
  | 'n' => '\n'
  | 'r' => '\r'
  | c => c

/-- Read a quoted text up to its closing quote, and return what stands behind it.  Inside of braces,
    `number` is the number that has been read so far. -/
def unquote : (number : Option Nat) → List Char → Option (List Char × List Char)
  | _, [] => none
  | some n, c :: rest =>
    if c = '\x7d' then (unquote none rest).map fun (s, behind) => (Char.ofNat n :: s, behind)
    else unquote (some (withDigit 16 n c)) rest
  | none, '"' :: rest => some ([], rest)
  | none, '\\' :: 'u' :: '\x7b' :: rest => unquote (some 0) rest
  | none, '\\' :: c :: rest => (unquote none rest).map fun (s, behind) => (escaped c :: s, behind)
  | none, c :: rest => (unquote none rest).map fun (s, behind) => (c :: s, behind)

theorem unquote_number {digits : List Char} (h : '\x7d' ∉ digits) (n : Nat) (rest : List Char) :
    unquote (some n) (digits ++ '\x7d' :: rest) =
      (unquote none rest).map fun (s, behind) =>
        (Char.ofNat (digits.foldl (withDigit 16) n) :: s, behind) := by
  induction digits generalizing n with
  | nil => rfl
  | cons d digits ih =>
    rw [List.mem_cons, not_or] at h
    rw [List.cons_append, unquote, if_neg (Ne.symm h.1), ih h.2, List.foldl_cons]

/-- What is written for a character is read as that character. -/
theorem unquote_quotedChar (c : Char) (rest : List Char) :
    unquote none (quotedChar c ++ rest) =
      (unquote none rest).map fun (s, behind) => (c :: s, behind) := by
  unfold quotedChar
  split
  case h_7 _ _ _ _ hquote hslash =>
    -- a character with a shape stands for itself, any other one is a number in braces
    split
    · rw [List.singleton_append, unquote]
      · exact hquote
      · exact fun more hc => absurd hc hslash
      · exact fun letter more hc => absurd hc hslash
    · have hbrace : '\x7d' ∉ Nat.toDigits 16 c.toNat :=
        not_mem_toDigits (by decide) (by decide) (by decide) c.toNat
      have hnumber := unquote_number hbrace 0 rest
      have hc : Char.ofNat ((Nat.toDigits 16 c.toNat).foldl (withDigit 16) 0) = c := by
        rw [← spelled, spelled_toDigits (by decide) (by decide), Char.ofNat_toNat]
      rw [hc] at hnumber
      simpa [unquote] using hnumber
  all_goals rfl

/-- **A quoted text is read back**, whatever stands behind its closing quote. -/
theorem unquote_quoted (s rest : List Char) :
    unquote none (s.flatMap quotedChar ++ '"' :: rest) = some (s, rest) := by
  induction s with
  | nil => rfl
  | cons c s ih =>
    rw [List.flatMap_cons, List.append_assoc, unquote_quotedChar, ih, Option.map_some]

/-! ### Tokens -/

/-- A text without blanks and quotes. -/
def IsToken (cs : List Char) : Prop :=
  ' ' ∉ cs ∧ '"' ∉ cs

instance (cs : List Char) : Decidable (IsToken cs) :=
  inferInstanceAs (Decidable (_ ∧ _))

/-- A text that a token before it does not run into. -/
def Divided (cs : List Char) : Prop :=
  ∀ c ∈ cs.head?, c = ' '

theorem isToken_paddedDecimal (width n : Nat) : IsToken (paddedDecimal width n).toList := by
  constructor
  · intro hblank
    exact absurd (isDigit_paddedDecimal hblank) (by decide)
  · intro hquote
    exact absurd (isDigit_paddedDecimal hquote) (by decide)

theorem isToken_cons {c : Char} {cs : List Char} (hblank : c ≠ ' ') (hquote : c ≠ '"')
    (hcs : IsToken cs) : IsToken (c :: cs) :=
  ⟨List.not_mem_cons_of_ne_of_not_mem hblank.symm hcs.1,
    List.not_mem_cons_of_ne_of_not_mem hquote.symm hcs.2⟩

theorem IsToken.ne_blank {token : List Char} (h : IsToken token) :
    ∀ c ∈ token, decide (c ≠ ' ') = true := by
  intro c hc
  rw [decide_eq_true_eq]
  rintro rfl
  exact h.1 hc

section

variable {token rest : List Char}

theorem takeWhile_token (htoken : IsToken token) (hrest : Divided rest) :
    (token ++ rest).takeWhile (· ≠ ' ') = token := by
  rw [List.takeWhile_append_of_pos htoken.ne_blank]
  cases rest with
  | nil => exact List.append_nil token
  | cons c rest =>
    rw [hrest c rfl]
    exact List.append_nil token

theorem dropWhile_token (htoken : IsToken token) (hrest : Divided rest) :
    (token ++ rest).dropWhile (· ≠ ' ') = rest := by
  rw [List.dropWhile_append_of_pos htoken.ne_blank]
  cases rest with
  | nil => rfl
  | cons c rest =>
    rw [hrest c rfl]
    rfl

end

end Text

/-! ### Words -/

/-- The operation with the given mnemonic. -/
def Opcode.ofMnemonic? (token : List Char) : Option Opcode :=
  all.find? fun op => op.mnemonic.toList = token

theorem Opcode.ofMnemonic?_mnemonic (op : Opcode) : ofMnemonic? op.mnemonic.toList = some op := by
  cases op <;> rfl

namespace Word

open Text

/-- The word that a token shows. -/
def ofToken? (token : List Char) : Option Word :=
  if token.all Char.isDigit then some (.int (spelled 10 token))
  else match token with
    | '-' :: digits => some (.int (-spelled 10 digits))
    | '@' :: digits => some (.addr (spelled 10 digits))
    | ['t', 'r', 'u', 'e'] => some (.bool true)
    | ['f', 'a', 'l', 's', 'e'] => some (.bool false)
    | token => (Opcode.ofMnemonic? token).map .op

/-- Read a word off the front of a text. -/
def read? (cs : List Char) : Option (Word × List Char) :=
  match cs with
  | '"' :: rest => (unquote none rest).map fun (s, behind) => (.str (String.ofList s), behind)
  | cs => (ofToken? (cs.takeWhile (· ≠ ' '))).map fun w => (w, cs.dropWhile (· ≠ ' '))

theorem read?_token {token rest : List Char} {w : Word} (htoken : IsToken token)
    (hrest : Divided rest) (hw : ofToken? token = some w) :
    read? (token ++ rest) = some (w, rest) := by
  -- neither the token nor, if it is empty, what stands behind it starts with a quote
  have hquote (behind : List Char) : token ++ rest ≠ '"' :: behind := by
    intro hstart
    rcases List.append_eq_cons_iff.mp hstart with ⟨-, hbehind⟩ | ⟨more, hmore, -⟩
    · exact absurd (hrest '"' (hbehind ▸ rfl)) (by decide)
    · exact htoken.2 (hmore ▸ List.mem_cons_self)
  rw [read?]
  · rw [takeWhile_token htoken hrest, dropWhile_token htoken hrest, hw, Option.map_some]
  · exact hquote

theorem isToken_mnemonic (op : Opcode) : IsToken op.mnemonic.toList := by
  cases op <;> decide

theorem ofToken?_mnemonic (op : Opcode) : ofToken? op.mnemonic.toList = some (.op op) := by
  have hread : ofToken? op.mnemonic.toList =
      (Opcode.ofMnemonic? op.mnemonic.toList).map .op := by
    cases op <;> rfl
  rw [hread, Opcode.ofMnemonic?_mnemonic, Option.map_some]

theorem isToken_signedDecimal (n : Int) : IsToken (signedDecimal n).toList := by
  have hdigits := isToken_paddedDecimal 0 n.natAbs
  unfold signedDecimal
  rw [decimal_eq]
  split
  · rw [String.toList_append]
    exact isToken_cons (by decide) (by decide) hdigits
  · exact hdigits

theorem ofToken?_signedDecimal (n : Int) : ofToken? (signedDecimal n).toList = some (.int n) := by
  unfold signedDecimal
  rw [decimal_eq]
  split
  · next hneg =>
    have hread (digits : List Char) :
        ofToken? ('-' :: digits) = some (.int (-spelled 10 digits)) := rfl
    have htext : ("-" ++ paddedDecimal 0 n.natAbs).toList =
        '-' :: (paddedDecimal 0 n.natAbs).toList := String.toList_append
    have hn : -(n.natAbs : Int) = n := by omega
    rw [htext, hread, spelled_paddedDecimal, hn]
  · next hpos =>
    have hall : (paddedDecimal 0 n.natAbs).toList.all Char.isDigit = true :=
      List.all_eq_true.mpr fun _ => isDigit_paddedDecimal
    unfold ofToken?
    rw [if_pos hall, spelled_paddedDecimal, Int.natAbs_of_nonneg (Int.not_lt.mp hpos)]

/-- **A word that is no double is read back**, whatever stands behind the next blank. -/
theorem read?_text {w : Word} (hw : ∀ x, w ≠ .float x) {rest : List Char} (hrest : Divided rest) :
    read? (w.text.toList ++ rest) = some (w, rest) := by
  cases w with
  | op o => exact read?_token (isToken_mnemonic o) hrest (ofToken?_mnemonic o)
  | int n => exact read?_token (isToken_signedDecimal n) hrest (ofToken?_signedDecimal n)
  | float x => exact absurd rfl (hw x)
  | bool b => cases b <;> exact read?_token (by decide) hrest rfl
  | str s =>
    have hread (cs : List Char) : read? ('"' :: cs) =
        (unquote none cs).map fun (s, behind) => (.str (String.ofList s), behind) := rfl
    rw [text, quoted, String.toList_ofList, List.cons_append, List.cons_append, List.append_assoc,
      List.singleton_append, hread, unquote_quoted, Option.map_some]
    simp only [String.ofList_toList]
  | addr a =>
    have hread (digits : List Char) : ofToken? ('@' :: digits) = some (.addr (spelled 10 digits)) :=
      rfl
    have htoken : IsToken ('@' :: (paddedDecimal 4 a).toList) :=
      isToken_cons (by decide) (by decide) (isToken_paddedDecimal 4 a)
    have htext : (Word.addr a).text.toList = '@' :: (paddedDecimal 4 a).toList :=
      String.toList_append
    rw [htext]
    apply read?_token htoken hrest
    rw [hread, spelled_paddedDecimal]

end Word

end SceneCode
