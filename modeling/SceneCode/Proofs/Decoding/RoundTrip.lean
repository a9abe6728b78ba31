import SceneCode.Proofs.Decoding.Rules

/-!
# Trees and their canonical JSON

The canonical JSON of a tree is decoded to the tree again.  That is so for exactly the trees that
the decoder can give at all: the words for an assignment with an operator exist for the arithmetic
operators only, and JSON has no number that is not finite (`Tree.Expressible`).
-/

namespace SceneCode

/-! ### Doubles nearest to integers -/

namespace Binary64

theorem roundHalfEven_le (num den : Nat) : roundHalfEven num den ≤ num / den + 1 := by
  unfold roundHalfEven
  dsimp only
  split
  · omega
  · split
    · omega
    · have := Nat.mod_lt (num / den) (by decide : 0 < 2)
      omega

theorem floorLog2_one {num : Nat} (h : num ≠ 0) : floorLog2 num 1 = num.log2 := by
  have hlog : Nat.log2 1 = 0 := by decide
  have hle : 1 <<< num.log2 ≤ num := by
    rw [Nat.one_shiftLeft]
    exact Nat.log2_self_le h
  simp [floorLog2, hlog, hle]

/-- A number that is moved so that its highest bit has the weight of the hidden bit. -/
theorem shiftLeft_div_lt (num k : Nat) :
    (num <<< (k + 52)) / (1 <<< (num.log2 + k)) < 2 * hiddenBit := by
  have hbits : 2 * hiddenBit = 2 ^ 53 := rfl
  rw [Nat.shiftLeft_eq, Nat.one_shiftLeft, Nat.div_lt_iff_lt_mul (Nat.two_pow_pos _), hbits]
  calc num * 2 ^ (k + 52) < 2 ^ (num.log2 + 1) * 2 ^ (k + 52) :=
        Nat.mul_lt_mul_of_pos_right Nat.lt_log2_self (Nat.two_pow_pos _)
    _ = 2 ^ 53 * 2 ^ (num.log2 + k) := by
        rw [← Nat.pow_add, ← Nat.pow_add]
        congr 1
        omega

/-- The doubles nearest to integers of 64 bits are far below the infinite. -/
theorem roundedBits_one_lt {num : Nat} (h : num < UInt64.size) :
    roundedBits num 1 < infinityBits := by
  by_cases hzero : num = 0
  · simp [roundedBits, hzero]
  have hlog : num.log2 < 64 := (Nat.log2_lt hzero).mpr h
  have hscale : ((num.log2 : Int) - 52 + 1074).toNat = num.log2 + 1022 := by omega
  have hquotient : (num <<< 1074) / (1 <<< (num.log2 + 1022)) < 2 * hiddenBit :=
    shiftLeft_div_lt num 1022
  have hsignificand := roundHalfEven_le (num <<< 1074) (1 <<< (num.log2 + 1022))
  rw [roundedBits, if_neg hzero, floorLog2_one hzero]
  simp only [hscale]
  refine Nat.lt_of_le_of_lt (Nat.min_le_left _ _) ?_
  unfold hiddenBit infinityBits at *
  omega

theorem isFinite_ofMagnitudeBits {negative : Bool} {m : Nat} (h : m < infinityBits) :
    (ofMagnitudeBits negative m).isFinite = true := by
  have hfield : (ofMagnitudeBits negative m).exponentField = m / hiddenBit := by
    unfold infinityBits at h
    cases negative with
    | true =>
      simp only [exponentField, ofMagnitudeBits, if_true, UInt64.toNat_ofNat']
      unfold signBit hiddenBit
      omega
    | false =>
      simp only [exponentField, ofMagnitudeBits, Bool.false_eq_true, if_false,
        UInt64.toNat_ofNat']
      unfold hiddenBit
      omega
  have hlt : m / hiddenBit < 2047 := by
    unfold hiddenBit infinityBits at *
    omega
  simp only [isFinite, hfield, bne_iff_ne]
  omega

theorem isFinite_ofInt {n : Int} (h : Json.InRange n) : (ofInt n).isFinite = true := by
  apply isFinite_ofMagnitudeBits
  apply roundedBits_one_lt
  obtain ⟨hlow, hhigh⟩ := h
  unfold UInt64.size
  omega

end Binary64

/-- Numbers of JSON are finite, and so are the doubles nearest to them. -/
theorem Json.isFinite_of_binary64? {v : Json} {x : Binary64} (h : v.binary64? = some x) :
    x.isFinite = true := by
  unfold Json.binary64? at h
  split at h
  · rename_i n
    cases h
    cases n with
    | int n hn => exact Binary64.isFinite_ofInt hn
    | float x hx => exact hx
  · cases h

/-! ### Words for kinds -/

/-- The operators that can be combined with an assignment. -/
def BinaryOp.isArithmetic : BinaryOp → Bool
  | .add | .sub | .mul | .div | .mod => true
  | _ => false

namespace Kind

/-- There is a word for the kind. -/
def hasWord : Kind → Bool
  | .compound op => op.isArithmetic
  | _ => true

theorem ofString?_spelling {kind : Kind} (h : kind.hasWord = true) :
    ofString? kind.spelling = some kind := by
  cases kind with
  | compound op => cases op <;> first | rfl | cases h
  | binary op => cases op <;> rfl
  | step op => cases op <;> rfl
  | logical op => cases op <;> rfl
  | unary op => cases op <;> rfl
  | _ => rfl

theorem hasWord_of_ofString? {word : String} {kind : Kind} (h : ofString? word = some kind) :
    kind.hasWord = true := by
  have htable : ∀ e ∈ table, e.2.hasWord = true := by decide
  obtain ⟨before, after, hsplit, -⟩ := List.lookup_eq_some_iff.mp h
  apply htable (word, kind)
  rw [hsplit]
  simp

end Kind

/-! ### Trees that have JSON -/

namespace Literal

def isExpressible : Literal → Bool
  | .float x => x.isFinite
  | _ => true

end Literal

namespace Tree

mutual

/-- Every assignment with an operator has an arithmetic one, and every double is finite. -/
def Expressible : Tree → Prop
  | .empty => True
  | .seq items => ExpressibleAll items
  | .program body => body.Expressible
  | .block body => body.Expressible
  | .function _ _ _ body => body.Expressible
  | .ret value => value.Expressible
  | .declare _ _ => True
  | .declareWith _ _ value => value.Expressible
  | .assign _ value => value.Expressible
  | .compound op _ value => op.isArithmetic = true ∧ value.Expressible
  | .step _ _ => True
  | .ifThen cond body => cond.Expressible ∧ body.Expressible
  | .ifElse cond body other => cond.Expressible ∧ body.Expressible ∧ other.Expressible
  | .whileLoop cond body => cond.Expressible ∧ body.Expressible
  | .doLoop cond body => cond.Expressible ∧ body.Expressible
  | .forLoop init cond update body =>
    init.Expressible ∧ cond.Expressible ∧ update.Expressible ∧ body.Expressible
  | .call _ args => ExpressibleAll args
  | .binary _ lhs rhs => lhs.Expressible ∧ rhs.Expressible
  | .logical _ lhs rhs => lhs.Expressible ∧ rhs.Expressible
  | .unary _ operand => operand.Expressible
  | .ident _ => True
  | .lit value => value.isExpressible = true

def ExpressibleAll : List Tree → Prop
  | [] => True
  | t :: rest => t.Expressible ∧ ExpressibleAll rest

end

/-- **Every tree that the decoder gives has its canonical JSON.** -/
theorem expressible_of_decodes {v : Json} {t : Tree} (h : Decodes v t) : t.Expressible := by
  induction h with
  | empty => trivial
  | nil => trivial
  | cons _ _ ih₁ ih₂ => exact ⟨ih₁, ih₂⟩
  | program _ _ ih => exact ih
  | block _ _ ih => exact ih
  | function _ _ _ ih => exact ih
  | ret _ _ ih => exact ih
  | declare _ => trivial
  | declareWith _ _ ih => exact ih
  | assign _ _ ih => exact ih
  | compound node _ ih =>
    obtain ⟨_, word, -, -, hkind, -⟩ := node
    exact ⟨Kind.hasWord_of_ofString? hkind, ih⟩
  | step _ _ => trivial
  | ifThen _ _ _ ih₁ ih₂ => exact ⟨ih₁, ih₂⟩
  | ifElse _ _ _ _ ih₁ ih₂ ih₃ => exact ⟨ih₁, ih₂, ih₃⟩
  | whileLoop _ _ _ ih₁ ih₂ => exact ⟨ih₁, ih₂⟩
  | doLoop _ _ _ ih₁ ih₂ => exact ⟨ih₁, ih₂⟩
  | forLoop _ _ _ _ _ ih₁ ih₂ ih₃ ih₄ => exact ⟨ih₁, ih₂, ih₃, ih₄⟩
  | call _ _ ih => exact ih
  | callNone _ => trivial
  | callOne _ _ ih => exact ⟨ih, trivial⟩
  | binary _ _ _ ih₁ ih₂ => exact ⟨ih₁, ih₂⟩
  | logical _ _ _ ih₁ ih₂ => exact ⟨ih₁, ih₂⟩
  | unary _ _ ih => exact ih
  | unaryBare _ _ _ ih => exact ih
  | ident _ _ => trivial
  | int _ _ => rfl
  | float _ hx => exact Json.isFinite_of_binary64? hx
  | bool _ => rfl
  | str _ => rfl

theorem isNode_encodeNode {kind : Kind} (h : kind.hasWord = true) (a : Json) :
    (encodeNode kind a).IsNode kind a :=
  ⟨_, kind.spelling, rfl, rfl, Kind.ofString?_spelling h, rfl⟩

theorem decodes_encode_literal {value : Literal} (h : value.isExpressible = true) :
    Decodes (encodeNode value.kind value.encode) (.lit value) := by
  cases value with
  | int n =>
    have hn : (Json.ofInt64 n).int64? = some n.toInt := if_pos n.toInt_lt
    have hint := Decodes.int (isNode_encodeNode rfl _) hn
    rwa [Int64.ofInt_toInt] at hint
  | float x =>
    have hx : (Json.ofBinary64 x).binary64? = some x := by
      have hfinite : x.isFinite = true := h
      simp [Json.ofBinary64, Json.Number.ofBinary64?, hfinite, Json.binary64?,
        Json.Number.toBinary64]
    exact .float (isNode_encodeNode rfl _) hx
  | bool b => exact .bool (isNode_encodeNode rfl _)
  | str s => exact .str (isNode_encodeNode rfl _)

mutual

/-- **The canonical JSON of a tree stands for the tree.** -/
theorem decodes_encode (t : Tree) (h : t.Expressible) : Decodes t.encode t := by
  match t with
  | .empty => exact .empty
  | .seq items => exact decodes_encodeAll items h
  | .program body => exact .program (isNode_encodeNode rfl _) (decodes_encode body h)
  | .block body => exact .block (isNode_encodeNode rfl _) (decodes_encode body h)
  | .function name params returns body =>
    exact .function (isNode_encodeNode rfl _) (.inl rfl) (decodes_encode body h)
  | .ret value => exact .ret (isNode_encodeNode rfl _) (decodes_encode value h)
  | .declare type name => exact .declare (isNode_encodeNode rfl _)
  | .declareWith type name value =>
    exact .declareWith (isNode_encodeNode rfl _) (decodes_encode value h)
  | .assign name value => exact .assign (isNode_encodeNode rfl _) (decodes_encode value h)
  | .compound op name value =>
    have hword : (Kind.compound op).hasWord = true := h.1
    exact .compound (isNode_encodeNode hword _) (decodes_encode value h.2)
  | .step op name => exact .step (isNode_encodeNode rfl _) (.inl rfl)
  | .ifThen cond body =>
    exact .ifThen (isNode_encodeNode rfl _) (decodes_encode cond h.1) (decodes_encode body h.2)
  | .ifElse cond body other =>
    exact .ifElse (isNode_encodeNode rfl _) (decodes_encode cond h.1) (decodes_encode body h.2.1)
      (decodes_encode other h.2.2)
  | .whileLoop cond body =>
    exact .whileLoop (isNode_encodeNode rfl _) (decodes_encode cond h.1) (decodes_encode body h.2)
  | .doLoop cond body =>
    exact .doLoop (isNode_encodeNode rfl _) (decodes_encode cond h.1) (decodes_encode body h.2)
  | .forLoop init cond update body =>
    exact .forLoop (isNode_encodeNode rfl _) (decodes_encode init h.1)
      (decodes_encode cond h.2.1) (decodes_encode update h.2.2.1) (decodes_encode body h.2.2.2)
  | .call name args => exact .call (isNode_encodeNode rfl _) (decodes_encodeAll args h)
  | .binary op lhs rhs =>
    exact .binary (isNode_encodeNode rfl _) (decodes_encode lhs h.1) (decodes_encode rhs h.2)
  | .logical op lhs rhs =>
    exact .logical (isNode_encodeNode rfl _) (decodes_encode lhs h.1) (decodes_encode rhs h.2)
  | .unary op operand => exact .unary (isNode_encodeNode rfl _) (decodes_encode operand h)
  | .ident name => exact .ident (isNode_encodeNode rfl _) (.inl rfl)
  | .lit value => exact decodes_encode_literal h

theorem decodes_encodeAll (ts : List Tree) (h : ExpressibleAll ts) :
    Decodes (.arr (encodeAll ts)) (.seq ts) := by
  match ts with
  | [] => exact .nil
  | t :: rest => exact .cons (decodes_encode t h.1) (decodes_encodeAll rest h.2)

end

end Tree

/-- **The decoder inverts the canonical encoding**, for exactly the trees whose assignments with an
    operator have an arithmetic one and whose doubles are finite.  These are all the trees that the
    decoder gives, so what it gives for any JSON, it gives for the canonical one too. -/
theorem decode_inverts_encode (tree : Tree) :
    (tree.Expressible ↔ Tree.decode tree.encode = .ok tree) ∧
      (tree.Expressible ↔ ∃ v, Tree.decode v = .ok tree) ∧
      ∀ v, Tree.decode v = .ok tree → Tree.decode tree.encode = .ok tree := by
  have hinverse (h : tree.Expressible) : Tree.decode tree.encode = .ok tree :=
    Tree.decode_eq_ok_iff.mpr (tree.decodes_encode h)
  have hexpressible (v : Json) (h : Tree.decode v = .ok tree) : tree.Expressible :=
    Tree.expressible_of_decodes (Tree.decode_eq_ok_iff.mp h)
  refine ⟨⟨hinverse, hexpressible _⟩, ⟨fun h => ⟨_, hinverse h⟩, ?_⟩, ?_⟩
  · rintro ⟨v, hv⟩
    exact hexpressible v hv
  · intro v hv
    exact hinverse (hexpressible v hv)

/-- A negation whose operand is a sequence of one name, with the name in an array of its own. -/
def Json.negation : Json :=
  let name := .obj [("arguments", .arr [.str "x"]), ("type", .str "identifier")]
  .obj [("arguments", .arr [.arr [name]]), ("type", .str "neg")]

theorem decode_inverts_encode_negation :
    Tree.decode .negation = .ok (.unary .neg (.seq [.ident "x"])) ∧
      Tree.decode (Tree.encode (.unary .neg (.seq [.ident "x"]))) =
        .ok (.unary .neg (.seq [.ident "x"])) := by
  have hname : Tree.Decodes (.obj [("arguments", .arr [.str "x"]), ("type", .str "identifier")])
      (.ident "x") := .ident ⟨_, "identifier", rfl, rfl, rfl, rfl⟩ (.inr rfl)
  have hdecode : Tree.decode .negation = .ok (.unary .neg (.seq [.ident "x"])) :=
    Tree.decode_eq_ok_iff.mpr (.unary ⟨_, "neg", rfl, rfl, rfl, rfl⟩ (.cons hname .nil))
  exact ⟨hdecode, (decode_inverts_encode _).2.2 _ hdecode⟩

end SceneCode
