import SceneCode.Proofs.Decoding.Rules

/-!
# The language of the decoder

`Json.IsTree` is the set of JSON values that are trees, given by its words and the form of what
stands beside each word.  Neither kinds nor trees are needed to say what the set is.  The decoder
accepts its members and refuses everything else (`decode_accepts_grammar`).

Two conventions of the parser are part of the language at every depth: nothing is written as the
empty text, and an array of one value may stand for the value where a node has one argument only.
A node without arguments has the null value there, which is in no form.
-/

namespace SceneCode

/-! ### Words and forms -/

/-- What stands beside a word. -/
inductive Form where
  | tree
  | function
  | declaration
  | initialised
  | assignment
  /-- An array of that many trees. -/
  | trees (count : Nat)
  | call
  | name
  | operand
  | integer
  | number
  | truth
  | text
deriving DecidableEq

/-- All words whose arguments have a form. -/
def Form.words : Form → List String
  | .tree => ["program", "block", "return"]
  | .function => ["function"]
  | .declaration => ["variableDecl", "variable-decl"]
  | .initialised => ["variableDeclAssign", "variable-decl-assign"]
  | .assignment => ["assign", "addAssign", "add_assign", "subAssign", "sub_assign", "multAssign",
      "multi_assign", "divAssign", "div_assign", "modAssign", "mod_assign"]
  | .trees 2 => ["if", "while", "doWhile", "do_while", "add", "addition", "sub", "minus", "mul",
      "multiplication", "div", "division", "mod", "modulo", "eq", "equality", "neq", "not-equal",
      "lt", "less-than", "le", "less-than-or-equal", "gt", "larger-than", "ge",
      "greater-than-or-equal", "bit-AND", "bit-OR", "bit-XOR", "bit-left-shift",
      "bit-right-shift", "zero-fill-right-shift", "and", "or"]
  | .trees 3 => ["ifElse", "ifelse"]
  | .trees 4 => ["for"]
  | .trees _ => []
  | .call => ["call"]
  | .name => ["increment", "decrement", "identifier"]
  | .operand => ["neg", "not"]
  | .integer => ["int"]
  | .number => ["float"]
  | .truth => ["bool"]
  | .text => ["string"]

namespace Json

/-- The value is an object with a word for the form, and with these arguments.  Its other fields do
    not matter. -/
def HasForm (v : Json) (form : Form) (arguments : Json) : Prop :=
  ∃ fields word, v = .obj fields ∧ fields.lookup "type" = some (.str word) ∧
    word ∈ form.words ∧ (fields.lookup "arguments").getD .null = arguments

/-- The value of an array of one value, and any other value itself. -/
def alone : Json → Json
  | .arr [v] => v
  | v => v

/-- The value is a list of parameters, each a type and a name. -/
def IsParameterList (v : Json) : Prop :=
  v = .str "" ∨
    ∃ items, v = .arr items ∧ ∀ w ∈ items, ∃ type name, w = .arr [.str type, .str name]

/-- The values that are trees. -/
inductive IsTree : Json → Prop where
  | empty : IsTree (.str "")
  | sequence {items : List Json} (hitems : ∀ w ∈ items, IsTree w) : IsTree (.arr items)
  | tree {v a : Json} (form : v.HasForm .tree a) (harg : IsTree a) : IsTree v
  | function {v ps b : Json} {name returns : String}
      (form : v.HasForm .function (.arr [.str name, ps, .str returns, b]))
      (hparams : ps.IsParameterList) (hbody : IsTree b) : IsTree v
  | declaration {v : Json} {type name : String}
      (form : v.HasForm .declaration (.arr [.str type, .str name])) : IsTree v
  | initialised {v a : Json} {type name : String}
      (form : v.HasForm .initialised (.arr [.str type, .str name, a])) (hvalue : IsTree a) :
      IsTree v
  | assignment {v a : Json} {name : String} (form : v.HasForm .assignment (.arr [.str name, a]))
      (hvalue : IsTree a) : IsTree v
  | trees {v : Json} {count : Nat} {items : List Json}
      (form : v.HasForm (.trees count) (.arr items)) (hcount : items.length = count)
      (hitems : ∀ w ∈ items, IsTree w) : IsTree v
  -- An array of arguments, the empty text and an argument on its own are trees all three.
  | call {v a : Json} {name : String} (form : v.HasForm .call (.arr [.str name, a]))
      (hargs : IsTree a) : IsTree v
  | name {v a : Json} {name : String} (form : v.HasForm .name a) (hname : a.alone = .str name) :
      IsTree v
  | operand {v a : Json} (form : v.HasForm .operand a) (hoperand : IsTree a.alone) : IsTree v
  | integer {v : Json} {n : Int} {inRange : InRange n}
      (form : v.HasForm .integer (.num (.int n inRange)))
      (hsigned : -0x8000000000000000 ≤ n ∧ n < 0x8000000000000000) : IsTree v
  | number {v : Json} {n : Number} (form : v.HasForm .number (.num n)) : IsTree v
  | truth {v : Json} {b : Bool} (form : v.HasForm .truth (.bool b)) : IsTree v
  | text {v : Json} {s : String} (form : v.HasForm .text (.str s)) : IsTree v

end Json

/-! ### The form of each kind -/

namespace Kind

def form : Kind → Form
  | .program | .block | .ret => .tree
  | .function => .function
  | .declare => .declaration
  | .declareWith => .initialised
  | .assign | .compound _ => .assignment
  | .ifThen | .whileLoop | .doLoop | .binary _ | .logical _ => .trees 2
  | .ifElse => .trees 3
  | .forLoop => .trees 4
  | .call => .call
  | .step _ | .ident => .name
  | .unary _ => .operand
  | .int => .integer
  | .float => .number
  | .bool => .truth
  | .str => .text

theorem mem_words_of_ofString? {word : String} {kind : Kind} (h : ofString? word = some kind) :
    word ∈ kind.form.words := by
  have htable : ∀ e ∈ table, e.1 ∈ e.2.form.words := by decide
  obtain ⟨before, after, hsplit, -⟩ := List.lookup_eq_some_iff.mp h
  apply htable (word, kind)
  rw [hsplit]
  simp

theorem exists_ofString?_of_mem_words {word : String} {form : Form} (h : word ∈ form.words) :
    ∃ kind, ofString? word = some kind ∧ kind.form = form := by
  have hwords : ∀ w ∈ form.words, (ofString? w).map Kind.form = some form := by
    unfold Form.words
    split
    any_goals decide
    -- No kind takes any other number of trees.
    intro w hw
    cases hw
  exact Option.map_eq_some_iff.mp (hwords word h)

end Kind

namespace Json

variable {v a : Json}

theorem IsNode.hasForm {kind : Kind} (node : v.IsNode kind a) : v.HasForm kind.form a := by
  obtain ⟨fields, word, hv, htype, hkind, hargs⟩ := node
  exact ⟨fields, word, hv, htype, Kind.mem_words_of_ofString? hkind, hargs⟩

theorem HasForm.exists_isNode {form : Form} (h : v.HasForm form a) :
    ∃ kind : Kind, kind.form = form ∧ v.IsNode kind a := by
  obtain ⟨fields, word, hv, htype, hword, hargs⟩ := h
  obtain ⟨kind, hkind, hform⟩ := Kind.exists_ofString?_of_mem_words hword
  exact ⟨kind, hform, fields, word, hv, htype, hkind, hargs⟩

theorem HasForm.ne_arr {form : Form} (h : v.HasForm form a) (items : List Json) :
    v ≠ .arr items := by
  obtain ⟨fields, word, rfl, -⟩ := h
  exact Json.noConfusion

/-! ### Parts of nodes -/

theorem alone_of_ne (h : ∀ b, v ≠ .arr [b]) : v.alone = v := by
  unfold alone
  split
  · exact absurd rfl (h _)
  · rfl

theorem alone_eq_str_iff {name : String} : v.alone = .str name ↔ v.IsName name := by
  unfold IsName
  by_cases hsingle : ∃ b, v = .arr [b]
  · obtain ⟨b, rfl⟩ := hsingle
    simp [alone]
  · have hbare : ∀ b, v ≠ .arr [b] := not_exists.mp hsingle
    rw [alone_of_ne hbare, or_iff_left (hbare _)]

theorem IsParams.isParameterList {params : List Param} (h : v.IsParams params) :
    v.IsParameterList := by
  rcases h with h | ⟨h, -⟩
  · refine Or.inr ⟨_, h, ?_⟩
    intro w hw
    obtain ⟨p, -, rfl⟩ := List.mem_map.mp hw
    exact ⟨p.type.name, p.name, rfl⟩
  · exact Or.inl h

theorem IsParameterList.exists_params (h : v.IsParameterList) : ∃ params, v.IsParams params := by
  rcases h with h | ⟨items, rfl, hitems⟩
  · exact ⟨[], Or.inr ⟨h, rfl⟩⟩
  · induction items with
    | nil => exact ⟨[], Or.inl rfl⟩
    | cons w rest ih =>
      obtain ⟨⟨type, name, rfl⟩, hrest⟩ := List.forall_mem_cons.mp hitems
      obtain ⟨params, h | ⟨h, -⟩⟩ := ih hrest
      · refine ⟨⟨⟨type⟩, name⟩ :: params, Or.inl ?_⟩
        cases h
        rfl
      · cases h

/-- An array is a tree only as a sequence. -/
theorem isTree_arr {items : List Json} : (Json.arr items).IsTree ↔ ∀ w ∈ items, w.IsTree := by
  constructor
  · intro h
    generalize hv : Json.arr items = v at h
    cases h with
    | sequence hitems =>
      cases hv
      exact hitems
    | empty => cases hv
    | tree form | function form | declaration form | initialised form | assignment form
    | trees form | call form | name form | operand form | integer form | number form | truth form
    | text form => exact absurd hv.symm (form.ne_arr items)
  · exact .sequence

end Json

/-! ### Members are decoded, and nothing else is -/

namespace Tree

open Json (IsTree)

variable {v : Json}

theorem Decodes.isTree {t : Tree} (h : Decodes v t) : v.IsTree := by
  induction h with
  | empty => exact .empty
  | nil => exact .sequence (by simp)
  | cons _ _ ih₁ ih₂ => exact .sequence (List.forall_mem_cons.mpr ⟨ih₁, Json.isTree_arr.mp ih₂⟩)
  | program node _ ih | block node _ ih | ret node _ ih => exact .tree node.hasForm ih
  | function node hparams _ ih => exact .function node.hasForm hparams.isParameterList ih
  | declare node => exact .declaration node.hasForm
  | declareWith node _ ih => exact .initialised node.hasForm ih
  | assign node _ ih | compound node _ ih => exact .assignment node.hasForm ih
  | step node hname | ident node hname => exact .name node.hasForm (Json.alone_eq_str_iff.mpr hname)
  | ifThen node _ _ ih₁ ih₂ | whileLoop node _ _ ih₁ ih₂ | doLoop node _ _ ih₁ ih₂
  | binary node _ _ ih₁ ih₂ | logical node _ _ ih₁ ih₂ =>
    exact .trees node.hasForm rfl (by simp [ih₁, ih₂])
  | ifElse node _ _ _ ih₁ ih₂ ih₃ => exact .trees node.hasForm rfl (by simp [ih₁, ih₂, ih₃])
  | forLoop node _ _ _ _ ih₁ ih₂ ih₃ ih₄ =>
    exact .trees node.hasForm rfl (by simp [ih₁, ih₂, ih₃, ih₄])
  | call node _ ih => exact .call node.hasForm ih
  | callNone node => exact .call node.hasForm .empty
  | callOne node _ ih => exact .call node.hasForm ih
  | unary node _ ih => exact .operand node.hasForm ih
  | unaryBare node hbare _ ih =>
    apply IsTree.operand node.hasForm
    rw [Json.alone_of_ne hbare]
    exact ih
  | int node hn =>
    unfold Json.int64? at hn
    split at hn
    · rename_i n inRange
      split at hn
      · exact .integer node.hasForm ⟨inRange.1, ‹_›⟩
      · cases hn
    · cases hn
  | float node hx =>
    unfold Json.binary64? at hx
    split at hx
    · exact .number node.hasForm
    · cases hx
  | bool node => exact .truth node.hasForm
  | str node => exact .text node.hasForm

theorem exists_decodes_arr {items : List Json} (h : ∀ w ∈ items, ∃ t, Decodes w t) :
    ∃ ts, Decodes (.arr items) (.seq ts) := by
  induction items with
  | nil => exact ⟨[], .nil⟩
  | cons w rest ih =>
    obtain ⟨⟨t, hfirst⟩, hrest⟩ := List.forall_mem_cons.mp h
    obtain ⟨ts, hrest⟩ := ih hrest
    exact ⟨t :: ts, .cons hfirst hrest⟩

theorem exists_decodes_call {a : Json} {name : String} {arg : Tree}
    (node : v.IsNode .call (.arr [.str name, a])) (h : Decodes a arg) : ∃ t, Decodes v t := by
  have harray (items : List Json) (ha : a = .arr items) : ∃ ts, arg = .seq ts := by
    subst ha
    obtain ⟨ts, -, hseq⟩ := decode_arr_eq_ok.mp (decode_of_decodes h)
    exact ⟨ts, hseq⟩
  have hnode (harray : ∀ items, a ≠ .arr items) (hempty : a ≠ .str "") :
      ∃ fields, a = .obj fields := exists_obj_of_decode harray hempty (decode_of_decodes h)
  match a with
  | .arr items =>
    obtain ⟨ts, rfl⟩ := harray items rfl
    exact ⟨_, .call node h⟩
  | .obj fields => exact ⟨_, .callOne node h⟩
  | .str s =>
    by_cases hempty : s = ""
    · subst hempty
      exact ⟨_, .callNone node⟩
    · obtain ⟨fields, hobj⟩ := hnode (by simp) (by simp [hempty])
      cases hobj
  | .null | .bool _ | .num _ =>
    obtain ⟨fields, hobj⟩ := hnode (by simp) (by simp)
    cases hobj

theorem exists_decodes_trees {count : Nat} {items : List Json} {kind : Kind}
    (hform : kind.form = .trees count) (hcount : items.length = count)
    (node : v.IsNode kind (.arr items)) (h : ∀ w ∈ items, ∃ t, Decodes w t) :
    ∃ t, Decodes v t := by
  have hpair (hcount : items.length = 2) :
      ∃ a b s t, items = [a, b] ∧ Decodes a s ∧ Decodes b t := by
    match items, hcount with
    | [a, b], _ =>
      obtain ⟨s, hs⟩ := h a (by simp)
      obtain ⟨t, ht⟩ := h b (by simp)
      exact ⟨a, b, s, t, rfl, hs, ht⟩
  cases kind <;> cases hform
  case ifThen =>
    obtain ⟨c, b, cond, body, rfl, hcond, hbody⟩ := hpair hcount
    exact ⟨_, .ifThen node hcond hbody⟩
  case whileLoop =>
    obtain ⟨c, b, cond, body, rfl, hcond, hbody⟩ := hpair hcount
    exact ⟨_, .whileLoop node hcond hbody⟩
  case doLoop =>
    obtain ⟨c, b, cond, body, rfl, hcond, hbody⟩ := hpair hcount
    exact ⟨_, .doLoop node hcond hbody⟩
  case binary =>
    obtain ⟨l, r, lhs, rhs, rfl, hlhs, hrhs⟩ := hpair hcount
    exact ⟨_, .binary node hlhs hrhs⟩
  case logical =>
    obtain ⟨l, r, lhs, rhs, rfl, hlhs, hrhs⟩ := hpair hcount
    exact ⟨_, .logical node hlhs hrhs⟩
  case ifElse =>
    match items, hcount with
    | [c, b, o], _ =>
      obtain ⟨cond, hcond⟩ := h c (by simp)
      obtain ⟨body, hbody⟩ := h b (by simp)
      obtain ⟨other, hother⟩ := h o (by simp)
      exact ⟨_, .ifElse node hcond hbody hother⟩
  case forLoop =>
    match items, hcount with
    | [i, c, u, b], _ =>
      obtain ⟨init, hinit⟩ := h i (by simp)
      obtain ⟨cond, hcond⟩ := h c (by simp)
      obtain ⟨update, hupdate⟩ := h u (by simp)
      obtain ⟨body, hbody⟩ := h b (by simp)
      exact ⟨_, .forLoop node hinit hcond hupdate hbody⟩

theorem exists_decodes_of_isTree (h : v.IsTree) : ∃ t, Decodes v t := by
  induction h with
  | empty => exact ⟨_, .empty⟩
  | sequence _ ih =>
    obtain ⟨ts, hitems⟩ := exists_decodes_arr ih
    exact ⟨_, hitems⟩
  | tree form _ ih =>
    obtain ⟨kind, hform, node⟩ := form.exists_isNode
    obtain ⟨t, harg⟩ := ih
    cases kind <;> cases hform
    · exact ⟨_, .program node harg⟩
    · exact ⟨_, .block node harg⟩
    · exact ⟨_, .ret node harg⟩
  | function form hparams _ ih =>
    obtain ⟨kind, hform, node⟩ := form.exists_isNode
    obtain ⟨params, hparams⟩ := hparams.exists_params
    obtain ⟨body, hbody⟩ := ih
    cases kind <;> cases hform
    exact ⟨.function _ params ⟨_⟩ body, .function node hparams hbody⟩
  | declaration form =>
    obtain ⟨kind, hform, node⟩ := form.exists_isNode
    cases kind <;> cases hform
    exact ⟨.declare ⟨_⟩ _, .declare node⟩
  | initialised form _ ih =>
    obtain ⟨kind, hform, node⟩ := form.exists_isNode
    obtain ⟨value, hvalue⟩ := ih
    cases kind <;> cases hform
    exact ⟨.declareWith ⟨_⟩ _ value, .declareWith node hvalue⟩
  | assignment form _ ih =>
    obtain ⟨kind, hform, node⟩ := form.exists_isNode
    obtain ⟨value, hvalue⟩ := ih
    cases kind <;> cases hform
    · exact ⟨_, .assign node hvalue⟩
    · exact ⟨_, .compound node hvalue⟩
  | trees form hcount _ ih =>
    obtain ⟨kind, hform, node⟩ := form.exists_isNode
    exact exists_decodes_trees hform hcount node ih
  | call form _ ih =>
    obtain ⟨kind, hform, node⟩ := form.exists_isNode
    obtain ⟨arg, harg⟩ := ih
    cases kind <;> cases hform
    exact exists_decodes_call node harg
  | name form hname =>
    obtain ⟨kind, hform, node⟩ := form.exists_isNode
    cases kind <;> cases hform
    · exact ⟨_, .step node (Json.alone_eq_str_iff.mp hname)⟩
    · exact ⟨_, .ident node (Json.alone_eq_str_iff.mp hname)⟩
  | @operand v a form _ ih =>
    obtain ⟨kind, hform, node⟩ := form.exists_isNode
    obtain ⟨operand, hoperand⟩ := ih
    cases kind <;> cases hform
    by_cases hsingle : ∃ b, a = .arr [b]
    · obtain ⟨b, rfl⟩ := hsingle
      exact ⟨_, .unary node hoperand⟩
    · have hbare : ∀ b, a ≠ .arr [b] := not_exists.mp hsingle
      rw [Json.alone_of_ne hbare] at hoperand
      exact ⟨_, .unaryBare node hbare hoperand⟩
  | integer form hsigned =>
    obtain ⟨kind, hform, node⟩ := form.exists_isNode
    cases kind <;> cases hform
    exact ⟨_, .int node (if_pos hsigned.2)⟩
  | number form =>
    obtain ⟨kind, hform, node⟩ := form.exists_isNode
    cases kind <;> cases hform
    exact ⟨_, .float node rfl⟩
  | truth form =>
    obtain ⟨kind, hform, node⟩ := form.exists_isNode
    cases kind <;> cases hform
    exact ⟨_, .bool node⟩
  | text form =>
    obtain ⟨kind, hform, node⟩ := form.exists_isNode
    cases kind <;> cases hform
    exact ⟨_, .str node⟩

theorem exists_decode_eq_ok_iff : (∃ t, decode v = .ok t) ↔ v.IsTree := by
  constructor
  · rintro ⟨t, h⟩
    exact (decodes_of_decode h).isTree
  · intro h
    obtain ⟨t, ht⟩ := exists_decodes_of_isTree h
    exact ⟨t, decode_of_decodes ht⟩

end Tree

/-! ### Refusals -/

/-- A refusal is either for a word that names no kind or for JSON of the wrong form. -/
theorem DecodeError.message_cases (e : DecodeError) :
    (∃ kind, e = .unknownKind kind ∧
        e.message = "No code generator for node kind '" ++ kind ++ "'") ∨
      ∃ detail, e.message = "Malformed AST: " ++ detail := by
  unfold message
  cases e with
  | unknownKind kind => exact Or.inl ⟨kind, rfl, rfl⟩
  | notATree found =>
    refine Or.inr ⟨"expected a node, a sequence or \"\", found " ++ found.compact, ?_⟩
    dsimp only
    rw [← String.append_assoc]
    simp only [String.reduceAppend]
  | noType =>
    refine Or.inr ⟨"node without a \"type\" key", ?_⟩
    simp only [String.reduceAppend]
  | mismatch kind expected found =>
    refine Or.inr ⟨"'" ++ kind ++ "' expects " ++ expected.text ++ ", found " ++ found.compact, ?_⟩
    simp only [← String.append_assoc, String.reduceAppend]

/-- **The decoder accepts the language and nothing else.**  Any other value is refused, either for a
    word that names no kind or as malformed. -/
theorem decode_accepts_grammar (v : Json) :
    ((∃ t, Tree.decode v = .ok t) ↔ v.IsTree) ∧
      (¬ v.IsTree → ∃ e, Tree.decode v = .error e ∧
        ((∃ kind, e = .unknownKind kind ∧
            e.message = "No code generator for node kind '" ++ kind ++ "'") ∨
          ∃ detail, e.message = "Malformed AST: " ++ detail)) := by
  refine ⟨Tree.exists_decode_eq_ok_iff, ?_⟩
  intro hrefused
  cases hdecode : Tree.decode v with
  | ok t => exact absurd (Tree.exists_decode_eq_ok_iff.mp ⟨t, hdecode⟩) hrefused
  | error e => exact ⟨e, rfl, e.message_cases⟩

/-- A negation whose operand stands in an array of its own, beside a field that no node has. -/
def Json.markedNegation : Json :=
  .obj [("arguments", .arr [.obj [("arguments", .num (.int 5 (by decide))), ("type", .str "int")]]),
    ("line", .null), ("type", .str "neg")]

/-- A negation of nothing at all. -/
def Json.emptyNegation : Json :=
  .obj [("type", .str "neg")]

theorem decode_accepts_negation :
    (∃ t, Tree.decode Json.markedNegation = .ok t) ∧
      ∃ e, Tree.decode Json.emptyNegation = .error e ∧
        ((∃ kind, e = .unknownKind kind ∧
            e.message = "No code generator for node kind '" ++ kind ++ "'") ∨
          ∃ detail, e.message = "Malformed AST: " ++ detail) := by
  constructor
  · apply (decode_accepts_grammar Json.markedNegation).1.mpr
    apply Json.IsTree.operand ⟨_, "neg", rfl, rfl, by decide, rfl⟩
    apply Json.IsTree.integer (n := 5) ⟨_, "int", rfl, rfl, by decide, rfl⟩
    decide
  · apply (decode_accepts_grammar Json.emptyNegation).2
    intro h
    obtain ⟨t, ht⟩ := Tree.exists_decode_eq_ok_iff.mpr h
    obtain ⟨word, kind, ⟨_, _, hfields, htype, hkind, hargs⟩, hnode⟩ :=
      Tree.exists_isNode_of_decode ht
    cases hfields
    cases htype
    cases hkind
    have hnull : Tree.argumentsOf [("type", Json.str "neg")] = .null := rfl
    simp only [hnull, Tree.decodeNode, Tree.decode] at hnode
    cases hnode

end SceneCode
