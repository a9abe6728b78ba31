import SceneCode.Proofs.Results
import SceneCode.Tree.Encode

/-!
# Which JSON stands for which tree

`Tree.Decodes v t` has a rule for every way to write a node.  It is the decoder without its faults:
`Tree.decode_eq_ok_iff`.

A sequence is read item by item, so the rules for a sequence take one item off an array and off the
tree; an array is never anything else than a sequence.
-/

namespace SceneCode

/-! ### Parts of nodes -/

namespace Json

/-- The value is a node of a kind, under any of its words, with these arguments. -/
def IsNode (v : Json) (kind : Kind) (arguments : Json) : Prop :=
  ∃ fields word, v = .obj fields ∧ fields.lookup "type" = some (.str word) ∧
    Kind.ofString? word = some kind ∧ Tree.argumentsOf fields = arguments

/-- The value is a name, bare or in an array of its own. -/
def IsName (v : Json) (name : String) : Prop :=
  v = .str name ∨ v = .arr [.str name]

/-- The value is a list of parameters. -/
def IsParams (v : Json) (params : List Param) : Prop :=
  v = .arr (params.map Param.encode) ∨ v = .str "" ∧ params = []

end Json

namespace Tree

variable {v a b : Json} {word name : String}

theorem expect_eq_ok {α : Type} {expected : Expected} {found : Option α} {x : α} :
    expect word expected v found = .ok x ↔ found = some x := by
  cases found <;> simp [expect]

theorem bool?_eq_some {b : Bool} : v.bool? = some b ↔ v = .bool b := by
  cases v <;> simp [Json.bool?]

theorem str?_eq_some {s : String} : v.str? = some s ↔ v = .str s := by
  cases v <;> simp [Json.str?]

theorem decodeString_eq_ok {s : String} : decodeString word v = .ok s ↔ v = .str s :=
  expect_eq_ok.trans str?_eq_some

theorem decodeType_eq_ok {type : TypeName} : decodeType word v = .ok type ↔ v = .str type.name := by
  simp only [decodeType, map_eq_ok, decodeString_eq_ok]
  constructor
  · rintro ⟨s, rfl, rfl⟩
    rfl
  · rintro rfl
    exact ⟨_, rfl, rfl⟩

theorem decodeName_eq_ok : decodeName word v = .ok name ↔ v.IsName name := by
  unfold decodeName Json.IsName
  split
  · simp [decodeString_eq_ok]
  · rename_i hother
    rw [decodeString_eq_ok]
    constructor
    · exact Or.inl
    · rintro (h | h)
      · exact h
      · exact absurd h (hother _)

theorem decodeParam_eq_ok {p : Param} : decodeParam v = .ok p ↔ v = p.encode := by
  unfold decodeParam Param.encode
  split
  · simp only [bind_eq_ok, pure_eq_ok, decodeType_eq_ok, decodeString_eq_ok]
    constructor
    · rintro ⟨type, rfl, name, rfl, rfl⟩
      rfl
    · intro h
      cases h
      exact ⟨_, rfl, _, rfl, rfl⟩
  · rename_i hother
    constructor
    · intro h
      cases h
    · intro h
      exact absurd h (hother _ _)

theorem decodeParams_eq_ok {params : List Param} :
    decodeParams v = .ok params ↔ v.IsParams params := by
  have hitems (items : List Json) (params : List Param) :
      items.mapM decodeParam = .ok params ↔ items = params.map Param.encode := by
    induction items generalizing params with
    | nil => simp [List.mapM_nil, pure_eq_ok, eq_comm (a := ([] : List Json))]
    | cons item rest ih =>
      simp only [List.mapM_cons, bind_eq_ok, pure_eq_ok, decodeParam_eq_ok, ih]
      constructor
      · rintro ⟨p, rfl, others, rfl, rfl⟩
        rfl
      · intro h
        cases params with
        | nil => cases h
        | cons p others =>
          cases h
          exact ⟨p, rfl, others, rfl, rfl⟩
  unfold decodeParams Json.IsParams
  split
  · simp [hitems]
  · simp [eq_comm]
  · rename_i harray hempty
    constructor
    · intro h
      cases h
    · rintro (h | ⟨h, -⟩)
      · exact absurd h (harray _)
      · exact absurd h hempty

/-! ### The rules -/

/-- The tree that a JSON value stands for. -/
inductive Decodes : Json → Tree → Prop where
  | empty : Decodes (.str "") .empty
  | nil : Decodes (.arr []) (.seq [])
  | cons {v : Json} {t : Tree} {vs : List Json} {ts : List Tree} (first : Decodes v t)
      (rest : Decodes (.arr vs) (.seq ts)) : Decodes (.arr (v :: vs)) (.seq (t :: ts))
  | program {v a : Json} {body : Tree} (node : v.IsNode .program a) (hbody : Decodes a body) :
      Decodes v (.program body)
  | block {v a : Json} {body : Tree} (node : v.IsNode .block a) (hbody : Decodes a body) :
      Decodes v (.block body)
  | function {v ps b : Json} {name : String} {params : List Param} {returns : TypeName}
      {body : Tree}
      (node : v.IsNode .function (.arr [.str name, ps, .str returns.name, b]))
      (hparams : ps.IsParams params) (hbody : Decodes b body) :
      Decodes v (.function name params returns body)
  | ret {v a : Json} {value : Tree} (node : v.IsNode .ret a) (hvalue : Decodes a value) :
      Decodes v (.ret value)
  | declare {v : Json} {type : TypeName} {name : String}
      (node : v.IsNode .declare (.arr [.str type.name, .str name])) :
      Decodes v (.declare type name)
  | declareWith {v a : Json} {type : TypeName} {name : String} {value : Tree}
      (node : v.IsNode .declareWith (.arr [.str type.name, .str name, a]))
      (hvalue : Decodes a value) : Decodes v (.declareWith type name value)
  | assign {v a : Json} {name : String} {value : Tree}
      (node : v.IsNode .assign (.arr [.str name, a])) (hvalue : Decodes a value) :
      Decodes v (.assign name value)
  | compound {v a : Json} {op : BinaryOp} {name : String} {value : Tree}
      (node : v.IsNode (.compound op) (.arr [.str name, a])) (hvalue : Decodes a value) :
      Decodes v (.compound op name value)
  | step {v a : Json} {op : StepOp} {name : String} (node : v.IsNode (.step op) a)
      (hname : a.IsName name) : Decodes v (.step op name)
  | ifThen {v c b : Json} {cond body : Tree} (node : v.IsNode .ifThen (.arr [c, b]))
      (hcond : Decodes c cond) (hbody : Decodes b body) : Decodes v (.ifThen cond body)
  | ifElse {v c b o : Json} {cond body other : Tree} (node : v.IsNode .ifElse (.arr [c, b, o]))
      (hcond : Decodes c cond) (hbody : Decodes b body) (hother : Decodes o other) :
      Decodes v (.ifElse cond body other)
  | whileLoop {v c b : Json} {cond body : Tree} (node : v.IsNode .whileLoop (.arr [c, b]))
      (hcond : Decodes c cond) (hbody : Decodes b body) : Decodes v (.whileLoop cond body)
  | doLoop {v c b : Json} {cond body : Tree} (node : v.IsNode .doLoop (.arr [c, b]))
      (hcond : Decodes c cond) (hbody : Decodes b body) : Decodes v (.doLoop cond body)
  | forLoop {v i c u b : Json} {init cond update body : Tree}
      (node : v.IsNode .forLoop (.arr [i, c, u, b])) (hinit : Decodes i init)
      (hcond : Decodes c cond) (hupdate : Decodes u update) (hbody : Decodes b body) :
      Decodes v (.forLoop init cond update body)
  | call {v : Json} {name : String} {vs : List Json} {args : List Tree}
      (node : v.IsNode .call (.arr [.str name, .arr vs])) (hargs : Decodes (.arr vs) (.seq args)) :
      Decodes v (.call name args)
  /-- A call without arguments has no array for them. -/
  | callNone {v : Json} {name : String} (node : v.IsNode .call (.arr [.str name, .str ""])) :
      Decodes v (.call name [])
  /-- A call with one argument that is a node has no array for it. -/
  | callOne {v : Json} {name : String} {fields : List (String × Json)} {arg : Tree}
      (node : v.IsNode .call (.arr [.str name, .obj fields])) (harg : Decodes (.obj fields) arg) :
      Decodes v (.call name [arg])
  | binary {v l r : Json} {op : BinaryOp} {lhs rhs : Tree}
      (node : v.IsNode (.binary op) (.arr [l, r])) (hlhs : Decodes l lhs) (hrhs : Decodes r rhs) :
      Decodes v (.binary op lhs rhs)
  | logical {v l r : Json} {op : LogicalOp} {lhs rhs : Tree}
      (node : v.IsNode (.logical op) (.arr [l, r])) (hlhs : Decodes l lhs) (hrhs : Decodes r rhs) :
      Decodes v (.logical op lhs rhs)
  | unary {v a : Json} {op : UnaryOp} {operand : Tree} (node : v.IsNode (.unary op) (.arr [a]))
      (hoperand : Decodes a operand) : Decodes v (.unary op operand)
  /-- An array of one value is the value, any other array a sequence. -/
  | unaryBare {v a : Json} {op : UnaryOp} {operand : Tree} (node : v.IsNode (.unary op) a)
      (hbare : ∀ b, a ≠ .arr [b]) (hoperand : Decodes a operand) : Decodes v (.unary op operand)
  | ident {v a : Json} {name : String} (node : v.IsNode .ident a) (hname : a.IsName name) :
      Decodes v (.ident name)
  | int {v a : Json} {n : Int} (node : v.IsNode .int a) (hn : a.int64? = some n) :
      Decodes v (.lit (.int (.ofInt n)))
  | float {v a : Json} {x : Binary64} (node : v.IsNode .float a) (hx : a.binary64? = some x) :
      Decodes v (.lit (.float x))
  | bool {v : Json} {b : Bool} (node : v.IsNode .bool (.bool b)) : Decodes v (.lit (.bool b))
  | str {v : Json} {s : String} (node : v.IsNode .str (.str s)) : Decodes v (.lit (.str s))

/-! ### The decoder follows the rules -/

theorem decode_of_isNode {kind : Kind} {t : Tree} (h : v.IsNode kind a)
    (hnode : ∀ word, decodeNode word kind a = .ok t) : decode v = .ok t := by
  obtain ⟨fields, word, rfl, htype, hkind, rfl⟩ := h
  rw [decode, htype]
  simp only [decodeKind, hkind]
  exact hnode word

theorem decode_arr_eq_ok {vs : List Json} {t : Tree} :
    decode (.arr vs) = .ok t ↔ ∃ ts, decodeAll vs = .ok ts ∧ t = .seq ts := by
  rw [decode, bind_eq_ok]
  simp only [pure_eq_ok]

theorem decode_of_decodes {t : Tree} (h : Decodes v t) : decode v = .ok t := by
  induction h with
  | empty =>
    rw [decode]
    rfl
  | nil => exact decode_arr_eq_ok.mpr ⟨[], by rw [decodeAll]; rfl, rfl⟩
  | cons _ _ ih₁ ih₂ =>
    obtain ⟨ts, hall, hseq⟩ := decode_arr_eq_ok.mp ih₂
    cases hseq
    refine decode_arr_eq_ok.mpr ⟨_, ?_, rfl⟩
    rw [decodeAll, ih₁, hall]
    rfl
  | program node _ ih =>
    refine decode_of_isNode node fun word => ?_
    rw [decodeNode, ih]
    rfl
  | block node _ ih =>
    refine decode_of_isNode node fun word => ?_
    rw [decodeNode, ih]
    rfl
  | function node hparams _ ih =>
    refine decode_of_isNode node fun word => ?_
    rw [decodeNode, decodeString_eq_ok.mpr rfl, decodeParams_eq_ok.mpr hparams,
      decodeType_eq_ok.mpr rfl, ih]
    rfl
  | ret node _ ih =>
    refine decode_of_isNode node fun word => ?_
    rw [decodeNode, ih]
    rfl
  | declare node =>
    refine decode_of_isNode node fun word => ?_
    rw [decodeNode, decodeType_eq_ok.mpr rfl, decodeString_eq_ok.mpr rfl]
    rfl
  | declareWith node _ ih =>
    refine decode_of_isNode node fun word => ?_
    rw [decodeNode, decodeType_eq_ok.mpr rfl, decodeString_eq_ok.mpr rfl, ih]
    rfl
  | assign node _ ih =>
    refine decode_of_isNode node fun word => ?_
    rw [decodeNode, decodeString_eq_ok.mpr rfl, ih]
    rfl
  | compound node _ ih =>
    refine decode_of_isNode node fun word => ?_
    rw [decodeNode, decodeString_eq_ok.mpr rfl, ih]
    rfl
  | step node hname =>
    refine decode_of_isNode node fun word => ?_
    rw [decodeNode, decodeName_eq_ok.mpr hname]
    rfl
  | ifThen node _ _ ih₁ ih₂ =>
    refine decode_of_isNode node fun word => ?_
    rw [decodeNode, ih₁, ih₂]
    rfl
  | ifElse node _ _ _ ih₁ ih₂ ih₃ =>
    refine decode_of_isNode node fun word => ?_
    rw [decodeNode, ih₁, ih₂, ih₃]
    rfl
  | whileLoop node _ _ ih₁ ih₂ =>
    refine decode_of_isNode node fun word => ?_
    rw [decodeNode, ih₁, ih₂]
    rfl
  | doLoop node _ _ ih₁ ih₂ =>
    refine decode_of_isNode node fun word => ?_
    rw [decodeNode, ih₁, ih₂]
    rfl
  | forLoop node _ _ _ _ ih₁ ih₂ ih₃ ih₄ =>
    refine decode_of_isNode node fun word => ?_
    rw [decodeNode, ih₁, ih₂, ih₃, ih₄]
    rfl
  | call node _ ih =>
    obtain ⟨ts, hall, hseq⟩ := decode_arr_eq_ok.mp ih
    cases hseq
    refine decode_of_isNode node fun word => ?_
    rw [decodeNode, hall, decodeString_eq_ok.mpr rfl]
    rfl
  | callNone node =>
    refine decode_of_isNode node fun word => ?_
    rw [decodeNode, decodeString_eq_ok.mpr rfl]
    rfl
  | callOne node _ ih =>
    refine decode_of_isNode node fun word => ?_
    rw [decodeNode, ih, decodeString_eq_ok.mpr rfl]
    · rfl
    · exact fun _ => Json.noConfusion
    · exact Json.noConfusion
  | binary node _ _ ih₁ ih₂ =>
    refine decode_of_isNode node fun word => ?_
    rw [decodeNode, ih₁, ih₂]
    rfl
  | logical node _ _ ih₁ ih₂ =>
    refine decode_of_isNode node fun word => ?_
    rw [decodeNode, ih₁, ih₂]
    rfl
  | unary node _ ih =>
    refine decode_of_isNode node fun word => ?_
    rw [decodeNode, ih]
    rfl
  | unaryBare node hbare _ ih =>
    refine decode_of_isNode node fun word => ?_
    rw [decodeNode, ih]
    · rfl
    · exact hbare
  | ident node hname =>
    refine decode_of_isNode node fun word => ?_
    rw [decodeNode, decodeName_eq_ok.mpr hname]
    rfl
  | int node hn =>
    refine decode_of_isNode node fun word => ?_
    rw [decodeNode, expect_eq_ok.mpr hn]
    rfl
  | float node hx =>
    refine decode_of_isNode node fun word => ?_
    rw [decodeNode, expect_eq_ok.mpr hx]
    rfl
  | bool node =>
    refine decode_of_isNode node fun word => ?_
    rw [decodeNode]
    rfl
  | str node =>
    refine decode_of_isNode node fun word => ?_
    rw [decodeNode]
    rfl

/-- A tree that is neither a sequence nor nothing is a node. -/
theorem exists_obj_of_decode {t : Tree} (harray : ∀ vs, v ≠ .arr vs) (hempty : v ≠ .str "")
    (h : decode v = .ok t) : ∃ fields, v = .obj fields := by
  unfold decode at h
  split at h
  · exact absurd rfl (harray _)
  · exact absurd rfl hempty
  · exact ⟨_, rfl⟩
  · cases h

theorem decodes_of_decodeAll {vs : List Json} {ts : List Tree}
    (ih : ∀ v ∈ vs, ∀ t, decode v = .ok t → Decodes v t) (h : decodeAll vs = .ok ts) :
    Decodes (.arr vs) (.seq ts) := by
  induction vs generalizing ts with
  | nil =>
    rw [decodeAll, pure_eq_ok] at h
    rw [h]
    exact .nil
  | cons v rest ihrest =>
    simp only [decodeAll, bind_eq_ok, pure_eq_ok] at h
    obtain ⟨t, hfirst, others, hothers, rfl⟩ := h
    obtain ⟨hv, hrest⟩ := List.forall_mem_cons.mp ih
    exact .cons (hv t hfirst) (ihrest hrest hothers)

/-- The arguments of a node are decoded as trees themselves or are an array of which some items are,
    so the rules need only be known for these. -/
theorem decodes_of_decodeNode {kind : Kind} {t : Tree} (node : v.IsNode kind a)
    (self : ∀ t, decode a = .ok t → Decodes a t)
    (items : ∀ vs, a = .arr vs → ∀ w ∈ vs, ∀ t, decode w = .ok t → Decodes w t)
    (h : decodeNode word kind a = .ok t) : Decodes v t := by
  unfold decodeNode at h
  split at h
  all_goals simp only [bind_eq_ok, pure_eq_ok, decodeString_eq_ok, decodeType_eq_ok,
    decodeParams_eq_ok, decodeName_eq_ok, expect_eq_ok, reduceCtorEq] at h
  · obtain ⟨body, hbody, rfl⟩ := h
    exact .program node (self _ hbody)
  · obtain ⟨body, hbody, rfl⟩ := h
    exact .block node (self _ hbody)
  · obtain ⟨value, hvalue, rfl⟩ := h
    exact .ret node (self _ hvalue)
  · obtain ⟨name, rfl, params, hparams, returns, rfl, body, hbody, rfl⟩ := h
    exact .function node hparams (items _ rfl _ (by simp) _ hbody)
  · obtain ⟨type, rfl, name, rfl, rfl⟩ := h
    exact .declare node
  · obtain ⟨type, rfl, name, rfl, value, hvalue, rfl⟩ := h
    exact .declareWith node (items _ rfl _ (by simp) _ hvalue)
  · obtain ⟨name, rfl, value, hvalue, rfl⟩ := h
    exact .assign node (items _ rfl _ (by simp) _ hvalue)
  · obtain ⟨name, rfl, value, hvalue, rfl⟩ := h
    exact .compound node (items _ rfl _ (by simp) _ hvalue)
  · obtain ⟨name, hname, rfl⟩ := h
    exact .step node hname
  · obtain ⟨cond, hcond, body, hbody, rfl⟩ := h
    exact .ifThen node (items _ rfl _ (by simp) _ hcond) (items _ rfl _ (by simp) _ hbody)
  · obtain ⟨cond, hcond, body, hbody, other, hother, rfl⟩ := h
    exact .ifElse node (items _ rfl _ (by simp) _ hcond) (items _ rfl _ (by simp) _ hbody)
      (items _ rfl _ (by simp) _ hother)
  · obtain ⟨cond, hcond, body, hbody, rfl⟩ := h
    exact .whileLoop node (items _ rfl _ (by simp) _ hcond) (items _ rfl _ (by simp) _ hbody)
  · obtain ⟨cond, hcond, body, hbody, rfl⟩ := h
    exact .doLoop node (items _ rfl _ (by simp) _ hcond) (items _ rfl _ (by simp) _ hbody)
  · obtain ⟨init, hinit, cond, hcond, update, hupdate, body, hbody, rfl⟩ := h
    exact .forLoop node (items _ rfl _ (by simp) _ hinit) (items _ rfl _ (by simp) _ hcond)
      (items _ rfl _ (by simp) _ hupdate) (items _ rfl _ (by simp) _ hbody)
  · obtain ⟨args, hargs, name, rfl, rfl⟩ := h
    have hseq := decode_arr_eq_ok.mpr ⟨args, hargs, rfl⟩
    exact .call node (items _ rfl _ (by simp) _ hseq)
  · obtain ⟨name, rfl, rfl⟩ := h
    exact .callNone node
  · rename_i harray hempty
    obtain ⟨arg, harg, name, rfl, rfl⟩ := h
    obtain ⟨fields, rfl⟩ := exists_obj_of_decode harray hempty harg
    exact .callOne node (items _ rfl _ (by simp) _ harg)
  · obtain ⟨lhs, hlhs, rhs, hrhs, rfl⟩ := h
    exact .binary node (items _ rfl _ (by simp) _ hlhs) (items _ rfl _ (by simp) _ hrhs)
  · obtain ⟨lhs, hlhs, rhs, hrhs, rfl⟩ := h
    exact .logical node (items _ rfl _ (by simp) _ hlhs) (items _ rfl _ (by simp) _ hrhs)
  · obtain ⟨operand, hoperand, rfl⟩ := h
    exact .unary node (items _ rfl _ (by simp) _ hoperand)
  · rename_i hbare
    obtain ⟨operand, hoperand, rfl⟩ := h
    exact .unaryBare node hbare (self _ hoperand)
  · obtain ⟨name, hname, rfl⟩ := h
    exact .ident node hname
  · obtain ⟨n, hn, rfl⟩ := h
    exact .int node hn
  · obtain ⟨x, hx, rfl⟩ := h
    exact .float node hx
  · obtain ⟨b, hb, rfl⟩ := h
    cases bool?_eq_some.mp hb
    exact .bool node
  · obtain ⟨s, hs, rfl⟩ := h
    cases str?_eq_some.mp hs
    exact .str node

theorem decodeKind_eq_ok {type : Option Json} {kind : Kind}
    (h : decodeKind type = .ok (word, kind)) :
    type = some (.str word) ∧ Kind.ofString? word = some kind := by
  unfold decodeKind at h
  split at h
  · split at h
    · cases h
      exact ⟨rfl, ‹_›⟩
    · cases h
  · cases h
  · cases h

theorem exists_isNode_of_decode {fields : List (String × Json)} {t : Tree}
    (h : decode (.obj fields) = .ok t) :
    ∃ word kind, (Json.obj fields).IsNode kind (argumentsOf fields) ∧
      decodeNode word kind (argumentsOf fields) = .ok t := by
  rw [decode, bind_eq_ok] at h
  obtain ⟨⟨word, kind⟩, hkind, h⟩ := h
  obtain ⟨htype, hkind⟩ := decodeKind_eq_ok hkind
  exact ⟨word, kind, ⟨fields, word, rfl, htype, hkind, rfl⟩, h⟩

theorem decodes_of_decode {t : Tree} (h : decode v = .ok t) : Decodes v t := by
  induction hsize : sizeOf v using Nat.strongRecOn generalizing v t with
  | ind n ih =>
    subst hsize
    have hsmaller {w : Json} {t : Tree} (hw : sizeOf w < sizeOf v) (ht : decode w = .ok t) :
        Decodes w t := ih _ hw ht rfl
    match v with
    | .arr vs =>
      obtain ⟨ts, hall, rfl⟩ := decode_arr_eq_ok.mp h
      refine decodes_of_decodeAll (fun w hw t ht => hsmaller ?_ ht) hall
      have hitem := List.sizeOf_lt_of_mem hw
      simp only [Json.arr.sizeOf_spec]
      omega
    | .obj fields =>
      obtain ⟨word, kind, node, h⟩ := exists_isNode_of_decode h
      have hargs := sizeOf_argumentsOf_lt fields
      refine decodes_of_decodeNode node (fun t ht => hsmaller hargs ht) ?_ h
      intro vs hvs w hw t ht
      have hitem := List.sizeOf_lt_of_mem hw
      rw [hvs, Json.arr.sizeOf_spec] at hargs
      exact hsmaller (by omega) ht
    | .str s =>
      by_cases hempty : s = ""
      · subst hempty
        rw [decode, pure_eq_ok] at h
        rw [h]
        exact .empty
      · rw [decode] at h
        · cases h
        all_goals simp [hempty]
    | .null | .bool _ | .num _ =>
      rw [decode] at h
      · cases h
      all_goals simp

/-- **The decoder accepts what the rules give, and nothing else.** -/
theorem decode_eq_ok_iff {t : Tree} : decode v = .ok t ↔ Decodes v t :=
  ⟨decodes_of_decode, decode_of_decodes⟩

end Tree

end SceneCode
