import Mathlib.Data.List.Forall2
import SceneCode.Proofs.Decoding.RoundTrip

/-!
# Words for the same kind

Many kinds of nodes have a short word and a long one.  It does not matter which of them a node is
written with: JSON in which words are exchanged for others of the same kind is decoded to the same
tree, or refused for the same reason (`spellings_interchangeable`).  A refusal may show words that
have been exchanged, so two refusals are compared up to these.
-/

namespace SceneCode

/-! ### Words -/

namespace Kind

/-- The words for a kind. -/
def words : Kind → List String
  | .program => ["program"]
  | .block => ["block"]
  | .function => ["function"]
  | .ret => ["return"]
  | .declare => ["variableDecl", "variable-decl"]
  | .declareWith => ["variableDeclAssign", "variable-decl-assign"]
  | .assign => ["assign"]
  | .compound .add => ["addAssign", "add_assign"]
  | .compound .sub => ["subAssign", "sub_assign"]
  | .compound .mul => ["multAssign", "multi_assign"]
  | .compound .div => ["divAssign", "div_assign"]
  | .compound .mod => ["modAssign", "mod_assign"]
  | .compound _ => []
  | .step .increment => ["increment"]
  | .step .decrement => ["decrement"]
  | .ifThen => ["if"]
  | .ifElse => ["ifElse", "ifelse"]
  | .whileLoop => ["while"]
  | .doLoop => ["doWhile", "do_while"]
  | .forLoop => ["for"]
  | .call => ["call"]
  | .binary .add => ["add", "addition"]
  | .binary .sub => ["sub", "minus"]
  | .binary .mul => ["mul", "multiplication"]
  | .binary .div => ["div", "division"]
  | .binary .mod => ["mod", "modulo"]
  | .binary .eq => ["eq", "equality"]
  | .binary .ne => ["neq", "not-equal"]
  | .binary .lt => ["lt", "less-than"]
  | .binary .le => ["le", "less-than-or-equal"]
  | .binary .gt => ["gt", "larger-than"]
  | .binary .ge => ["ge", "greater-than-or-equal"]
  | .binary .bitAnd => ["bit-AND"]
  | .binary .bitOr => ["bit-OR"]
  | .binary .bitXor => ["bit-XOR"]
  | .binary .shl => ["bit-left-shift"]
  | .binary .shr => ["bit-right-shift"]
  | .binary .ushr => ["zero-fill-right-shift"]
  | .logical .and => ["and"]
  | .logical .or => ["or"]
  | .unary .neg => ["neg"]
  | .unary .not => ["not"]
  | .ident => ["identifier"]
  | .int => ["int"]
  | .float => ["float"]
  | .bool => ["bool"]
  | .str => ["string"]

/-- The table of the decoder has these words and no others. -/
theorem ofString?_eq_some_iff {word : String} {kind : Kind} :
    ofString? word = some kind ↔ word ∈ kind.words := by
  constructor
  · intro h
    have htable : ∀ e ∈ table, e.1 ∈ e.2.words := by decide
    obtain ⟨before, after, hsplit, -⟩ := List.lookup_eq_some_iff.mp h
    apply htable (word, kind)
    rw [hsplit]
    simp
  · have hwords : ∀ w ∈ kind.words, ofString? w = some kind := by
      unfold words
      split
      any_goals decide
      -- No word stands for an assignment with any other operator.
      exact nofun
    exact hwords word

/-- The words are the same or stand for the same kind. -/
def SameWord (word word' : String) : Prop :=
  word = word' ∨ ∃ kind : Kind, word ∈ kind.words ∧ word' ∈ kind.words

/-- How many arguments a node of the kind has, if they are given by position. -/
def arity? : Kind → Option Nat
  | .declare | .assign | .compound _ | .ifThen | .whileLoop | .doLoop | .call | .binary _
  | .logical _ => some 2
  | .declareWith | .ifElse => some 3
  | .function | .forLoop => some 4
  | _ => none

end Kind

open Kind (SameWord)

/-! ### JSON with other words -/

namespace Json

/-- The second value is the first in which words for kinds may have been exchanged for others of the
    same kind.  Such a word is the type of an object, anywhere in the value. -/
inductive Respelled : Json → Json → Prop where
  | same (v : Json) : Respelled v v
  | item {v w : Json} {vs ws : List Json} (first : Respelled v w)
      (rest : Respelled (.arr vs) (.arr ws)) : Respelled (.arr (v :: vs)) (.arr (w :: ws))
  | field {name : String} {v w : Json} {fs gs : List (String × Json)} (first : Respelled v w)
      (rest : Respelled (.obj fs) (.obj gs)) :
      Respelled (.obj ((name, v) :: fs)) (.obj ((name, w) :: gs))
  | type {kind : Kind} {word word' : String} {fs gs : List (String × Json)}
      (hword : word ∈ kind.words) (hword' : word' ∈ kind.words)
      (rest : Respelled (.obj fs) (.obj gs)) :
      Respelled (.obj (("type", .str word) :: fs)) (.obj (("type", .str word') :: gs))

namespace Respelled

variable {v w : Json}

theorem symm (h : Respelled v w) : Respelled w v := by
  induction h with
  | same v => exact .same v
  | item _ _ ih₁ ih₂ => exact .item ih₁ ih₂
  | field _ _ ih₁ ih₂ => exact .field ih₁ ih₂
  | type hword hword' _ ih => exact .type hword' hword ih

theorem arr {vs : List Json} (h : Respelled (.arr vs) w) :
    ∃ ws, w = .arr ws ∧ List.Forall₂ Respelled vs ws := by
  induction vs generalizing w with
  | nil =>
    cases h with
    | same => exact ⟨[], rfl, .nil⟩
  | cons v vs ih =>
    cases h with
    | same => exact ⟨v :: vs, rfl, List.forall₂_same.mpr fun x _ => .same x⟩
    | item first rest =>
      obtain ⟨ws, heq, hrest⟩ := ih rest
      cases heq
      exact ⟨_, rfl, .cons first hrest⟩

/-- Both values are arrays of `n` items that differ in words only, or neither is one. -/
theorem arity (h : Respelled v w) (n : Nat) :
    (∃ vs ws, v = .arr vs ∧ w = .arr ws ∧ vs.length = n ∧ List.Forall₂ Respelled vs ws) ∨
      (∀ vs, v = .arr vs → vs.length ≠ n) ∧ ∀ ws, w = .arr ws → ws.length ≠ n := by
  by_cases harray : ∃ vs, v = .arr vs ∧ vs.length = n
  · obtain ⟨vs, rfl, hlength⟩ := harray
    obtain ⟨ws, hw, hitems⟩ := h.arr
    exact Or.inl ⟨vs, ws, rfl, hw, hlength, hitems⟩
  · refine Or.inr ⟨fun vs hv hlength => harray ⟨vs, hv, hlength⟩, ?_⟩
    rintro ws rfl hlength
    obtain ⟨vs, hv, hitems⟩ := h.symm.arr
    exact harray ⟨vs, hv, hitems.length_eq.symm.trans hlength⟩

theorem obj {fs : List (String × Json)} (h : Respelled (.obj fs) w) : ∃ gs, w = .obj gs := by
  cases h with
  | same => exact ⟨_, rfl⟩
  | field => exact ⟨_, rfl⟩
  | type => exact ⟨_, rfl⟩

/-- The fields of a name have values that differ in words only, unless the values are words. -/
theorem lookup {fs gs : List (String × Json)} (h : Respelled (.obj fs) (.obj gs)) (name : String) :
    Option.Rel Respelled (fs.lookup name) (gs.lookup name) ∨
      ∃ (kind : Kind) (word word' : String), word ∈ kind.words ∧ word' ∈ kind.words ∧
        name = "type" ∧ fs.lookup name = some (.str word) ∧ gs.lookup name = some (.str word') := by
  have hsame (found : Option Json) : Option.Rel Respelled found found := by
    cases found with
    | none => exact .none
    | some v => exact .some (.same v)
  induction fs generalizing gs with
  | nil =>
    cases h with
    | same => exact Or.inl .none
  | cons f fs ih =>
    cases h with
    | same => exact Or.inl (hsame _)
    | @field other v w _ gs first rest =>
      rw [List.lookup_cons, List.lookup_cons]
      cases name == other with
      | true => exact Or.inl (.some first)
      | false => exact ih rest
    | type hword hword' rest =>
      rw [List.lookup_cons, List.lookup_cons]
      cases hname : name == "type" with
      | true => exact Or.inr ⟨_, _, _, hword, hword', eq_of_beq hname, rfl, rfl⟩
      | false => exact ih rest

theorem argumentsOf {fs gs : List (String × Json)} (h : Respelled (.obj fs) (.obj gs)) :
    Respelled (Tree.argumentsOf fs) (Tree.argumentsOf gs) := by
  unfold Tree.argumentsOf
  rcases h.lookup "arguments" with hrel | ⟨_, _, _, -, -, hname, -⟩
  · generalize fs.lookup "arguments" = found, gs.lookup "arguments" = found' at hrel
    cases hrel with
    | none => exact .same _
    | some hargs => exact hargs
  · exact absurd hname (by decide)

end Respelled

end Json

/-! ### Refusals with other words -/

/-- The refusals have the same reason.  A word that names no kind is the same in both. -/
inductive DecodeError.Alike : DecodeError → DecodeError → Prop where
  | unknownKind (word : String) : Alike (.unknownKind word) (.unknownKind word)
  | notATree {v w : Json} (found : v.Respelled w) : Alike (.notATree v) (.notATree w)
  | noType : Alike .noType .noType
  | mismatch {word word' : String} {v w : Json} (expected : Expected) (hword : SameWord word word')
      (found : v.Respelled w) : Alike (.mismatch word expected v) (.mismatch word' expected w)

theorem DecodeError.Alike.refl (e : DecodeError) : e.Alike e := by
  cases e with
  | unknownKind word => exact .unknownKind word
  | notATree found => exact .notATree (.same found)
  | noType => exact .noType
  | mismatch word expected found => exact .mismatch expected (Or.inl rfl) (.same found)

namespace Tree

open Json (Respelled)

/-- The results are the same, or both are refusals that have the same reason. -/
abbrev DecodedAlike {α : Type} (x y : Except DecodeError α) : Prop :=
  EndAlike DecodeError.Alike x y

variable {v w a b : Json} {word word' : String}

/-- The words of an object differ, if they do, for the same kind. -/
theorem decodeKind_respelled {α : Type} {fs gs : List (String × Json)}
    {f g : String × Kind → Except DecodeError α} (h : Respelled (.obj fs) (.obj gs))
    (hnode : ∀ word word' kind, SameWord word word' →
      DecodedAlike (f (word, kind)) (g (word', kind))) :
    DecodedAlike (decodeKind (fs.lookup "type") >>= f) (decodeKind (gs.lookup "type") >>= g) := by
  have hsame (found : Option Json) :
      DecodedAlike (decodeKind found >>= f) (decodeKind found >>= g) :=
    (EndAlike.refl .refl _).bind fun (word, kind) => hnode word word kind (Or.inl rfl)
  rcases h.lookup "type" with hrel | ⟨kind, word, word', hword, hword', -, hfs, hgs⟩
  · generalize fs.lookup "type" = found, gs.lookup "type" = found' at hrel
    cases hrel with
    | none => exact hsame none
    | some hvalue =>
      cases hvalue with
      | same => exact hsame _
      -- An array or an object names no kind.
      | item | field | type => exact .error .noType
  · rw [hfs, hgs]
    simp only [decodeKind, Kind.ofString?_eq_some_iff.mpr hword,
      Kind.ofString?_eq_some_iff.mpr hword']
    exact hnode word word' kind (Or.inr ⟨kind, hword, hword'⟩)

/-- What is taken out of a value that is neither an array nor an object has no words in it. -/
theorem expect_respelled {α : Type} {expected : Expected} {view : Json → Option α}
    (harr : ∀ vs, view (.arr vs) = none) (hobj : ∀ fs, view (.obj fs) = none)
    (hword : SameWord word word') (h : Respelled v w) :
    DecodedAlike (expect word expected v (view v)) (expect word' expected w (view w)) := by
  have hview : view v = view w := by
    cases h with
    | same => rfl
    | item => rw [harr, harr]
    | field | type => rw [hobj, hobj]
  rw [hview]
  cases view w with
  | some x => exact .ok x
  | none => exact .error (.mismatch expected hword h)

theorem decodeString_respelled (hword : SameWord word word') (h : Respelled v w) :
    DecodedAlike (decodeString word v) (decodeString word' w) :=
  expect_respelled (fun _ => rfl) (fun _ => rfl) hword h

theorem decodeType_respelled (hword : SameWord word word') (h : Respelled v w) :
    DecodedAlike (decodeType word v) (decodeType word' w) :=
  (decodeString_respelled hword h).map _

theorem decodeName_respelled (hword : SameWord word word') (h : Respelled v w) :
    DecodedAlike (decodeName word v) (decodeName word' w) := by
  rcases h.arity 1 with ⟨vs, ws, rfl, rfl, hlength, hitems⟩ | ⟨hv, hw⟩
  · match vs, ws, hlength, hitems with
    | [x], [y], _, .cons hxy .nil => exact decodeString_respelled hword hxy
  · rw [decodeName, decodeName]
    · exact decodeString_respelled hword h
    · exact fun y hy => hw _ hy rfl
    · exact fun x hx => hv _ hx rfl

theorem decodeParam_respelled (h : Respelled v w) :
    DecodedAlike (decodeParam v) (decodeParam w) := by
  have hword : SameWord "parameter" "parameter" := Or.inl rfl
  rcases h.arity 2 with ⟨vs, ws, rfl, rfl, hlength, hitems⟩ | ⟨hv, hw⟩
  · match vs, ws, hlength, hitems with
    | [_, _], [_, _], _, .cons htype (.cons hname .nil) =>
      exact (decodeType_respelled hword htype).bind fun _ =>
        (decodeString_respelled hword hname).bind fun _ => .ok _
  · rw [decodeParam, decodeParam]
    · exact .error (.mismatch _ hword h)
    · exact fun _ _ hy => hw _ hy rfl
    · exact fun _ _ hx => hv _ hx rfl

theorem decodeParams_respelled (h : Respelled v w) :
    DecodedAlike (decodeParams v) (decodeParams w) := by
  have hitems {vs ws : List Json} (h : List.Forall₂ Respelled vs ws) :
      DecodedAlike (vs.mapM decodeParam) (ws.mapM decodeParam) := by
    induction h with
    | nil => exact .ok []
    | cons first _ ih =>
      rw [List.mapM_cons, List.mapM_cons]
      exact (decodeParam_respelled first).bind fun _ => ih.bind fun _ => .ok _
  cases h with
  | same v => exact .refl .refl _
  | item first rest =>
    obtain ⟨ws, heq, hall⟩ := rest.arr
    cases heq
    exact hitems (.cons first hall)
  | field first rest => exact .error (.mismatch _ (Or.inl rfl) (.field first rest))
  | type hword hword' rest => exact .error (.mismatch _ (Or.inl rfl) (.type hword hword' rest))

theorem decodeNode_mismatch {kind : Kind} {n : Nat} (hn : kind.arity? = some n)
    (ha : ∀ vs, a = .arr vs → vs.length ≠ n) :
    decodeNode word kind a = .error (.mismatch word (.arguments n) a) := by
  cases kind <;> cases hn
  all_goals
    rw [decodeNode]
    all_goals
      intros
      exact ha _ ‹_› rfl

/-- The values differ in words only, and it is known that they are decoded alike. -/
structure ReadAlike (v w : Json) : Prop where
  respelled : v.Respelled w
  decoded : DecodedAlike (decode v) (decode w)

theorem decodeAll_respelled {vs ws : List Json} (h : List.Forall₂ ReadAlike vs ws) :
    DecodedAlike (decodeAll vs) (decodeAll ws) := by
  induction h with
  | nil => exact .refl .refl _
  | cons first _ ih =>
    rw [decodeAll, decodeAll]
    exact first.decoded.bind fun _ => ih.bind fun _ => .ok _

theorem decode_arr_respelled {vs ws : List Json} :
    DecodedAlike (decode (.arr vs)) (decode (.arr ws)) ↔
      DecodedAlike (decodeAll vs) (decodeAll ws) := by
  rw [decode, decode]
  constructor
  · intro h
    cases hvs : decodeAll vs <;> cases hws : decodeAll ws <;> rw [hvs, hws] at h <;> cases h
    · exact .error ‹_›
    · exact .ok _
  · intro h
    exact h.bind fun _ => .ok _

/-- The arguments of a call are an array, the empty text or anything else, in both values. -/
theorem decodeCall_respelled {n n' : Json} (hword : SameWord word word') (hname : n.Respelled n')
    (hargs : ReadAlike a b) :
    DecodedAlike (decodeNode word .call (.arr [n, a])) (decodeNode word' .call (.arr [n', b])) := by
  have hstring := decodeString_respelled hword hname
  have hdecoded := hargs.decoded
  have hrespelled := hargs.respelled
  by_cases harray : ∃ vs, a = .arr vs
  · obtain ⟨vs, rfl⟩ := harray
    obtain ⟨ws, rfl, -⟩ := hrespelled.arr
    rw [decodeNode, decodeNode]
    exact (decode_arr_respelled.mp hdecoded).bind fun _ => hstring.bind fun _ => .ok _
  by_cases hempty : a = .str ""
  · subst hempty
    cases hrespelled
    rw [decodeNode, decodeNode]
    exact hstring.bind fun _ => .ok _
  · have harray' : ∀ ws, b ≠ .arr ws := by
      rintro ws rfl
      obtain ⟨vs, hvs, -⟩ := hrespelled.symm.arr
      exact harray ⟨vs, hvs⟩
    have hempty' : b ≠ .str "" := by
      rintro rfl
      cases hrespelled
      exact hempty rfl
    rw [decodeNode, decodeNode]
    · exact hdecoded.bind fun _ => hstring.bind fun _ => .ok _
    · exact harray'
    · exact hempty'
    · exact not_exists.mp harray
    · exact hempty

theorem decodeNode_two {kind : Kind} {a' b' : Json} (hword : SameWord word word')
    (hkind : kind.arity? = some 2) (ha : ReadAlike a a') (hb : ReadAlike b b') :
    DecodedAlike (decodeNode word kind (.arr [a, b])) (decodeNode word' kind (.arr [a', b'])) := by
  cases kind
  case declare =>
    rw [decodeNode, decodeNode]
    exact (decodeType_respelled hword ha.respelled).bind fun _ =>
      (decodeString_respelled hword hb.respelled).bind fun _ => .ok _
  case assign | compound =>
    rw [decodeNode, decodeNode]
    exact (decodeString_respelled hword ha.respelled).bind fun _ => hb.decoded.bind fun _ => .ok _
  case ifThen | whileLoop | doLoop | binary | logical =>
    rw [decodeNode, decodeNode]
    exact ha.decoded.bind fun _ => hb.decoded.bind fun _ => .ok _
  case call => exact decodeCall_respelled hword ha.respelled hb
  all_goals cases hkind

theorem decodeNode_three {kind : Kind} {c a' b' c' : Json} (hword : SameWord word word')
    (hkind : kind.arity? = some 3) (ha : ReadAlike a a') (hb : ReadAlike b b')
    (hc : ReadAlike c c') :
    DecodedAlike (decodeNode word kind (.arr [a, b, c]))
      (decodeNode word' kind (.arr [a', b', c'])) := by
  cases kind
  case declareWith =>
    rw [decodeNode, decodeNode]
    exact (decodeType_respelled hword ha.respelled).bind fun _ =>
      (decodeString_respelled hword hb.respelled).bind fun _ => hc.decoded.bind fun _ => .ok _
  case ifElse =>
    rw [decodeNode, decodeNode]
    exact ha.decoded.bind fun _ => hb.decoded.bind fun _ => hc.decoded.bind fun _ => .ok _
  all_goals cases hkind

theorem decodeNode_four {kind : Kind} {c d a' b' c' d' : Json} (hword : SameWord word word')
    (hkind : kind.arity? = some 4) (ha : ReadAlike a a') (hb : ReadAlike b b')
    (hc : ReadAlike c c') (hd : ReadAlike d d') :
    DecodedAlike (decodeNode word kind (.arr [a, b, c, d]))
      (decodeNode word' kind (.arr [a', b', c', d'])) := by
  cases kind
  case function =>
    rw [decodeNode, decodeNode]
    exact (decodeString_respelled hword ha.respelled).bind fun _ =>
      (decodeParams_respelled hb.respelled).bind fun _ =>
      (decodeType_respelled hword hc.respelled).bind fun _ => hd.decoded.bind fun _ => .ok _
  case forLoop =>
    rw [decodeNode, decodeNode]
    exact ha.decoded.bind fun _ => hb.decoded.bind fun _ => hc.decoded.bind fun _ =>
      hd.decoded.bind fun _ => .ok _
  all_goals cases hkind

theorem decodeNode_positional {kind : Kind} {vs ws : List Json} (hword : SameWord word word')
    (hkind : kind.arity? = some vs.length) (h : List.Forall₂ ReadAlike vs ws) :
    DecodedAlike (decodeNode word kind (.arr vs)) (decodeNode word' kind (.arr ws)) := by
  rcases h with _ | ⟨ha, _ | ⟨hb, _ | ⟨hc, _ | ⟨hd, _ | _⟩⟩⟩⟩
  · cases kind <;> cases hkind
  · cases kind <;> cases hkind
  · exact decodeNode_two hword hkind ha hb
  · exact decodeNode_three hword hkind ha hb hc
  · exact decodeNode_four hword hkind ha hb hc hd
  · cases kind <;> cases hkind

/-- A unary operator takes the item of an array of one item, in both values. -/
theorem decodeUnary_respelled {op : UnaryOp} (h : ReadAlike a b)
    (hitems : ∀ vs ws, a = .arr vs → b = .arr ws → List.Forall₂ ReadAlike vs ws) :
    DecodedAlike (decodeNode word (.unary op) a) (decodeNode word' (.unary op) b) := by
  rcases h.respelled.arity 1 with ⟨vs, ws, rfl, rfl, hlength, -⟩ | ⟨ha, hb⟩
  · match vs, ws, hlength, hitems vs ws rfl rfl with
    | [_], [_], _, .cons hoperand .nil =>
      rw [decodeNode, decodeNode]
      exact hoperand.decoded.bind fun _ => .ok _
  · rw [decodeNode, decodeNode]
    · exact h.decoded.bind fun _ => .ok _
    · exact fun _ hy => hb _ hy rfl
    · exact fun _ hx => ha _ hx rfl

theorem decodeNode_respelled {kind : Kind} (hword : SameWord word word') (h : ReadAlike a b)
    (hitems : ∀ vs ws, a = .arr vs → b = .arr ws → List.Forall₂ ReadAlike vs ws) :
    DecodedAlike (decodeNode word kind a) (decodeNode word' kind b) := by
  cases harity : kind.arity? with
  | some n =>
    rcases h.respelled.arity n with ⟨vs, ws, rfl, rfl, rfl, -⟩ | ⟨ha, hb⟩
    · exact decodeNode_positional hword harity (hitems vs ws rfl rfl)
    · rw [decodeNode_mismatch harity ha, decodeNode_mismatch harity hb]
      exact .error (.mismatch _ hword h.respelled)
  | none =>
    cases kind
    case program | block | ret =>
      rw [decodeNode, decodeNode]
      exact h.decoded.bind fun _ => .ok _
    case step | ident =>
      rw [decodeNode, decodeNode]
      exact (decodeName_respelled hword h.respelled).bind fun _ => .ok _
    case unary => exact decodeUnary_respelled h hitems
    case int | float | bool | str =>
      rw [decodeNode, decodeNode]
      exact (expect_respelled (fun _ => rfl) (fun _ => rfl) hword h.respelled).bind fun _ => .ok _
    all_goals cases harity

theorem decode_respelled (h : Respelled v w) : DecodedAlike (decode v) (decode w) := by
  induction hsize : sizeOf v using Nat.strongRecOn generalizing v w with
  | ind n ih =>
    subst hsize
    have hread {x y : Json} (hx : sizeOf x < sizeOf v) (hxy : Respelled x y) : ReadAlike x y :=
      ⟨hxy, ih _ hx hxy rfl⟩
    have hitems {vs : List Json} (hvs : sizeOf (Json.arr vs) ≤ sizeOf v) {ws : List Json}
        (h : Respelled (.arr vs) (.arr ws)) : List.Forall₂ ReadAlike vs ws := by
      obtain ⟨_, heq, hall⟩ := h.arr
      cases heq
      refine List.forall₂_iff_zip.mpr ⟨hall.length_eq, fun hxy => ?_⟩
      refine hread ?_ (List.forall₂_zip hall hxy)
      have hitem := List.sizeOf_lt_of_mem (List.of_mem_zip hxy).1
      rw [Json.arr.sizeOf_spec] at hvs
      omega
    match v with
    | .arr vs =>
      obtain ⟨ws, rfl, -⟩ := h.arr
      exact decode_arr_respelled.mpr (decodeAll_respelled (hitems (Nat.le_refl _) h))
    | .obj fs =>
      obtain ⟨gs, rfl⟩ := h.obj
      have hargs := sizeOf_argumentsOf_lt fs
      rw [decode, decode]
      refine decodeKind_respelled h fun word word' kind hword => ?_
      refine decodeNode_respelled hword (hread hargs h.argumentsOf) ?_
      intro vs ws hvs hws
      have hrespelled := h.argumentsOf
      rw [hvs, hws] at hrespelled
      rw [hvs] at hargs
      exact hitems (Nat.le_of_lt hargs) hrespelled
    | .null | .bool _ | .num _ | .str _ =>
      cases h
      exact .refl .refl _

/-! ### The word that a node has by itself -/

/-- The node that an object is decoded to is of the kind that the object names. -/
theorem exists_kind_of_decode {fields : List (String × Json)} {t : Tree}
    (h : decode (.obj fields) = .ok t) :
    ∃ kind a, (Json.obj fields).IsNode kind a ∧ t.kind? = some kind := by
  cases decodes_of_decode h with
  | program node | block node | function node | ret node | declare node | declareWith node
  | assign node | compound node | step node | ifThen node | ifElse node | whileLoop node
  | doLoop node | forLoop node | call node | callNone node | callOne node | binary node
  | logical node | unary node | unaryBare node | ident node | int node | float node | bool node
  | str node => exact ⟨_, _, node, rfl⟩

end Tree

namespace Json

/-- The fields of an object with another word for its type. -/
def retype (word : String) : List (String × Json) → List (String × Json)
  | [] => []
  | (name, v) :: rest =>
    if name = "type" then (name, .str word) :: rest else (name, v) :: retype word rest

theorem respelled_retype {fields : List (String × Json)} {kind : Kind} {word word' : String}
    (htype : fields.lookup "type" = some (.str word)) (hword : word ∈ kind.words)
    (hword' : word' ∈ kind.words) : Respelled (.obj fields) (.obj (retype word' fields)) := by
  induction fields with
  | nil => cases htype
  | cons f rest ih =>
    obtain ⟨name, v⟩ := f
    rw [retype]
    by_cases hname : name = "type"
    · subst hname
      rw [List.lookup_cons_self] at htype
      cases htype
      rw [if_pos rfl]
      exact .type hword hword' (.same _)
    · have hother : ("type" == name) = false := beq_false_of_ne (Ne.symm hname)
      rw [List.lookup_cons, hother] at htype
      rw [if_neg hname]
      exact .field (.same v) (ih htype)

end Json

/-- **Words for the same kind are interchangeable.**  Where words in a JSON value are exchanged for
    others of the same kind, the result is the same tree, or again a refusal that has the same
    reason.  An object is decoded to a node of the kind that its type is a word for.  The word that
    the node has by itself is one for this kind too, and in place of the type it leads to the same
    node. -/
theorem spellings_interchangeable {v w : Json} (h : v.Respelled w) :
    Tree.DecodedAlike (Tree.decode v) (Tree.decode w) ∧
      ∀ fields t, v = .obj fields → Tree.decode v = .ok t →
        ∃ (word : String) (kind : Kind), fields.lookup "type" = some (.str word) ∧
          t.kind? = some kind ∧ word ∈ kind.words ∧ kind.spelling ∈ kind.words ∧
          Tree.decode (.obj (Json.retype kind.spelling fields)) = .ok t := by
  refine ⟨Tree.decode_respelled h, ?_⟩
  rintro fields t rfl ht
  obtain ⟨kind, _, ⟨_, word, hfields, htype, hkind, -⟩, htree⟩ := Tree.exists_kind_of_decode ht
  cases hfields
  have hword : word ∈ kind.words := Kind.ofString?_eq_some_iff.mp hkind
  have hspelling : kind.spelling ∈ kind.words :=
    Kind.ofString?_eq_some_iff.mp (Kind.ofString?_spelling (Kind.hasWord_of_ofString? hkind))
  have hrespelled := Json.respelled_retype htype hword hspelling
  exact ⟨word, kind, htype, htree, hword, hspelling, (Tree.decode_respelled hrespelled).eq_ok ht⟩

/-- A comparison with a sum, under any words for the two. -/
def Json.comparison (less plus : String) : Json :=
  let name := .obj [("arguments", .str "x"), ("type", .str "identifier")]
  let sum := .obj [("arguments", .arr [name, name]), ("type", .str plus)]
  .obj [("arguments", .arr [name, sum]), ("type", .str less)]

theorem spellings_of_comparison :
    (Json.comparison "less-than" "addition").Respelled (Json.comparison "lt" "add") ∧
      Tree.decode (Json.comparison "less-than" "addition") =
        .ok (.binary .lt (.ident "x") (.binary .add (.ident "x") (.ident "x"))) ∧
      Tree.decode (Json.comparison "lt" "add") =
        .ok (.binary .lt (.ident "x") (.binary .add (.ident "x") (.ident "x"))) := by
  have hrespelled :
      (Json.comparison "less-than" "addition").Respelled (Json.comparison "lt" "add") := by
    have hplus : "addition" ∈ (Kind.binary .add).words ∧ "add" ∈ (Kind.binary .add).words := by
      decide
    have hless : "less-than" ∈ (Kind.binary .lt).words ∧ "lt" ∈ (Kind.binary .lt).words := by
      decide
    have hsum {args : Json} : Json.Respelled (.obj [("arguments", args), ("type", .str "addition")])
        (.obj [("arguments", args), ("type", .str "add")]) :=
      .field (.same _) (.type hplus.1 hplus.2 (.same _))
    exact .field (.item (.same _) (.item hsum (.same _))) (.type hless.1 hless.2 (.same _))
  have hname : Tree.Decodes (.obj [("arguments", .str "x"), ("type", .str "identifier")])
      (.ident "x") := .ident ⟨_, "identifier", rfl, rfl, rfl, rfl⟩ (.inl rfl)
  have hdecode := Tree.decode_of_decodes (.binary (v := Json.comparison "less-than" "addition")
    ⟨_, "less-than", rfl, rfl, rfl, rfl⟩ hname
    (.binary ⟨_, "addition", rfl, rfl, rfl, rfl⟩ hname hname))
  exact ⟨hrespelled, hdecode, (spellings_interchangeable hrespelled).1.eq_ok hdecode⟩

end SceneCode
