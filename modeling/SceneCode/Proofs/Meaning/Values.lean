import SceneCode.Proofs.Meaning.Evaluation

/-!
# Values and stores

The values of each kind of expression, as a relation between the stores before and behind it, and
what evaluation never changes: a position has as many values as it holds expressions, and the same
scopes are open behind a statement as before it.
-/

namespace SceneCode

/-- What every round keeps, the cycle keeps. -/
theorem Cycle.preserves {σ α : Type} {round : σ → Bool → σ → Prop} (f : σ → α)
    (hround : ∀ s go t, round s go t → f t = f s) {s t : σ} (h : Cycle round s t) : f t = f s := by
  induction h with
  | exit hs => exact hround _ _ _ hs
  | again hs _ ih => exact ih.trans (hround _ _ _ hs)

namespace Tree

variable {V : Type} (M : Meaning V)

/-! ### Values as relations -/

section

variable {M} {Γ : Declared} {σ σ' : Stores V} {vs ws : List V}

/-- What is done with the one value of a position. -/
theorem bind_single?_bind {α : Type} {t : Tree} {f : V × Stores V → Option α} {a : α} :
    ((t.values M Γ σ).bind single? >>= f) = some a ↔
      ∃ v σ₁, t.Yields M Γ σ v σ₁ ∧ f (v, σ₁) = some a := by
  have hsingle : (t.values M Γ σ).bind single? = none ∧ (∀ v σ₁, ¬t.Yields M Γ σ v σ₁) ∨
      ∃ v σ₁, (t.values M Γ σ).bind single? = some (v, σ₁) ∧ t.Yields M Γ σ v σ₁ := by
    rcases hvalues : t.values M Γ σ with _ | ⟨_ | ⟨w, _ | ⟨w', ws⟩⟩, τ⟩ <;>
      simp [single?, Yields, hvalues]
  rcases hsingle with ⟨hnone, hno⟩ | ⟨w, τ, hsome, hyields⟩
  · rw [hnone]
    constructor
    · intro h
      cases h
    · rintro ⟨v, σ₁, hv, -⟩
      exact absurd hv (hno v σ₁)
  · rw [hsome]
    constructor
    · intro h
      exact ⟨w, τ, hyields, h⟩
    · rintro ⟨v, σ₁, hv, h⟩
      cases hyields.symm.trans hv
      exact h

/-- What is done with the old value of a variable. -/
theorem read?_bind {α : Type} {name : String} {f : V → Option α} {a : α} :
    (Stores.read? name Γ σ >>= f) = some a ↔
      ∃ old, Stores.read? name Γ σ = some old ∧ f old = some a := by
  rw [Option.bind_eq_bind, Option.bind_eq_some_iff]

/-- A variable gets the value that is also the value of the expression. -/
theorem write?_bind {name : String} {w : V} :
    (do return ([w], ← Stores.write? name w Γ σ)) = some (vs, σ') ↔
      vs = [w] ∧ Stores.write? name w Γ σ = some σ' := by
  rcases hwrite : Stores.write? name w Γ σ with _ | τ <;> simp [eq_comm]

theorem pure_eq_some : (pure (ws, σ) : Option (List V × Stores V)) = some (vs, σ') ↔
    vs = ws ∧ σ' = σ := by
  simp [eq_comm]

theorem values_lit {value : Literal} :
    (lit value).values M Γ σ = some (vs, σ') ↔ vs = [M.literal value] ∧ σ' = σ := by
  rw [values]
  exact pure_eq_some

theorem values_ident {name : String} :
    (ident name).values M Γ σ = some (vs, σ') ↔
      ∃ old, Stores.read? name Γ σ = some old ∧ vs = [old] ∧ σ' = σ := by
  rw [values, read?_bind]
  simp only [pure_eq_some]

theorem values_assign {name : String} {value : Tree} :
    (assign name value).values M Γ σ = some (vs, σ') ↔
      ∃ v σ₁, value.Yields M Γ σ v σ₁ ∧ vs = [v] ∧ Stores.write? name v Γ σ₁ = some σ' := by
  rw [values, bind_single?_bind]
  simp only [write?_bind]

theorem values_compound {op : BinaryOp} {name : String} {value : Tree} :
    (compound op name value).values M Γ σ = some (vs, σ') ↔
      ∃ old, Stores.read? name Γ σ = some old ∧ ∃ v σ₁, value.Yields M Γ σ v σ₁ ∧
        vs = [M.binary op old v] ∧ Stores.write? name (M.binary op old v) Γ σ₁ = some σ' := by
  rw [values, read?_bind]
  simp only [bind_single?_bind, write?_bind]

theorem values_step {op : StepOp} {name : String} :
    (step op name).values M Γ σ = some (vs, σ') ↔
      ∃ old, Stores.read? name Γ σ = some old ∧ vs = [M.binary op.binary old (M.int 1)] ∧
        Stores.write? name (M.binary op.binary old (M.int 1)) Γ σ = some σ' := by
  rw [values, read?_bind]
  simp only [write?_bind]

theorem values_binary {op : BinaryOp} {lhs rhs : Tree} :
    (binary op lhs rhs).values M Γ σ = some (vs, σ') ↔
      ∃ x σ₁, lhs.Yields M Γ σ x σ₁ ∧ ∃ y σ₂, rhs.Yields M Γ σ₁ y σ₂ ∧
        vs = [M.binary op x y] ∧ σ' = σ₂ := by
  rw [values, bind_single?_bind]
  simp only [bind_single?_bind, pure_eq_some]

theorem values_logical {op : LogicalOp} {lhs rhs : Tree} :
    (logical op lhs rhs).values M Γ σ = some (vs, σ') ↔
      ∃ x σ₁, lhs.Yields M Γ σ x σ₁ ∧
        if M.decides op x then vs = [x] ∧ σ' = σ₁
        else ∃ y σ₂, rhs.Yields M Γ σ₁ y σ₂ ∧ vs = [y] ∧ σ' = σ₂ := by
  rw [values, bind_single?_bind]
  refine exists_congr fun x => exists_congr fun σ₁ => and_congr_right fun _ => ?_
  rcases hdecides : M.decides op x with _ | _
  · simp only [hdecides, Bool.false_eq_true, if_false, bind_single?_bind, pure_eq_some]
  · simp only [hdecides, if_true, pure_eq_some]

theorem values_unary {op : UnaryOp} {operand : Tree} :
    (unary op operand).values M Γ σ = some (vs, σ') ↔
      ∃ x σ₁, operand.Yields M Γ σ x σ₁ ∧ vs = [M.unary op x] ∧ σ' = σ₁ := by
  rw [values, bind_single?_bind]
  simp only [pure_eq_some]

theorem valuesAll_cons {t : Tree} {ts : List Tree} :
    valuesAll M Γ (t :: ts) σ = some (vs, σ') ↔
      ∃ first σ₁, t.values M Γ σ = some (first, σ₁) ∧
        ∃ later σ₂, valuesAll M Γ ts σ₁ = some (later, σ₂) ∧ vs = later ++ first ∧ σ' = σ₂ := by
  rw [valuesAll, Option.bind_eq_bind, Option.bind_eq_some_iff]
  simp only [Prod.exists, Option.bind_eq_some_iff, pure_eq_some]

end

/-! ### As many values as nodes, as many stores as before -/

theorem length_of_write? {name : String} {v : V} {Γ : Declared} {σ σ' : Stores V}
    (h : Stores.write? name v Γ σ = some σ') : σ'.length = σ.length := by
  induction Γ generalizing σ σ' with
  | nil => cases σ <;> cases h
  | cons names Γ ih =>
    cases σ with
    | nil => cases h
    | cons ρ σ =>
      rw [Stores.write?] at h
      split at h
      · cases h
        rfl
      · obtain ⟨τ, hτ, rfl⟩ := Option.map_eq_some_iff.mp h
        rw [List.length_cons, List.length_cons, ih hτ]

theorem length_of_define? {name : String} {v : V} {σ σ' : Stores V}
    (h : Stores.define? name v σ = some σ') : σ'.length = σ.length := by
  cases σ with
  | nil => cases h
  | cons ρ σ =>
    cases h
    rfl

mutual

theorem lengths_of_values {Γ : Declared} (t : Tree) {σ σ' : Stores V} {vs : List V}
    (h : t.values M Γ σ = some (vs, σ')) :
    vs.length = t.nodes.length ∧ σ'.length = σ.length := by
  cases t with
  | empty =>
    cases h
    exact ⟨rfl, rfl⟩
  | seq items => exact lengths_of_valuesAll items h
  | lit value =>
    obtain ⟨rfl, rfl⟩ := values_lit.mp h
    exact ⟨rfl, rfl⟩
  | ident name =>
    obtain ⟨old, -, rfl, rfl⟩ := values_ident.mp h
    exact ⟨rfl, rfl⟩
  | assign name value =>
    obtain ⟨v, σ₁, hv, rfl, hwrite⟩ := values_assign.mp h
    exact ⟨rfl, (length_of_write? hwrite).trans (lengths_of_values value hv).2⟩
  | compound op name value =>
    obtain ⟨old, -, v, σ₁, hv, rfl, hwrite⟩ := values_compound.mp h
    exact ⟨rfl, (length_of_write? hwrite).trans (lengths_of_values value hv).2⟩
  | step op name =>
    obtain ⟨old, -, rfl, hwrite⟩ := values_step.mp h
    exact ⟨rfl, length_of_write? hwrite⟩
  | binary op lhs rhs =>
    obtain ⟨x, σ₁, hx, y, σ₂, hy, rfl, rfl⟩ := values_binary.mp h
    exact ⟨rfl, (lengths_of_values rhs hy).2.trans (lengths_of_values lhs hx).2⟩
  | logical op lhs rhs =>
    obtain ⟨x, σ₁, hx, h⟩ := values_logical.mp h
    have hlhs := lengths_of_values lhs hx
    split at h
    · obtain ⟨rfl, rfl⟩ := h
      exact ⟨rfl, hlhs.2⟩
    · obtain ⟨y, σ₂, hy, rfl, rfl⟩ := h
      exact ⟨rfl, (lengths_of_values rhs hy).2.trans hlhs.2⟩
  | unary op operand =>
    obtain ⟨x, σ₁, hx, rfl, rfl⟩ := values_unary.mp h
    exact ⟨rfl, (lengths_of_values operand hx).2⟩
  | _ => simp [values] at h

theorem lengths_of_valuesAll {Γ : Declared} (ts : List Tree) {σ σ' : Stores V} {vs : List V}
    (h : valuesAll M Γ ts σ = some (vs, σ')) :
    vs.length = (nodesAll ts).length ∧ σ'.length = σ.length := by
  cases ts with
  | nil =>
    cases h
    exact ⟨rfl, rfl⟩
  | cons t ts =>
    obtain ⟨first, σ₁, hfirst, later, σ₂, hlater, rfl, rfl⟩ := valuesAll_cons.mp h
    have ht := lengths_of_values t hfirst
    have hts := lengths_of_valuesAll ts hlater
    rw [nodesAll, List.length_append, List.length_append, ht.1, hts.1, hts.2, ht.2]
    exact ⟨Nat.add_comm _ _, rfl⟩

end

/-- The value of a position that holds one expression. -/
theorem values_of_holds {Γ : Declared} {t : Tree} {σ σ' : Stores V} {vs : List V}
    (hholds : t.HoldsExpression) :
    t.values M Γ σ = some (vs, σ') ↔ ∃ v, t.Yields M Γ σ v σ' ∧ vs = [v] := by
  constructor
  · intro h
    obtain ⟨node, hnodes, -⟩ := hholds
    have hlength := (lengths_of_values M t h).1
    rw [hnodes] at hlength
    obtain ⟨v, rfl⟩ := List.length_eq_one_iff.mp hlength
    exact ⟨v, h, rfl⟩
  · rintro ⟨v, h, rfl⟩
    exact h

omit M in
theorem nodes_of_isExpression {t : Tree} (hexpr : t.isExpression = true) : t.nodes = [t] := by
  cases t <;> first | rfl | exact absurd hexpr Bool.false_ne_true

theorem exec_of_isExpression {Γ : Declared} {t : Tree} {σ σ' : Stores V}
    (hexpr : t.isExpression = true) :
    t.exec M Γ σ σ' ↔ ∃ v, t.Yields M Γ σ v σ' := by
  have hnodes := nodes_of_isExpression hexpr
  have hexec : t.exec M Γ σ σ' ↔ ∃ vs, t.values M Γ σ = some (vs, σ') := by
    cases t <;> first | exact absurd hexpr Bool.false_ne_true | exact Iff.rfl
  simp only [hexec, values_of_holds M ⟨t, hnodes, hexpr⟩]
  constructor
  · rintro ⟨vs, v, h, -⟩
    exact ⟨v, h⟩
  · rintro ⟨v, h⟩
    exact ⟨[v], v, h, rfl⟩

mutual

/-- A statement leaves the same scopes open. -/
theorem length_of_exec {Γ : Declared} (t : Tree) {σ σ' : Stores V} (h : t.exec M Γ σ σ') :
    σ'.length = σ.length := by
  cases t with
  | empty =>
    cases h
    rfl
  | seq items => exact length_of_execAll items h
  | program body => exact length_of_exec body h
  | block body =>
    obtain ⟨ρ, h⟩ := h
    exact Nat.succ.inj (length_of_exec body h)
  | declare type name =>
    cases h
    rfl
  | declareWith type name value =>
    obtain ⟨v, σ₁, hv, hdefine⟩ := h
    exact (length_of_define? hdefine).trans (lengths_of_values M value hv).2
  | ifThen cond body =>
    obtain ⟨v, σ₁, hv, h⟩ := h
    have hcond := (lengths_of_values M cond hv).2
    split at h
    · exact (length_of_exec body h).trans hcond
    · rw [h, hcond]
  | ifElse cond body other =>
    obtain ⟨v, σ₁, hv, h⟩ := h
    have hcond := (lengths_of_values M cond hv).2
    split at h
    · exact (length_of_exec body h).trans hcond
    · exact (length_of_exec other h).trans hcond
  | whileLoop cond body =>
    refine Cycle.preserves List.length ?_ h
    rintro s go t ⟨v, r, hv, -, h⟩
    have hcond := (lengths_of_values M cond hv).2
    split at h
    · exact (length_of_exec body h).trans hcond
    · rw [h, hcond]
  | doLoop cond body =>
    refine Cycle.preserves List.length ?_ h
    rintro s go t ⟨r, v, h, hv, -⟩
    exact (lengths_of_values M cond hv).2.trans (length_of_exec body h)
  | forLoop init cond update body =>
    obtain ⟨σ₁, ρ, hinit, h⟩ := h
    have hfirst := length_of_exec init hinit
    refine Nat.succ.inj ((Cycle.preserves List.length ?_ h).trans hfirst)
    rintro s go t ⟨r, hcond, h⟩
    have htest : r.length = s.length := by
      split at hcond
      · rw [hcond.2]
      · obtain ⟨v, hv, -⟩ := hcond
        exact (lengths_of_values M cond hv).2
    split at h
    · obtain ⟨q, hbody, hupdate⟩ := h
      exact ((length_of_exec update hupdate).trans (length_of_exec body hbody)).trans htest
    · rw [h, htest]
  | function name params returns body => cases h
  | ret value => cases h
  | _ =>
    obtain ⟨vs, h⟩ := h
    exact (lengths_of_values M _ h).2

theorem length_of_execAll {Γ : Declared} (ts : List Tree) {σ σ' : Stores V}
    (h : execAll M Γ ts σ σ') : σ'.length = σ.length := by
  cases ts with
  | nil =>
    cases h
    rfl
  | cons t ts =>
    obtain ⟨σ₁, hfirst, hrest⟩ := h
    exact (length_of_execAll ts hrest).trans (length_of_exec t hfirst)

end

end Tree

end SceneCode
