import SceneCode.Proofs.Meaning.Frames
import SceneCode.Proofs.Meaning.Segment
import SceneCode.Proofs.Meaning.Values

/-!
# Code does what trees mean

The segment of an expression runs exactly as the expression is evaluated, and leaves its value on
the stack; the segment of a statement runs exactly as the statement is executed.  Both say what runs
there are and that there are no others, so code that loops forever belongs to a tree that is never
done, and the other way round.

What a part does is independent of the values below its own on the stack.
-/

namespace SceneCode

theorem Cycle.congr {α : Type} {R S : α → Bool → α → Prop} (h : ∀ s go t, R s go t ↔ S s go t)
    {s t : α} : Cycle R s t ↔ Cycle S s t := by
  have heq : R = S := by
    funext s go t
    exact propext (h s go t)
  rw [heq]

/-- Rounds that are images of rounds. -/
theorem Cycle.image {α β : Type} {R : α → Bool → α → Prop} {S : β → Bool → β → Prop} (f : α → β)
    (h : ∀ a go b, S (f a) go b ↔ ∃ c, R a go c ∧ b = f c) {a : α} {b : β} :
    Cycle S (f a) b ↔ ∃ c, Cycle R a c ∧ b = f c := by
  constructor
  · intro hcycle
    generalize hs : f a = s at hcycle
    induction hcycle generalizing a with
    | exit hround =>
      subst hs
      obtain ⟨c, hc, rfl⟩ := (h _ _ _).mp hround
      exact ⟨c, .exit hc, rfl⟩
    | again hround _ ih =>
      subst hs
      obtain ⟨c, hc, rfl⟩ := (h _ _ _).mp hround
      obtain ⟨d, hd, rfl⟩ := ih rfl
      exact ⟨d, .again hc hd, rfl⟩
  · rintro ⟨c, hcycle, rfl⟩
    induction hcycle with
    | exit hround => exact .exit ((h _ _ _).mpr ⟨_, hround, rfl⟩)
    | again hround _ ih => exact .again ((h _ _ _).mpr ⟨_, hround, rfl⟩) ih

variable {V : Type} {M : Meaning V}

/-- What is left of a value on the stack. -/
def Usage.kept : Usage → V → List V
  | .value, v => [v]
  | .discard, _ => []

namespace Segment

/-- The segment computes a value, as the relation between the stores says. -/
def Computes (M : Meaning V) (all : Declared) (u : Usage) (p : Segment)
    (X : Stores V → V → Stores V → Prop) : Prop :=
  ∀ stack σ r, p.Runs M ⟨stack, M.embed all σ⟩ r ↔
    ∃ v σ', X σ v σ' ∧ r = ⟨u.kept v ++ stack, M.embed all σ'⟩

/-- The segment changes the stores, as the relation between them says. -/
def Does (M : Meaning V) (all : Declared) (p : Segment) (X : Stores V → Stores V → Prop) : Prop :=
  ∀ stack σ r, p.Runs M ⟨stack, M.embed all σ⟩ r ↔
    ∃ σ', X σ σ' ∧ r = ⟨stack, M.embed all σ'⟩

end Segment

/-! ### Instructions -/

namespace Plain

variable {stack : List V} {frames : List (Nat → V)}

theorem act_push (value : Literal) (m : Memory V) :
    (push value).act M m = some (m.push (M.literal value)) := by
  cases value <;> rfl

theorem act_binary (op : BinaryOp) (x y : V) :
    (binary op).act M ⟨y :: x :: stack, frames⟩ = some ⟨M.binary op x y :: stack, frames⟩ := by
  cases op <;> rfl

theorem act_unary (op : UnaryOp) (x : V) :
    (unary op).act M ⟨x :: stack, frames⟩ = some ⟨M.unary op x :: stack, frames⟩ := by
  cases op <;> rfl

theorem act_pop (v : V) : pop.act M ⟨v :: stack, frames⟩ = some ⟨stack, frames⟩ := rfl

theorem act_dup (v : V) : dup.act M ⟨v :: stack, frames⟩ = some ⟨v :: v :: stack, frames⟩ := rfl

theorem act_load (depth slot : Nat) (m : Memory V) :
    (load depth slot).act M m = (m.load? depth slot).map m.push := rfl

theorem act_store (depth slot : Nat) (v : V) :
    (store depth slot).act M ⟨v :: stack, frames⟩ = Memory.store? depth slot v ⟨stack, frames⟩ := rfl

end Plain

/-- The jump of an operator leaves its second value out where the first one decides. -/
theorem Jump.test_logical (op : LogicalOp) (x : V) (stack : List V) (frames : List (Nat → V)) :
    op.jump.test M ⟨x :: stack, frames⟩ = some (M.decides op x, ⟨stack, frames⟩) := by
  cases op <;> rfl

namespace Segment

variable {all Γ : Declared} {sc : Scopes} {name : String} {depth slot : Nat} {u : Usage}
variable {stack : List V} {σ : Stores V} {r : Memory V}

theorem runs_finish {v : V} {frames : List (Nat → V)} :
    (finish u).Runs M ⟨v :: stack, frames⟩ r ↔ r = ⟨u.kept v ++ stack, frames⟩ := by
  cases u with
  | value => rfl
  | discard => simp [finish, Runs, Plain.act_pop, Usage.kept, eq_comm]

theorem runs_load {q : Segment} (hsc : sc.Declares Γ) (hΓ : Γ.Within all)
    (h : sc.locate? name = some (depth, slot)) :
    (seq (one (.load depth slot)) q).Runs M ⟨stack, M.embed all σ⟩ r ↔
      ∃ v, Stores.read? name Γ σ = some v ∧ q.Runs M ⟨v :: stack, M.embed all σ⟩ r := by
  simp [Runs, Plain.act_load, Meaning.load?_embed hsc hΓ h, Memory.push]

theorem act_store_eq_some {v : V} (hsc : sc.Declares Γ) (hΓ : Γ.Within all)
    (h : sc.locate? name = some (depth, slot)) :
    (Plain.store depth slot).act M ⟨v :: stack, M.embed all σ⟩ = some r ↔
      ∃ σ', Stores.write? name v Γ σ = some σ' ∧ r = ⟨stack, M.embed all σ'⟩ := by
  rw [Plain.act_store, Meaning.store?_embed hsc hΓ h, Option.map_eq_some_iff]
  simp only [eq_comm]

theorem runs_store {v : V} (hsc : sc.Declares Γ) (hΓ : Γ.Within all)
    (h : sc.locate? name = some (depth, slot)) :
    (store u depth slot).Runs M ⟨v :: stack, M.embed all σ⟩ r ↔
      ∃ σ', Stores.write? name v Γ σ = some σ' ∧ r = ⟨u.kept v ++ stack, M.embed all σ'⟩ := by
  cases u with
  | value => simp [store, ops, Runs, Plain.act_dup, act_store_eq_some hsc hΓ h, Usage.kept]
  | discard => simp [store, ops, Runs, act_store_eq_some hsc hΓ h, Usage.kept]

theorem Computes.seq {p q : Segment} {X : Stores V → V → Stores V → Prop}
    (hp : p.Computes M all .value X) :
    (seq p q).Runs M ⟨stack, M.embed all σ⟩ r ↔
      ∃ v σ', X σ v σ' ∧ q.Runs M ⟨v :: stack, M.embed all σ'⟩ r := by
  rw [Runs]
  constructor
  · rintro ⟨mid, hmid, hr⟩
    obtain ⟨v, σ', hX, rfl⟩ := (hp stack σ mid).mp hmid
    exact ⟨v, σ', hX, hr⟩
  · rintro ⟨v, σ', hX, hr⟩
    exact ⟨_, (hp stack σ _).mpr ⟨v, σ', hX, rfl⟩, hr⟩

theorem Does.seq {p q : Segment} {X : Stores V → Stores V → Prop} (hp : p.Does M all X) :
    (seq p q).Runs M ⟨stack, M.embed all σ⟩ r ↔
      ∃ σ', X σ σ' ∧ q.Runs M ⟨stack, M.embed all σ'⟩ r := by
  rw [Runs]
  constructor
  · rintro ⟨mid, hmid, hr⟩
    obtain ⟨σ', hX, rfl⟩ := (hp stack σ mid).mp hmid
    exact ⟨σ', hX, hr⟩
  · rintro ⟨σ', hX, hr⟩
    exact ⟨_, (hp stack σ _).mpr ⟨σ', hX, rfl⟩, hr⟩

theorem runs_seq_seq {p q s : Segment} {m : Memory V} :
    (seq (seq p q) s).Runs M m r ↔ (seq p (seq q s)).Runs M m r := by
  simp only [Runs]
  constructor
  · rintro ⟨mid, ⟨first, hp, hq⟩, hs⟩
    exact ⟨first, hp, mid, hq, hs⟩
  · rintro ⟨first, hp, mid, hq, hs⟩
    exact ⟨mid, ⟨first, hp, hq⟩, hs⟩

/-! ### Expressions -/

theorem computes_lit (value : Literal) :
    (seq (one (.push value)) (finish u)).Computes M all u ((Tree.lit value).Yields M Γ) := by
  intro stack σ r
  simp [Runs, Plain.act_push, Memory.push, runs_finish, Tree.Yields, Tree.values_lit]

theorem computes_ident (hsc : sc.Declares Γ) (hΓ : Γ.Within all)
    (h : sc.locate? name = some (depth, slot)) :
    (seq (one (.load depth slot)) (finish u)).Computes M all u ((Tree.ident name).Yields M Γ) := by
  intro stack σ r
  simp [runs_load hsc hΓ h, runs_finish, Tree.Yields, Tree.values_ident]

section

variable {p q : Segment} {value lhs rhs : Tree}

theorem computes_assign (hsc : sc.Declares Γ) (hΓ : Γ.Within all)
    (hp : p.Computes M all .value (value.Yields M Γ))
    (h : sc.locate? name = some (depth, slot)) :
    (seq p (store u depth slot)).Computes M all u ((Tree.assign name value).Yields M Γ) := by
  intro stack σ r
  simp only [hp.seq, runs_store hsc hΓ h, Tree.Yields, Tree.values_assign]
  constructor
  · rintro ⟨v, σ₁, hv, σ', hwrite, rfl⟩
    exact ⟨v, σ', ⟨v, σ₁, hv, rfl, hwrite⟩, rfl⟩
  · rintro ⟨v, σ', ⟨w, σ₁, hv, heq, hwrite⟩, rfl⟩
    cases heq
    exact ⟨v, σ₁, hv, σ', hwrite, rfl⟩

theorem computes_compound (op : BinaryOp) (hsc : sc.Declares Γ) (hΓ : Γ.Within all)
    (hp : p.Computes M all .value (value.Yields M Γ))
    (h : sc.locate? name = some (depth, slot)) {sc' : Scopes} (hsc' : sc'.Declares Γ)
    {depth' slot' : Nat} (h' : sc'.locate? name = some (depth', slot')) :
    (seq (one (.load depth slot)) (seq p (seq (one (.binary op)) (store u depth' slot')))).Computes
      M all u ((Tree.compound op name value).Yields M Γ) := by
  intro stack σ r
  have hbinary (old v : V) (σ₁ : Stores V) :
      (seq (one (.binary op)) (store u depth' slot')).Runs M
          ⟨v :: old :: stack, M.embed all σ₁⟩ r ↔
        ∃ σ', Stores.write? name (M.binary op old v) Γ σ₁ = some σ' ∧
          r = ⟨u.kept (M.binary op old v) ++ stack, M.embed all σ'⟩ := by
    simp [Runs, Plain.act_binary, runs_store hsc' hΓ h']
  simp only [runs_load hsc hΓ h, hp.seq, hbinary, Tree.Yields, Tree.values_compound]
  constructor
  · rintro ⟨old, hread, v, σ₁, hv, σ', hwrite, rfl⟩
    exact ⟨_, σ', ⟨old, hread, v, σ₁, hv, rfl, hwrite⟩, rfl⟩
  · rintro ⟨w, σ', ⟨old, hread, v, σ₁, hv, heq, hwrite⟩, rfl⟩
    cases heq
    exact ⟨old, hread, v, σ₁, hv, σ', hwrite, rfl⟩

theorem computes_step (op : StepOp) (hsc : sc.Declares Γ) (hΓ : Γ.Within all)
    (h : sc.locate? name = some (depth, slot)) :
    (seq (ops [.load depth slot, .push (.int 1), .binary op.binary]) (store u depth slot)).Computes
      M all u ((Tree.step op name).Yields M Γ) := by
  intro stack σ r
  have hone : M.literal (.int 1) = M.int 1 := rfl
  have hchange (old : V) :
      (seq (ops [.push (.int 1), .binary op.binary]) (store u depth slot)).Runs M
          ⟨old :: stack, M.embed all σ⟩ r ↔
        ∃ σ', Stores.write? name (M.binary op.binary old (M.int 1)) Γ σ = some σ' ∧
          r = ⟨u.kept (M.binary op.binary old (M.int 1)) ++ stack, M.embed all σ'⟩ := by
    simp [ops, Runs, Plain.act_push, Memory.push, hone, Plain.act_binary, runs_store hsc hΓ h]
  rw [ops, runs_seq_seq, runs_load hsc hΓ h]
  simp only [hchange, Tree.Yields, Tree.values_step]
  constructor
  · rintro ⟨old, hread, σ', hwrite, rfl⟩
    exact ⟨_, σ', ⟨old, hread, rfl, hwrite⟩, rfl⟩
  · rintro ⟨w, σ', ⟨old, hread, heq, hwrite⟩, rfl⟩
    cases heq
    exact ⟨old, hread, σ', hwrite, rfl⟩

theorem computes_binary (op : BinaryOp) (hp : p.Computes M all .value (lhs.Yields M Γ))
    (hq : q.Computes M all .value (rhs.Yields M Γ)) :
    (seq p (seq q (seq (one (.binary op)) (finish u)))).Computes M all u
      ((Tree.binary op lhs rhs).Yields M Γ) := by
  intro stack σ r
  have hbinary (x y : V) (σ' : Stores V) :
      (seq (one (.binary op)) (finish u)).Runs M ⟨y :: x :: stack, M.embed all σ'⟩ r ↔
        r = ⟨u.kept (M.binary op x y) ++ stack, M.embed all σ'⟩ := by
    simp [Runs, Plain.act_binary, runs_finish]
  simp only [hp.seq, hq.seq, hbinary, Tree.Yields, Tree.values_binary]
  constructor
  · rintro ⟨x, σ₁, hx, y, σ', hy, rfl⟩
    exact ⟨_, σ', ⟨x, σ₁, hx, y, σ', hy, rfl, rfl⟩, rfl⟩
  · rintro ⟨v, σ', ⟨x, σ₁, hx, y, σ₂, hy, heq, rfl⟩, rfl⟩
    cases heq
    exact ⟨x, σ₁, hx, y, _, hy, rfl⟩

theorem computes_unary (op : UnaryOp) (hp : p.Computes M all .value (value.Yields M Γ)) :
    (seq p (seq (one (.unary op)) (finish u))).Computes M all u
      ((Tree.unary op value).Yields M Γ) := by
  intro stack σ r
  have hunary (x : V) (σ' : Stores V) :
      (seq (one (.unary op)) (finish u)).Runs M ⟨x :: stack, M.embed all σ'⟩ r ↔
        r = ⟨u.kept (M.unary op x) ++ stack, M.embed all σ'⟩ := by
    simp [Runs, Plain.act_unary, runs_finish]
  simp only [hp.seq, hunary, Tree.Yields, Tree.values_unary]
  constructor
  · rintro ⟨x, σ', hx, rfl⟩
    exact ⟨_, σ', ⟨x, σ', hx, rfl, rfl⟩, rfl⟩
  · rintro ⟨v, σ', ⟨x, σ₁, hx, heq, rfl⟩, rfl⟩
    cases heq
    exact ⟨x, _, hx, rfl⟩

theorem computes_logical (op : LogicalOp) (hp : p.Computes M all .value (lhs.Yields M Γ))
    (hq : q.Computes M all .value (rhs.Yields M Γ)) :
    (seq p (seq (one .dup) (seq (skip op.jump (seq (one .pop) q)) (finish u)))).Computes M all u
      ((Tree.logical op lhs rhs).Yields M Γ) := by
  intro stack σ r
  have htest (x : V) (σ₁ : Stores V) :
      (seq (one .dup) (seq (skip op.jump (seq (one .pop) q)) (finish u))).Runs M
          ⟨x :: stack, M.embed all σ₁⟩ r ↔
        if M.decides op x then r = ⟨u.kept x ++ stack, M.embed all σ₁⟩
        else ∃ y σ', rhs.Yields M Γ σ₁ y σ' ∧ r = ⟨u.kept y ++ stack, M.embed all σ'⟩ := by
    rcases hdecides : M.decides op x with _ | _
    · have hsecond : (seq q (finish u)).Runs M ⟨stack, M.embed all σ₁⟩ r ↔ _ := hq.seq
      simp only [runs_finish] at hsecond
      simpa [Runs, Plain.act_dup, Plain.act_pop, Jump.test_logical, hdecides] using hsecond
    · simp [Runs, Plain.act_dup, Jump.test_logical, hdecides, runs_finish]
  simp only [hp.seq, htest, Tree.Yields, Tree.values_logical]
  constructor
  · rintro ⟨x, σ₁, hx, hr⟩
    split at hr
    · rename_i hdecides
      exact ⟨x, σ₁, ⟨x, σ₁, hx, by rw [if_pos hdecides]; exact ⟨rfl, rfl⟩⟩, hr⟩
    · rename_i hdecides
      obtain ⟨y, σ', hy, rfl⟩ := hr
      exact ⟨y, σ', ⟨x, σ₁, hx, by rw [if_neg hdecides]; exact ⟨y, σ', hy, rfl, rfl⟩⟩, rfl⟩
  · rintro ⟨v, σ', ⟨x, σ₁, hx, hv⟩, rfl⟩
    refine ⟨x, σ₁, hx, ?_⟩
    split at hv
    · rename_i hdecides
      rw [if_pos hdecides]
      obtain ⟨heq, rfl⟩ := hv
      cases heq
      rfl
    · rename_i hdecides
      rw [if_neg hdecides]
      obtain ⟨y, σ₂, hy, heq, rfl⟩ := hv
      cases heq
      exact ⟨v, _, hy, rfl⟩

end

/-! ### Statements -/

section

variable {p q s : Segment} {X : Stores V → V → Stores V → Prop} {Y Z : Stores V → Stores V → Prop}

theorem does_nothing : nothing.Does M all (fun σ σ' => σ' = σ) := by
  intro stack σ r
  simp [Runs]

theorem does_declareWith {type : TypeName} {sc' : Scopes} {value : Tree} (hsc : sc.Declares Γ)
    (hΓ : (Γ.extend [name]).Within all) (hp : p.Computes M all .value (value.Yields M Γ))
    (h : sc.declare type name = .ok (slot, sc')) :
    (seq p (one (.store 0 slot))).Does M all ((Tree.declareWith type name value).exec M Γ) := by
  intro stack σ r
  rw [hp.seq]
  simp only [Tree.exec, Runs, Plain.act_store, Meaning.store?_declare hsc hΓ h,
    Option.map_eq_some_iff]
  constructor
  · rintro ⟨v, σ₁, hv, σ', hdefine, rfl⟩
    exact ⟨σ', ⟨v, σ₁, hv, hdefine⟩, rfl⟩
  · rintro ⟨σ', ⟨v, σ₁, hv, hdefine⟩, rfl⟩
    exact ⟨v, σ₁, hv, σ', hdefine, rfl⟩

theorem does_seq (hp : p.Does M all Y) (hq : q.Does M all Z) :
    (seq p q).Does M all (fun σ σ' => ∃ σ₁, Y σ σ₁ ∧ Z σ₁ σ') := by
  intro stack σ r
  rw [hp.seq]
  constructor
  · rintro ⟨σ₁, hY, hr⟩
    obtain ⟨σ', hZ, rfl⟩ := (hq stack σ₁ r).mp hr
    exact ⟨σ', ⟨σ₁, hY, hZ⟩, rfl⟩
  · rintro ⟨σ', ⟨σ₁, hY, hZ⟩, rfl⟩
    exact ⟨σ₁, hY, (hq stack σ₁ _).mpr ⟨σ', hZ, rfl⟩⟩

theorem runs_enter (names : List String) :
    (seq (one .enterScope) q).Runs M ⟨stack, M.embed all σ⟩ r ↔
      q.Runs M ⟨stack, M.embed (names :: all) ((fun _ => M.default) :: σ)⟩ r := by
  have henter : Plain.enterScope.act M ⟨stack, M.embed all σ⟩ =
      some ⟨stack, M.embed (names :: all) ((fun _ => M.default) :: σ)⟩ := by
    simp only [Meaning.embed, List.zipWith_cons_cons, M.layout_default]
    rfl
  simp only [Runs, henter, Option.some.injEq, exists_eq_left']

theorem runs_exit {names : List String} :
    (one .exitScope).Runs M ⟨stack, M.embed (names :: all) σ⟩ r ↔
      ∃ ρ σ', σ = ρ :: σ' ∧ r = ⟨stack, M.embed all σ'⟩ := by
  cases σ with
  | nil =>
    constructor
    · intro h
      cases h
    · rintro ⟨ρ, σ', heq, -⟩
      cases heq
  | cons ρ σ =>
    constructor
    · intro h
      cases h
      exact ⟨ρ, σ, rfl, rfl⟩
    · rintro ⟨_, _, heq, rfl⟩
      cases heq
      rfl

/-- A body in a scope of its own. -/
theorem does_scope {names : List String} (hp : p.Does M (names :: all) Y) :
    (scope p).Does M all (fun σ σ' => ∃ ρ, Y ((fun _ => M.default) :: σ) (ρ :: σ')) := by
  intro stack σ r
  simp only [scope, runs_enter names, hp.seq, runs_exit]
  constructor
  · rintro ⟨_, hY, ρ, σ', rfl, rfl⟩
    exact ⟨σ', ⟨ρ, hY⟩, rfl⟩
  · rintro ⟨σ', ⟨ρ, hY⟩, rfl⟩
    exact ⟨_, hY, ρ, σ', rfl, rfl⟩

theorem runs_choice {v : V} {frames : List (Nat → V)} :
    (choice q s).Runs M ⟨v :: stack, frames⟩ r ↔
      if M.truthy v then q.Runs M ⟨stack, frames⟩ r else s.Runs M ⟨stack, frames⟩ r := by
  have htest : Jump.ifFalse.test M ⟨v :: stack, frames⟩ = some (!M.truthy v, ⟨stack, frames⟩) := rfl
  cases htruthy : M.truthy v <;> simp [Runs, htest, htruthy]

theorem does_ifElse (hp : p.Computes M all .value X) (hq : q.Does M all Y) (hs : s.Does M all Z) :
    (seq p (choice q s)).Does M all (fun σ σ' => ∃ v σ₁, X σ v σ₁ ∧
      if M.truthy v then Y σ₁ σ' else Z σ₁ σ') := by
  intro stack σ r
  have hbranch (v : V) (σ₁ : Stores V) :
      (choice q s).Runs M ⟨v :: stack, M.embed all σ₁⟩ r ↔
        ∃ σ', (if M.truthy v then Y σ₁ σ' else Z σ₁ σ') ∧ r = ⟨stack, M.embed all σ'⟩ := by
    rw [runs_choice]
    split
    · exact hq stack σ₁ r
    · exact hs stack σ₁ r
  simp only [hp.seq, hbranch]
  constructor
  · rintro ⟨v, σ₁, hX, σ', h, rfl⟩
    exact ⟨σ', ⟨v, σ₁, hX, h⟩, rfl⟩
  · rintro ⟨σ', ⟨v, σ₁, hX, h⟩, rfl⟩
    exact ⟨v, σ₁, hX, σ', h, rfl⟩

theorem does_ifThen (hp : p.Computes M all .value X) (hq : q.Does M all Y) :
    (seq p (skip .ifFalse q)).Does M all (fun σ σ' => ∃ v σ₁, X σ v σ₁ ∧
      if M.truthy v then Y σ₁ σ' else σ' = σ₁) :=
  does_ifElse hp hq does_nothing

theorem does_loop (hp : p.Computes M all .value X) (hq : q.Does M all Y) :
    (loop p q).Does M all (Cycle fun σ go σ' => ∃ v σ₁, X σ v σ₁ ∧ M.truthy v = go ∧
      if go then Y σ₁ σ' else σ' = σ₁) := by
  intro stack σ r
  rw [Runs]
  apply Cycle.image (fun σ => Memory.mk stack (M.embed all σ))
  intro σ go r
  constructor
  · rintro ⟨mid, mid', hmid, htest, h⟩
    obtain ⟨v, σ₁, hX, rfl⟩ := (hp stack σ mid).mp hmid
    obtain ⟨hgo, rfl⟩ := Prod.mk.inj (Option.some.inj htest)
    have htruthy := Bool.not_inj hgo
    cases go with
    | true =>
      obtain ⟨σ', hY, rfl⟩ := (hq stack σ₁ r).mp h
      exact ⟨σ', ⟨v, σ₁, hX, htruthy, hY⟩, rfl⟩
    | false => exact ⟨σ₁, ⟨v, σ₁, hX, htruthy, rfl⟩, h⟩
  · rintro ⟨σ', ⟨v, σ₁, hX, rfl, h⟩, rfl⟩
    refine ⟨_, ⟨stack, M.embed all σ₁⟩, (hp stack σ _).mpr ⟨v, σ₁, hX, rfl⟩, rfl, ?_⟩
    split at h
    · rename_i htruthy
      rw [if_pos htruthy]
      exact (hq stack σ₁ _).mpr ⟨σ', h, rfl⟩
    · rename_i htruthy
      rw [if_neg htruthy, h]

theorem does_rounds (hp : p.Does M all Y) (hq : q.Computes M all .value X) :
    (rounds (seq p q) .ifTrue).Does M all (Cycle fun σ go σ' => ∃ σ₁ v, Y σ σ₁ ∧
      X σ₁ v σ' ∧ M.truthy v = go) := by
  intro stack σ r
  rw [Runs]
  apply Cycle.image (fun σ => Memory.mk stack (M.embed all σ))
  intro σ go r
  simp only [hp.seq]
  constructor
  · rintro ⟨mid, ⟨σ₁, hY, hmid⟩, htest⟩
    obtain ⟨v, σ', hX, rfl⟩ := (hq stack σ₁ mid).mp hmid
    cases htest
    exact ⟨σ', ⟨σ₁, v, hY, hX, rfl⟩, rfl⟩
  · rintro ⟨σ', ⟨σ₁, v, hY, hX, rfl⟩, rfl⟩
    exact ⟨_, ⟨σ₁, hY, (hq stack σ₁ _).mpr ⟨v, σ', hX, rfl⟩⟩, rfl⟩

theorem does_endless (hp : p.Does M all Y) :
    (rounds p .always).Does M all (Cycle fun σ go σ' => go = true ∧ Y σ σ') := by
  intro stack σ r
  rw [Runs]
  apply Cycle.image (fun σ => Memory.mk stack (M.embed all σ))
  intro σ go r
  constructor
  · rintro ⟨mid, hmid, htest⟩
    obtain ⟨σ', hY, rfl⟩ := (hp stack σ mid).mp hmid
    cases htest
    exact ⟨σ', ⟨rfl, hY⟩, rfl⟩
  · rintro ⟨σ', ⟨rfl, hY⟩, rfl⟩
    exact ⟨_, (hp stack σ _).mpr ⟨σ', hY, rfl⟩, rfl⟩

theorem Does.settle (hp : p.Does M all Y) (frame : Frame) : (p.settle frame).Does M all Y := by
  intro stack σ r
  rw [runs_settle]
  exact hp stack σ r

theorem Does.congr (hp : p.Does M all Y) (h : ∀ σ σ', Y σ σ' ↔ Z σ σ') : p.Does M all Z := by
  intro stack σ r
  simp only [hp stack σ r, h]

section

variable {c : Segment} {names : List String} {init cond update body : Tree}

/-- A loop with its own scope. -/
theorem does_for (frame : Frame) (hempty : cond.isEmpty = false)
    (hp : p.Does M (names :: all) (init.exec M ([] :: Γ)))
    (hc : c.Computes M (names :: all) .value
      (cond.Yields M (Declared.extend init.declared ([] :: Γ))))
    (hq : q.Does M (names :: all) (body.exec M (Declared.extend init.declared ([] :: Γ))))
    (hs : s.Does M (names :: all)
      (update.exec M ((Declared.extend init.declared ([] :: Γ)).extend body.declared))) :
    (scope (settle frame (seq p (loop c (seq q s))))).Does M all
      ((Tree.forLoop init cond update body).exec M Γ) := by
  have hloop := does_seq hp (does_loop hc (does_seq hq hs))
  apply (does_scope (hloop.settle frame)).congr
  intro σ σ'
  refine exists_comm.trans
    (exists_congr fun σ₁ => exists_congr fun ρ => and_congr_right fun _ => Cycle.congr ?_)
  intro s go t
  simp only [hempty, Bool.false_eq_true, if_false]
  constructor
  · rintro ⟨v, r, hv, hgo, h⟩
    exact ⟨r, ⟨v, hv, hgo⟩, h⟩
  · rintro ⟨r, ⟨v, hv, hgo⟩, h⟩
    exact ⟨v, r, hv, hgo, h⟩

/-- A loop with its own scope and no condition. -/
theorem does_forEndless (frame : Frame)
    (hp : p.Does M (names :: all) (init.exec M ([] :: Γ)))
    (hq : q.Does M (names :: all) (body.exec M (Declared.extend init.declared ([] :: Γ))))
    (hs : s.Does M (names :: all)
      (update.exec M ((Declared.extend init.declared ([] :: Γ)).extend body.declared))) :
    (scope (settle frame (seq p (rounds (seq q s) .always)))).Does M all
      ((Tree.forLoop init .empty update body).exec M Γ) := by
  have hloop := does_seq hp (does_endless (does_seq hq hs))
  apply (does_scope (hloop.settle frame)).congr
  intro σ σ'
  refine exists_comm.trans
    (exists_congr fun σ₁ => exists_congr fun ρ => and_congr_right fun _ => Cycle.congr ?_)
  intro s go t
  cases go <;> simp [Tree.isEmpty]

end

end

end Segment

/-! ### Trees -/

/-- What the segment of a tree does: it pushes the values of the expressions, or it does what the
    statement does. -/
def Usage.Means (M : Meaning V) (Γ all : Declared) (t : Tree) (p : Segment) : Usage → Prop
  | .value => (∀ node ∈ t.nodes, node.isExpression = true) → ∀ stack σ r,
      p.Runs M ⟨stack, M.embed all σ⟩ r ↔
        ∃ vs σ', t.values M Γ σ = some (vs, σ') ∧ r = ⟨vs ++ stack, M.embed all σ'⟩
  | .discard => p.Does M all (t.exec M Γ)

section

variable {Γ all : Declared} {t : Tree} {p : Segment} {u : Usage}

theorem means_of_expression (hexpr : t.isExpression = true)
    (h : p.Computes M all u (t.Yields M Γ)) : u.Means M Γ all t p := by
  have hnodes := Tree.nodes_of_isExpression hexpr
  cases u with
  | value =>
    intro _ stack σ r
    rw [h stack σ r]
    simp only [Tree.values_of_holds M ⟨t, hnodes, hexpr⟩]
    constructor
    · rintro ⟨v, σ', hv, rfl⟩
      exact ⟨[v], σ', ⟨v, hv, rfl⟩, rfl⟩
    · rintro ⟨vs, σ', ⟨v, hv, rfl⟩, rfl⟩
      exact ⟨v, σ', hv, rfl⟩
  | discard =>
    intro stack σ r
    rw [h stack σ r]
    simp only [Tree.exec_of_isExpression M hexpr]
    constructor
    · rintro ⟨v, σ', hv, rfl⟩
      exact ⟨σ', ⟨v, hv⟩, rfl⟩
    · rintro ⟨σ', ⟨v, hv⟩, rfl⟩
      exact ⟨v, σ', hv, rfl⟩

theorem means_of_statement (hnodes : t.nodes = [t]) (hstatement : t.isExpression = false)
    (h : p.Does M all (t.exec M Γ)) : u.Means M Γ all t p := by
  cases u with
  | value =>
    intro hall
    have hexpr := hall t (by rw [hnodes]; exact List.mem_singleton.mpr rfl)
    rw [hstatement] at hexpr
    cases hexpr
  | discard => exact h

/-- A position that holds one expression computes its value. -/
theorem Usage.Means.of_holds (h : Usage.value.Means M Γ all t p) (hholds : t.HoldsExpression) :
    p.Computes M all .value (t.Yields M Γ) := by
  have hall : ∀ node ∈ t.nodes, node.isExpression = true := by
    obtain ⟨node, hnodes, hexpr⟩ := hholds
    simpa [hnodes] using hexpr
  intro stack σ r
  rw [h hall stack σ r]
  simp only [Tree.values_of_holds M hholds]
  constructor
  · rintro ⟨vs, σ', ⟨v, hv, rfl⟩, rfl⟩
    exact ⟨v, σ', hv, rfl⟩
  · rintro ⟨v, σ', hv, rfl⟩
    exact ⟨[v], σ', ⟨v, hv, rfl⟩, rfl⟩

end

open Segment in
/-- **The code of a tree does what the tree means.** -/
theorem Emits.means {config : Config} {fn : Option TypeName} {sc sc' : Scopes} {a : Address}
    {t : Tree} {u : Usage} {p : Segment} {Γ all : Declared} (h : Emits config fn sc a t u p sc')
    (hshaped : t.Shaped) (hfree : t.FunctionFree) (hsc : sc.Declares Γ)
    (hΓ : (Γ.extend t.declared).Within all) : u.Means M Γ all t p := by
  induction h generalizing Γ all with
  | @empty fn sc a u | @seqNil fn sc a u =>
    cases u with
    | value =>
      intro _ stack σ r
      simp [Runs, Tree.values, Tree.valuesAll]
    | discard => exact does_nothing
  | @seqCons fn sc a u t ts p sc₁ q sc₂ hp _ ihp ihq =>
    have hΓp : (Γ.extend t.declared).Within all := hΓ.left
    have hsc₁ := hp.declares hshaped.1 hfree.1 hsc
    have hΓq : ((Γ.extend t.declared).extend (Tree.seq ts).declared).Within all := by
      rw [← Declared.extend_append]
      exact hΓ
    have hmeans := ihp hshaped.1 hfree.1 hsc hΓp
    have hrest := ihq hshaped.2 hfree.2 hsc₁ hΓq
    cases u with
    | value =>
      intro hall stack σ r
      simp only [Tree.nodes, Tree.nodesAll, List.mem_append] at hall
      have hfirst : ∀ node ∈ t.nodes, node.isExpression = true :=
        fun node hnode => hall node (Or.inl hnode)
      have hlater : ∀ node ∈ (Tree.seq ts).nodes, node.isExpression = true :=
        fun node hnode => hall node (Or.inr hnode)
      rw [Tree.declared_of_nodes t hfirst, Declared.extend_nil] at hrest
      simp only [Runs, hmeans hfirst, Tree.values, Tree.valuesAll_cons]
      constructor
      · rintro ⟨_, ⟨vs, σ₁, hvs, rfl⟩, hr⟩
        obtain ⟨ws, σ', hws, rfl⟩ := (hrest hlater _ σ₁ r).mp hr
        exact ⟨ws ++ vs, σ', ⟨vs, σ₁, hvs, ws, σ', hws, rfl, rfl⟩, by rw [List.append_assoc]⟩
      · rintro ⟨_, σ', ⟨vs, σ₁, hvs, ws, _, hws, rfl, rfl⟩, rfl⟩
        refine ⟨_, ⟨vs, σ₁, hvs, rfl⟩, (hrest hlater _ σ₁ _).mpr ⟨ws, σ', hws, ?_⟩⟩
        rw [List.append_assoc]
    | discard => exact does_seq hmeans hrest
  | program _ ih => exact means_of_statement rfl rfl (ih hshaped hfree hsc hΓ)
  | @block fn sc a u body p frame hbody _ ih =>
    have hscope := hbody.declares hshaped hfree hsc.push
    have hinside := ih hshaped hfree hsc.push (hscope.within hΓ.of_extend)
    exact means_of_statement rfl rfl (does_scope (Does.settle hinside frame))
  | function | retEmpty | ret | call => exact hfree.elim
  | declare => exact means_of_statement rfl rfl does_nothing
  | declareWith hvalue hdeclare ih =>
    obtain ⟨hholds, hshaped⟩ := hshaped
    have hsc' := hvalue.declares_of_holds hholds hshaped hfree hsc
    have hcomputes := (ih hshaped hfree hsc (hΓ.of_extend.of_holds hholds)).of_holds hholds
    exact means_of_statement rfl rfl (does_declareWith hsc' hΓ hcomputes hdeclare)
  | assign hvalue hvariable ih =>
    obtain ⟨hholds, hshaped⟩ := hshaped
    have hsc' := hvalue.declares_of_holds hholds hshaped hfree hsc
    have hcomputes := (ih hshaped hfree hsc (hΓ.of_extend.of_holds hholds)).of_holds hholds
    exact means_of_expression rfl (computes_assign hsc' hΓ.of_extend hcomputes hvariable)
  | compound hold hvalue hvariable ih =>
    obtain ⟨hholds, hshaped⟩ := hshaped
    have hsc' := hvalue.declares_of_holds hholds hshaped hfree hsc
    have hcomputes := (ih hshaped hfree hsc (hΓ.of_extend.of_holds hholds)).of_holds hholds
    exact means_of_expression rfl
      (computes_compound _ hsc hΓ.of_extend hcomputes hold hsc' hvariable)
  | step hvariable => exact means_of_expression rfl (computes_step _ hsc hΓ.of_extend hvariable)
  | ifThen hcond hbody ihp ihq =>
    obtain ⟨hholds, htest, hshaped⟩ := hshaped
    have hsc' := hcond.declares_of_holds hholds htest hfree.1 hsc
    have hcomputes := (ihp htest hfree.1 hsc (hΓ.of_extend.of_holds hholds)).of_holds hholds
    exact means_of_statement rfl rfl (does_ifThen hcomputes (ihq hshaped hfree.2 hsc' hΓ))
  | ifElse hcond hbody hother ihp ihq ihr =>
    obtain ⟨hholds, htest, hshaped, hshaped'⟩ := hshaped
    obtain ⟨hcondFree, hbodyFree, hotherFree⟩ := hfree
    have hsc₁ := hcond.declares_of_holds hholds htest hcondFree hsc
    have hsc₂ := hbody.declares hshaped hbodyFree hsc₁
    have hcomputes := (ihp htest hcondFree hsc (hΓ.of_extend.of_holds hholds)).of_holds hholds
    have hfirst := ihq hshaped hbodyFree hsc₁ hΓ.left
    rw [Tree.declared, Declared.extend_append] at hΓ
    have hsecond := ihr hshaped' hotherFree hsc₂ hΓ
    exact means_of_statement rfl rfl (does_ifElse hcomputes hfirst hsecond)
  | whileLoop hcond hbody ihp ihq =>
    obtain ⟨hholds, htest, hshaped⟩ := hshaped
    have hsc' := hcond.declares_of_holds hholds htest hfree.1 hsc
    have hcomputes := (ihp htest hfree.1 hsc (hΓ.of_extend.of_holds hholds)).of_holds hholds
    exact means_of_statement rfl rfl (does_loop hcomputes (ihq hshaped hfree.2 hsc' hΓ))
  | doLoop hbody hcond ihp ihq =>
    obtain ⟨hholds, htest, hshaped⟩ := hshaped
    have hsc₁ := hbody.declares hshaped hfree.2 hsc
    have hround := ihp hshaped hfree.2 hsc hΓ
    have hcomputes := (ihq htest hfree.1 hsc₁ (hΓ.of_holds hholds)).of_holds hholds
    exact means_of_statement rfl rfl (does_rounds hround hcomputes)
  | @forEndless fn sc a u init update body p sc₁ q sc₂ r frame hinit hbody hupdate _ ihp ihq ihr =>
    obtain ⟨-, hinitShaped, -, hupdateShaped, hbodyShaped⟩ := hshaped
    obtain ⟨hinitFree, -, hupdateFree, hbodyFree⟩ := hfree
    have hsc₁ := hinit.declares hinitShaped hinitFree hsc.push
    have hsc₂ := hbody.declares hbodyShaped hbodyFree hsc₁
    have hscope := hupdate.declares hupdateShaped hupdateFree hsc₂
    have hall : (((Declared.extend init.declared ([] :: Γ)).extend body.declared).extend
        update.declared).Within _ := hscope.within hΓ.of_extend
    exact means_of_statement rfl rfl (does_forEndless frame
      (ihp hinitShaped hinitFree hsc.push hall.of_extend.of_extend)
      (ihq hbodyShaped hbodyFree hsc₁ hall.of_extend) (ihr hupdateShaped hupdateFree hsc₂ hall))
  | @forLoop fn sc a u init cond update body p sc₁ c sc₂ q sc₃ r frame hempty hinit hcond hbody
      hupdate _ ihp ihc ihq ihr =>
    obtain ⟨hcondHolds, hinitShaped, hcondShaped, hupdateShaped, hbodyShaped⟩ := hshaped
    obtain ⟨hinitFree, hcondFree, hupdateFree, hbodyFree⟩ := hfree
    have hholds : cond.HoldsExpression := by
      rcases hcondHolds with rfl | hholds
      · cases hempty
      · exact hholds
    have hsc₁ := hinit.declares hinitShaped hinitFree hsc.push
    have hsc₂ := hcond.declares_of_holds hholds hcondShaped hcondFree hsc₁
    have hsc₃ := hbody.declares hbodyShaped hbodyFree hsc₂
    have hscope := hupdate.declares hupdateShaped hupdateFree hsc₃
    have hall : (((Declared.extend init.declared ([] :: Γ)).extend body.declared).extend
        update.declared).Within _ := hscope.within hΓ.of_extend
    have hcomputes := (ihc hcondShaped hcondFree hsc₁
      (hall.of_extend.of_extend.of_holds hholds)).of_holds hholds
    exact means_of_statement rfl rfl (does_for frame hempty
      (ihp hinitShaped hinitFree hsc.push hall.of_extend.of_extend) hcomputes
      (ihq hbodyShaped hbodyFree hsc₂ hall.of_extend) (ihr hupdateShaped hupdateFree hsc₃ hall))
  | binary hlhs hrhs ihp ihq =>
    obtain ⟨hleft, hright, hl, hr⟩ := hshaped
    have hsc₁ := hlhs.declares_of_holds hleft hl hfree.1 hsc
    have hfirst := (ihp hl hfree.1 hsc (hΓ.of_extend.of_holds hleft)).of_holds hleft
    have hsecond := (ihq hr hfree.2 hsc₁ (hΓ.of_extend.of_holds hright)).of_holds hright
    exact means_of_expression rfl (computes_binary _ hfirst hsecond)
  | logical hlhs hrhs ihp ihq =>
    obtain ⟨hleft, hright, hl, hr⟩ := hshaped
    have hsc₁ := hlhs.declares_of_holds hleft hl hfree.1 hsc
    have hfirst := (ihp hl hfree.1 hsc (hΓ.of_extend.of_holds hleft)).of_holds hleft
    have hsecond := (ihq hr hfree.2 hsc₁ (hΓ.of_extend.of_holds hright)).of_holds hright
    exact means_of_expression rfl (computes_logical _ hfirst hsecond)
  | unary hoperand ih =>
    obtain ⟨hholds, hshaped⟩ := hshaped
    have hcomputes := (ih hshaped hfree hsc (hΓ.of_extend.of_holds hholds)).of_holds hholds
    exact means_of_expression rfl (computes_unary _ hcomputes)
  | ident hvariable => exact means_of_expression rfl (computes_ident hsc hΓ.of_extend hvariable)
  | lit => exact means_of_expression rfl (computes_lit _)

end SceneCode
