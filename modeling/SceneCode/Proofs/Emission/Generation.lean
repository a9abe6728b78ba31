import SceneCode.Proofs.Emission.Rules

/-!
# Generation follows the rules

The one place where the computations of `Tree.generate` are taken apart: whenever generation
succeeds, one of the rules of `Emits` applies, and the session has grown by the segment that the
rule gives.  There is one lemma for each construct, about any computations that generate its parts,
and `generates_generate` puts them together along the tree.
-/

namespace SceneCode

/-- Whenever the computation succeeds, the tree emits a segment by which the session has grown. -/
def Gen.Generates (x : Gen Unit) (t : Tree) (u : Usage) : Prop :=
  ∀ ⦃s s' : Session⦄, x.Yields s () s' →
    ∃ p, Emits s.config s.functions.types.head? s.scopes.bare s.code.next t u p s'.scopes.bare ∧
      s.Grows p s'

namespace Gen

open Instruction Session

variable {x y z v : Gen Unit} {t t₁ t₂ t₃ t₄ : Tree} {u : Usage} {s s₁ s₂ : Session}

theorem grows_finish (s : Session) (u : Usage) :
    s.Grows (Segment.finish u) (s.write (finishWords u)) := by
  cases u with
  | value =>
    rw [finishWords, write_nil]
    exact Grows.nothing s
  | discard => exact Grows.one s rfl

theorem grows_store (s : Session) (u : Usage) (depth slot : Nat) :
    s.Grows (Segment.store u depth slot) (s.write (storeWords u depth slot)) := by
  cases u with
  | value => exact Grows.ops s [.dup, .store depth slot] (by simp [Plain.pending?])
  | discard => exact Grows.ops s [.store depth slot] (by simp [Plain.pending?])

/-! ### Expressions -/

theorem generates_lit (value : Literal) : Generates (literal value u) (.lit value) u := by
  intro s s' h
  simp only [literal, yields_bind, yields_emitAll, yields_finish] at h
  obtain ⟨_, _, rfl, rfl⟩ := h
  exact ⟨_, .lit, (Grows.one s rfl).seq (grows_finish _ u)⟩

theorem generates_ident (name : String) : Generates (identifier name u) (.ident name) u := by
  intro s s' h
  simp only [identifier, yields_bind, yields_loadVariable, yields_finish] at h
  obtain ⟨_, _, ⟨depth, slot, hname, rfl⟩, rfl⟩ := h
  exact ⟨_, .ident (by simpa using hname), (Grows.one s rfl).seq (grows_finish _ u)⟩

theorem generates_assign (name : String) (hx : Generates x t .value) :
    Generates (assign name x u) (.assign name t) u := by
  intro s s' h
  simp only [assign, yields_bind, yields_storeVariable] at h
  obtain ⟨_, s₁, hvalue, depth, slot, hname, rfl⟩ := h
  obtain ⟨p, hp, hgrow⟩ := hx hvalue
  exact ⟨_, .assign hp (by simpa using hname), hgrow.seq (grows_store s₁ u depth slot)⟩

theorem generates_compound (op : BinaryOp) (name : String) (hx : Generates x t .value) :
    Generates (compound op name x u) (.compound op name t) u := by
  intro s s' h
  simp only [compound, yields_bind, yields_loadVariable, yields_emitAll, yields_storeVariable] at h
  obtain ⟨_, _, ⟨depth, slot, hname, rfl⟩, _, s₂, hvalue, _, _, rfl, depth', slot', hname', rfl⟩ := h
  obtain ⟨p, hp, hgrow⟩ := hx hvalue
  rw [next_write] at hp
  have hload := Grows.one s (i := .load depth slot) rfl
  have hop := Grows.one s₂ (i := .binary op) rfl
  exact ⟨_, .compound (by simpa using hname) hp (by simpa using hname'),
    hload.seq (hgrow.seq (hop.seq (grows_store _ u depth' slot')))⟩

theorem generates_step (op : StepOp) (name : String) :
    Generates (step op name u) (.step op name) u := by
  intro s s' h
  simp only [step, yields_bind, yields_loadVariable, yields_emitAll, yields_storeVariable] at h
  obtain ⟨_, _, ⟨depth, slot, hname, rfl⟩, _, _, rfl, depth', slot', hname', rfl⟩ := h
  simp only [scopes_write] at hname'
  obtain ⟨rfl, rfl⟩ : depth' = depth ∧ slot' = slot := by
    rw [hname] at hname'
    cases hname'
    exact ⟨rfl, rfl⟩
  refine ⟨_, .step (by simpa using hname), ?_⟩
  have hops := Grows.ops s [.load depth' slot', .push (.int 1), .binary op.binary]
    (by simp [Plain.pending?])
  have hwords : encode ([Plain.load depth' slot', .push (.int 1), .binary op.binary].map .plain) =
      [.op .load, .int depth', .int slot'] ++ [.op .push, .int 1, .op op.opcode] := by
    cases op <;> rfl
  rw [hwords, ← write_write] at hops
  exact hops.seq (grows_store _ u depth' slot')

theorem generates_binary (op : BinaryOp) (hx : Generates x t₁ .value) (hy : Generates y t₂ .value) :
    Generates (binary op x y u) (.binary op t₁ t₂) u := by
  intro s s' h
  simp only [binary, yields_bind, yields_emitAll, yields_finish] at h
  obtain ⟨_, s₁, hlhs, _, s₂, hrhs, _, _, rfl, rfl⟩ := h
  obtain ⟨p, hp, hgrowp⟩ := hx hlhs
  obtain ⟨q, hq, hgrowq⟩ := hy hrhs
  rw [hgrowp.config, hgrowp.functions, hgrowp.next] at hq
  have hop := Grows.one s₂ (i := .binary op) rfl
  exact ⟨_, .binary hp hq, hgrowp.seq (hgrowq.seq (hop.seq (grows_finish _ u)))⟩

theorem generates_unary (op : UnaryOp) (hx : Generates x t .value) :
    Generates (unary op x u) (.unary op t) u := by
  intro s s' h
  simp only [unary, yields_bind, yields_emitAll, yields_finish] at h
  obtain ⟨_, s₁, hvalue, _, _, rfl, rfl⟩ := h
  obtain ⟨p, hp, hgrow⟩ := hx hvalue
  have hop := Grows.one s₁ (i := .unary op) rfl
  exact ⟨_, .unary hp, hgrow.seq (hop.seq (grows_finish _ u))⟩

theorem generates_logical (op : LogicalOp) (hx : Generates x t₁ .value)
    (hy : Generates y t₂ .value) : Generates (logical op x y u) (.logical op t₁ t₂) u := by
  intro s s' h
  simp only [logical, yields_bind, yields_emitAll, yields_emitJump, yields_land,
    yields_finish] at h
  obtain ⟨_, s₁, hlhs, _, _, rfl, hole, _, ⟨rfl, rfl⟩, _, _, rfl, _, s₂, hrhs, _, _, ⟨-, rfl⟩,
    rfl⟩ := h
  obtain ⟨p, hp, hgrowp⟩ := hx hlhs
  obtain ⟨q, hq, hgrowq⟩ := hy hrhs
  have hjump : (LogicalOp.jump op).opcode = op.opcode := by cases op <;> rfl
  have hdup := Grows.one s₁ (i := .dup) rfl
  have hpop := Grows.one ((s₁.write [.op .dup]).write op.jump.hole) (i := .pop) rfl
  rw [Jump.hole, hjump] at hpop
  have hbody : ((s₁.write [.op .dup]).write op.jump.hole).Grows (.seq (.one .pop) q) s₂ := by
    rw [Jump.hole, hjump]
    exact hpop.seq hgrowq
  have hskip := Grows.skip hbody
  simp only [next_write, config_write, functions_write, scopes_write] at hq
  rw [hgrowp.config, hgrowp.functions, hgrowp.next] at hq
  exact ⟨_, .logical hp hq, hgrowp.seq (hdup.seq (hskip.seq (grows_finish _ u)))⟩

/-- A call with its operands, whatever its target. -/
theorem generates_call (name : String) (args : List Tree) (hx : Generates x (.seq args) .value) :
    Generates (call name args.length x u) (.call name args) u := by
  intro s s' h
  simp only [call, yields_bind, yields_emitAll, yields_callTarget, yields_finish] at h
  obtain ⟨_, _, hargs, target, s₁, ⟨rfl, htarget⟩, _, _, rfl, _, s₂, hemit, _, _, rfl, rfl⟩ := h
  obtain ⟨p, hp, hgrow⟩ := hx hargs
  rcases htarget with ⟨rfl, hnone⟩ | ⟨address, rfl, hknown⟩
  · rw [yields_emitTarget_none, next_write, List.length_singleton] at hemit
    obtain ⟨hallowed, rfl⟩ := hemit
    have hcall : s₁.Grows (.one (.call (.pending name) args.length))
        ((((s₁.write [.op .call]).write [Code.placeholder]).setScopes
          (s₁.scopes.defer ⟨name, s₁.code.next + 1⟩)).write [.int args.length]) := by
      refine ⟨rfl, rfl, rfl, ?_, rfl⟩
      simp only [toList_write, code_setScopes, List.append_assoc]
      rfl
    refine ⟨.seq p (.seq (.one (.call (.pending name) args.length)) (Segment.finish u)),
      .call hp ⟨rfl, ?_, ?_⟩, hgrow.seq (hcall.seq ?_)⟩
    · simpa using hnone
    · rw [← hgrow.config]
      exact hallowed
    · exact grows_finish _ u
  · rw [yields_emitTarget_some] at hemit
    subst hemit
    have hcall := Grows.one s₁ (i := .call (.known address) args.length) rfl
    have hwords : ((s₁.write [.op .call]).write [.addr address]).write [.int args.length] =
        s₁.write (Instruction.plain (.call (.known address) args.length)).words := by
      rw [write_write, write_write]
      rfl
    refine ⟨.seq p (.seq (.one (.call (.known address) args.length)) (Segment.finish u)),
      .call hp ?_, ?_⟩
    · simpa [Scopes.CallsTo] using hknown
    · rw [hwords]
      exact hgrow.seq (hcall.seq (grows_finish _ u))

/-! ### Statements -/

theorem generates_empty : Generates (Pure.pure ()) .empty u := by
  intro s s' h
  simp only [yields_pure, true_and] at h
  subst h
  exact ⟨_, .empty, Grows.nothing s'⟩

theorem generates_seqNil : Generates (Pure.pure ()) (.seq []) u := by
  intro s s' h
  simp only [yields_pure, true_and] at h
  subst h
  exact ⟨_, .seqNil, Grows.nothing s'⟩

theorem generates_seqCons {ts : List Tree} (hx : Generates x t u)
    (hy : Generates y (.seq ts) u) : Generates (do x; y) (.seq (t :: ts)) u := by
  intro s s' h
  simp only [yields_bind] at h
  obtain ⟨_, s₁, hfirst, hrest⟩ := h
  obtain ⟨p, hp, hgrowp⟩ := hx hfirst
  obtain ⟨q, hq, hgrowq⟩ := hy hrest
  rw [hgrowp.config, hgrowp.functions, hgrowp.next] at hq
  exact ⟨_, .seqCons hp hq, hgrowp.seq hgrowq⟩

theorem generates_program (hx : Generates x t .discard) : Generates x (.program t) u := by
  intro s s' h
  obtain ⟨p, hp, hgrow⟩ := hx h
  exact ⟨p, .program hp, hgrow⟩

theorem generates_declare (type : TypeName) (name : String) :
    Generates (declare type name) (.declare type name) u := by
  intro s s' h
  simp only [declare, yields_bind, yields_registerLabel, yields_pure, true_and] at h
  obtain ⟨slot, _, ⟨sc, hreg, rfl⟩, rfl⟩ := h
  exact ⟨_, .declare (Scopes.register_bare hreg),
    (Adds.refl s).relabel (Scopes.outer_of_register hreg) (Scopes.pending_of_register hreg)⟩

theorem generates_declareWith (type : TypeName) (name : String) (hx : Generates x t .value) :
    Generates (declareWith type name x) (.declareWith type name t) u := by
  intro s s' h
  simp only [declareWith, yields_bind, yields_registerLabel, yields_emitAll] at h
  obtain ⟨_, s₁, hvalue, slot, _, ⟨sc, hreg, rfl⟩, rfl⟩ := h
  obtain ⟨p, hp, hgrow⟩ := hx hvalue
  have hlabel : s.Grows p (s₁.setScopes sc) := Adds.relabel hgrow
    (Scopes.outer_of_register hreg) (Scopes.pending_of_register hreg)
  have hstore := Grows.one (s₁.setScopes sc) (i := .store 0 slot) rfl
  exact ⟨_, .declareWith hp (Scopes.register_bare hreg), hlabel.seq hstore⟩

theorem generates_ret (hx : Generates x t .value) : Generates (ret t.isEmpty x) (.ret t) u := by
  intro s s' h
  simp only [ret, yields_bind, yields_currentFunctionType] at h
  obtain ⟨type, s, ⟨htype, rfl⟩, h⟩ := h
  rcases hempty : t.isEmpty with _ | _
  · simp only [hempty, Bool.false_eq_true, if_false, yields_bind] at h
    obtain ⟨_, s₁, hvalue, h⟩ := h
    obtain ⟨p, hp, hgrow⟩ := hx hvalue
    rw [htype] at hp
    refine ⟨.seq p (Segment.leave type), ?_, ?_⟩
    · rw [htype]
      have hscopes : s'.scopes = s₁.scopes := by
        rcases hvoid : type.isVoid with _ | _ <;>
          · simp only [hvoid, Bool.false_eq_true, if_false, if_true, yields_emitAll] at h
            rw [h, scopes_write]
      rw [hscopes]
      exact .ret hempty hp
    · apply hgrow.seq
      rcases hvoid : type.isVoid with _ | _
      · simp only [hvoid, Bool.false_eq_true, if_false, yields_emitAll] at h
        subst h
        rw [Segment.leave, hvoid]
        exact Grows.ops s₁ [.retValue] (by simp [Plain.pending?])
      · simp only [hvoid, if_true, yields_emitAll] at h
        subst h
        rw [Segment.leave, hvoid]
        exact Grows.ops s₁ [.pop, .ret] (by simp [Plain.pending?])
  · simp only [hempty, if_true, yields_emitAll] at h
    subst h
    have ht : t = .empty := by
      cases t <;> simp_all [Tree.isEmpty]
    subst ht
    refine ⟨.one .ret, ?_, Grows.one s rfl⟩
    rw [htype]
    exact .retEmpty

theorem generates_block (hx : Generates x t .discard) : Generates (block x) (.block t) u := by
  intro s s' h
  simp only [block, yields_bind, yields_pushScope] at h
  obtain ⟨_, _, rfl, _, s₁, hbody, hpop⟩ := h
  obtain ⟨p, hp, hgrow⟩ := hx hbody
  obtain ⟨hbare, hcloses⟩ := closes_popScope rfl rfl hgrow hpop
  rw [hbare, next_write] at hp
  rw [next_write] at hcloses
  have hscopes : s'.scopes.bare = s.scopes.bare := by
    rw [hcloses.scopes, Scopes.bare_deferAll]
  rw [hscopes]
  exact ⟨_, .block hp (Segment.settledBy_of_code hcloses.settled), Grows.scope hcloses⟩

theorem generates_ifThen (hx : Generates x t₁ .value) (hy : Generates y t₂ .discard) :
    Generates (ifThen x y) (.ifThen t₁ t₂) u := by
  intro s s' h
  simp only [ifThen, yields_bind, yields_emitJump, yields_land] at h
  obtain ⟨_, s₁, hcond, _, _, ⟨rfl, rfl⟩, _, s₂, hbody, -, rfl⟩ := h
  obtain ⟨p, hp, hgrowp⟩ := hx hcond
  obtain ⟨q, hq, hgrowq⟩ := hy hbody
  simp only [next_write, config_write, functions_write, scopes_write] at hq
  rw [hgrowp.config, hgrowp.functions, hgrowp.next] at hq
  exact ⟨_, .ifThen hp hq, hgrowp.seq (Grows.skip hgrowq)⟩

theorem generates_ifElse (hx : Generates x t₁ .value) (hy : Generates y t₂ .discard)
    (hz : Generates z t₃ .discard) : Generates (ifElse x y z) (.ifElse t₁ t₂ t₃) u := by
  intro s s' h
  simp only [ifElse, yields_bind, yields_emitJump, yields_land] at h
  obtain ⟨_, s₁, hcond, _, _, ⟨rfl, rfl⟩, _, s₂, hbody, _, _, ⟨rfl, rfl⟩, _, s₃, ⟨-, rfl⟩, _, s₄,
    hother, -, rfl⟩ := h
  obtain ⟨p, hp, hgrowp⟩ := hx hcond
  obtain ⟨q, hq, hgrowq⟩ := hy hbody
  obtain ⟨r, hr, hgrowr⟩ := hz hother
  have hnext : s₂.code.next = s.code.next + p.size + 2 + q.size := by
    rw [hgrowq.next, next_write, hgrowp.next]
    rfl
  simp only [next_write, config_write, functions_write, scopes_write, next_replace,
    config_replace, functions_replace, scopes_replace, hgrowq.config, hgrowq.functions] at hq hr
  rw [hgrowp.config, hgrowp.functions, hgrowp.next] at hq
  rw [hgrowp.config, hgrowp.functions, hnext] at hr
  exact ⟨_, .ifElse hp hq hr, hgrowp.seq (Grows.choice hgrowq rfl hgrowr)⟩

theorem generates_whileLoop (hx : Generates x t₁ .value) (hy : Generates y t₂ .discard) :
    Generates (whileLoop x y) (.whileLoop t₁ t₂) u := by
  intro s s' h
  simp only [whileLoop, yields_bind, yields_here, yields_emitJump, yields_emitAll,
    yields_land] at h
  obtain ⟨_, _, ⟨rfl, rfl⟩, _, s₁, hcond, _, _, ⟨rfl, rfl⟩, _, s₂, hbody, _, _, rfl, -, rfl⟩ := h
  obtain ⟨p, hp, hgrowp⟩ := hx hcond
  obtain ⟨q, hq, hgrowq⟩ := hy hbody
  simp only [next_write, config_write, functions_write, scopes_write] at hq
  rw [hgrowp.config, hgrowp.functions, hgrowp.next] at hq
  exact ⟨_, .whileLoop hp hq, Grows.loop hgrowp hgrowq rfl⟩

theorem generates_doLoop (hx : Generates x t₁ .value) (hy : Generates y t₂ .discard) :
    Generates (doLoop x y) (.doLoop t₁ t₂) u := by
  intro s s' h
  simp only [doLoop, yields_bind, yields_here, yields_emitAll] at h
  obtain ⟨_, _, ⟨rfl, rfl⟩, _, s₁, hbody, _, s₂, hcond, rfl⟩ := h
  obtain ⟨p, hp, hgrowp⟩ := hy hbody
  obtain ⟨q, hq, hgrowq⟩ := hx hcond
  rw [hgrowp.config, hgrowp.functions, hgrowp.next] at hq
  exact ⟨_, .doLoop hp hq, Grows.rounds .ifTrue (hgrowp.seq hgrowq)⟩

theorem generates_forEndless (hx : Generates x t₁ .discard) (hz : Generates z t₃ .discard)
    (hv : Generates v t₄ .discard) :
    Generates (forLoop x true y z v) (.forLoop t₁ .empty t₃ t₄) u := by
  intro s s' h
  simp only [forLoop, yields_bind, yields_here, yields_pushScope, yields_emitAll, if_true] at h
  obtain ⟨_, _, rfl, _, s₁, hinit, _, _, ⟨rfl, rfl⟩, _, s₂, hbody, _, s₃, hupdate, _, _, rfl,
    hpop⟩ := h
  obtain ⟨p, hp, hgrowp⟩ := hx hinit
  obtain ⟨q, hq, hgrowq⟩ := hv hbody
  obtain ⟨r, hr, hgrowr⟩ := hz hupdate
  have hrounds := Grows.rounds .always (hgrowq.seq hgrowr)
  obtain ⟨hbare, hcloses⟩ := closes_popScope rfl rfl (hgrowp.seq hrounds) hpop
  rw [scopes_write] at hbare
  rw [hbare, hgrowq.config, hgrowp.config, hgrowq.functions, hgrowp.functions, hgrowq.next,
    hgrowp.next, next_write] at hr
  rw [hgrowp.config, hgrowp.functions, hgrowp.next, next_write] at hq
  rw [next_write] at hp hcloses
  have hscopes : s'.scopes.bare = s.scopes.bare := by
    rw [hcloses.scopes, Scopes.bare_deferAll]
  rw [hscopes]
  exact ⟨_, .forEndless hp hq hr (Segment.settledBy_of_code hcloses.settled),
    Grows.scope hcloses⟩

theorem generates_forCond (hx : Generates x t₁ .discard) (hy : Generates y t₂ .value)
    (hz : Generates z t₃ .discard) (hv : Generates v t₄ .discard) (hempty : t₂.isEmpty = false) :
    Generates (forLoop x false y z v) (.forLoop t₁ t₂ t₃ t₄) u := by
  intro s s' h
  simp only [forLoop, yields_bind, yields_here, yields_pushScope, yields_emitAll, yields_emitJump,
    yields_land, Bool.false_eq_true, if_false] at h
  obtain ⟨_, _, rfl, _, s₁, hinit, _, _, ⟨rfl, rfl⟩, _, s₂, hcond, _, _, ⟨rfl, rfl⟩, _, s₃,
    hbody, _, s₄, hupdate, _, _, rfl, _, _, ⟨-, rfl⟩, hpop⟩ := h
  obtain ⟨p, hp, hgrowp⟩ := hx hinit
  obtain ⟨c, hc, hgrowc⟩ := hy hcond
  obtain ⟨q, hq, hgrowq⟩ := hv hbody
  obtain ⟨r, hr, hgrowr⟩ := hz hupdate
  have hloop := Grows.loop hgrowc (hgrowq.seq hgrowr) rfl
  obtain ⟨hbare, hcloses⟩ := closes_popScope rfl rfl (hgrowp.seq hloop) hpop
  rw [scopes_replace, scopes_write] at hbare
  rw [hbare, hgrowq.config, hgrowq.functions, hgrowq.next] at hr
  simp only [next_write, config_write, functions_write, scopes_write, hgrowc.config,
    hgrowc.functions, hgrowc.next, hgrowp.config, hgrowp.functions, hgrowp.next] at hc hq hr
  rw [next_write] at hp hcloses
  have hscopes : s'.scopes.bare = s.scopes.bare := by
    rw [hcloses.scopes, Scopes.bare_deferAll]
  rw [hscopes]
  exact ⟨_, .forLoop hempty hp hc hq hr (Segment.settledBy_of_code hcloses.settled),
    Grows.scope hcloses⟩

theorem generates_forLoop (hx : Generates x t₁ .discard) (hy : Generates y t₂ .value)
    (hz : Generates z t₃ .discard) (hv : Generates v t₄ .discard) :
    Generates (forLoop x t₂.isEmpty y z v) (.forLoop t₁ t₂ t₃ t₄) u := by
  rcases hempty : t₂.isEmpty with _ | _
  · exact generates_forCond hx hy hz hv hempty
  · cases t₂ with
    | empty => exact generates_forEndless hx hz hv
    | _ => cases hempty

/-! ### Functions -/

theorem yields_declareParams {ps : List Param} {a : Unit} {s t : Session} :
    (declareParams ps).Yields s a t ↔
      ∃ sc, s.scopes.declareAll ps = .ok sc ∧ t = s.setScopes sc := by
  induction ps generalizing s with
  | nil =>
    simp only [declareParams, yields_pure, true_and, Scopes.declareAll]
    constructor
    · rintro rfl
      exact ⟨_, rfl, rfl⟩
    · rintro ⟨_, hok, rfl⟩
      cases hok
      rfl
  | cons p ps ih =>
    simp only [declareParams, declare, yields_bind, yields_registerLabel, yields_pure, true_and,
      ih, Scopes.declareAll_cons, Scopes.register_variable]
    constructor
    · rintro ⟨_, _, ⟨slot, _, ⟨mid, hdeclare, rfl⟩, rfl⟩, sc, hrest, rfl⟩
      exact ⟨sc, ⟨slot, mid, hdeclare, hrest⟩, rfl⟩
    · rintro ⟨sc, ⟨slot, mid, hdeclare, hrest⟩, rfl⟩
      exact ⟨(), _, ⟨slot, _, ⟨mid, hdeclare, rfl⟩, rfl⟩, sc, hrest, rfl⟩

/-- A definition without the jump over it, from its label to the end of its body. -/
theorem grows_definition {name : String} {params : List Param} {returns : TypeName}
    (hx : Generates x t .discard) {s s' : Session}
    (h : Yields (do
      let _ ← registerLabel name .function (some ⟨params, returns⟩)
      enterFunction returns
      pushScope true
      declareParams params
      x
      emitAll [.op .ret]
      popScope true
      exitFunction) s () s') :
    ∃ sc₁ sc₂ p frame,
      s.scopes.bare.register name .function (some ⟨params, returns⟩) s.code.next =
        .ok (s.code.next, sc₁) ∧
      sc₁.push.declareAll params = .ok sc₂ ∧
      Emits s.config (some returns) sc₂ s.code.next t .discard p ⟨frame, sc₁.frames⟩ ∧
      p.SettledBy frame ∧ s'.scopes.bare = sc₁ ∧
      s.Grows (.seq (p.settle frame) (.one .ret)) s' := by
  simp only [yields_bind, yields_registerLabel, yields_enterFunction, yields_pushScope,
    yields_declareParams, yields_emitAll, yields_exitFunction, enterWords, if_true,
    write_nil] at h
  obtain ⟨address, _, ⟨sc₁, hreg, rfl⟩, _, _, rfl, _, _, rfl, _, _, ⟨sc₂, hparams, rfl⟩, _, s₁,
    hbody, _, _, rfl, _, s₂, hpop, rfl⟩ := h
  obtain rfl := Scopes.address_of_register hreg
  obtain ⟨hbareParams, houter, hnone⟩ := Scopes.declareAll_bare hparams
  obtain ⟨p, hp, hgrow⟩ := hx hbody
  have hret := Grows.one s₁ (i := .ret) rfl
  obtain ⟨hbare, hcloses⟩ := closes_popScope houter hnone (hgrow.seq hret) hpop
  have hsettled : Segment.SettledBy s₁.scopes.current.settled (.seq p (.one .ret)) :=
    Segment.settledBy_of_code hcloses.settled
  have hcode : ((Segment.seq p (.one .ret)).code s.code.next).map
      (Instruction.settle s₁.scopes.current.settled) =
      (Segment.seq (p.settle s₁.scopes.current.settled) (.one .ret)).code s.code.next := by
    rw [← Segment.code_settle]
    rfl
  have hscopes : s₂.scopes = sc₁.deferAll (pendingCalls s.code.next
      ((Segment.seq (p.settle s₁.scopes.current.settled) (.one .ret)).code s.code.next)) := by
    rw [← hcode]
    exact hcloses.scopes
  have hwords : s₂.code.toList = s.code.toList ++ encode
      ((Segment.seq (p.settle s₁.scopes.current.settled) (.one .ret)).code s.code.next) := by
    rw [← hcode]
    exact hcloses.code.trans (List.append_nil _)
  refine ⟨sc₁.bare, sc₂.bare, p, s₁.scopes.current.settled, Scopes.register_bare hreg,
    hbareParams, ?_, ?_, ?_, hcloses.config, ?_, ?_, hwords, ?_⟩
  · rw [scopes_write] at hbare
    rw [hbare] at hp
    exact hp
  · intro name hname
    exact hsettled name (by simpa [Segment.pending, Segment.plains, Plain.pending?] using hname)
  · rw [hscopes, Scopes.bare_deferAll]
  · exact congrArg (fun f => f.exit.2) hcloses.functions
  · rw [hscopes, Scopes.outer_deferAll, Scopes.outer_of_register hreg]
  · rw [hscopes, Scopes.pending_deferAll, Scopes.pending_of_register hreg]

theorem code_guarded (q : Segment) (a : Nat) :
    (Segment.function true q).code a = (Segment.skip .always (.seq q (.one .ret))).code a := by
  simp [Segment.code, Segment.guardCode, Segment.guardSize, Segment.size, Plain.size,
    Nat.add_assoc]

theorem code_unguarded (q : Segment) (a : Nat) :
    (Segment.function false q).code a = (Segment.seq q (.one .ret)).code a := by
  simp [Segment.code, Segment.guardCode, Segment.guardSize]

theorem generates_function (name : String) (params : List Param) (returns : TypeName)
    (hx : Generates x t .discard) :
    Generates (function name params returns x) (.function name params returns t) u := by
  intro s s' h
  simp only [function, yields_bind, yields_ask] at h
  obtain ⟨needed, s, ⟨hneeded, rfl⟩, h⟩ := h
  have hguarded : needed = guarded s.config s.functions.types.head? := by
    rw [hneeded, guarded, ReturnTypes.depth]
    rcases s.functions.types with _ | ⟨type, rest⟩
    · rfl
    · rfl
  unfold jumpOver at h
  cases needed with
  | true =>
    simp only [if_true] at h
    rw [yields_bind] at h
    obtain ⟨hole, _, hjump, h⟩ := h
    obtain ⟨rfl, rfl⟩ := yields_emitJump.mp hjump
    rw [yields_bind] at h
    obtain ⟨_, s₁, hbody, h⟩ := h
    obtain ⟨-, rfl⟩ := yields_land.mp h
    obtain ⟨sc₁, sc₂, p, frame, hreg, hparams, hp, hsettled, hscopes, hgrow⟩ :=
      grows_definition hx hbody
    refine ⟨.function true (p.settle frame), ?_, ?_⟩
    · rw [scopes_replace, hscopes, hguarded]
      rw [next_write] at hreg hp
      refine .function ?_ hparams ?_ hsettled
      · rw [← hguarded]
        exact hreg
      · rw [← hguarded]
        exact hp
    · unfold Grows
      rw [code_guarded]
      exact Grows.skip hgrow
  | false =>
    simp only [Bool.false_eq_true, if_false] at h
    obtain ⟨sc₁, sc₂, p, frame, hreg, hparams, hp, hsettled, hscopes, hgrow⟩ :=
      grows_definition hx h
    refine ⟨.function false (p.settle frame), ?_, ?_⟩
    · rw [hscopes, hguarded]
      refine .function ?_ hparams ?_ hsettled
      · rw [← hguarded]
        exact hreg
      · rw [← hguarded]
        exact hp
    · unfold Grows
      rw [code_unguarded]
      exact hgrow

/-! ### Trees -/

theorem generates_node (kind : Kind) (hx : Generates x t u) : Generates (node kind x) t u := by
  intro s s' h
  exact hx (yields_node.mp h)

end Gen

mutual

/-- **Generation follows the rules.**  Whenever the generation of a tree succeeds, a rule applies,
    and the session has grown by the segment that the rule gives. -/
theorem generates_generate (t : Tree) (u : Usage) : (t.generate u).Generates t u := by
  match t with
  | .empty => exact Gen.generates_empty
  | .seq items => exact generates_generateAll items u
  | .program body => exact Gen.generates_node _ (Gen.generates_program (generates_generate body _))
  | .block body => exact Gen.generates_node _ (Gen.generates_block (generates_generate body _))
  | .function name params returns body =>
    exact Gen.generates_node _
      (Gen.generates_function name params returns (generates_generate body _))
  | .ret value => exact Gen.generates_node _ (Gen.generates_ret (generates_generate value _))
  | .declare type name => exact Gen.generates_node _ (Gen.generates_declare type name)
  | .declareWith type name value =>
    exact Gen.generates_node _
      (Gen.generates_declareWith type name (generates_generate value _))
  | .assign name value =>
    exact Gen.generates_node _ (Gen.generates_assign name (generates_generate value _))
  | .compound op name value =>
    exact Gen.generates_node _ (Gen.generates_compound op name (generates_generate value _))
  | .step op name => exact Gen.generates_node _ (Gen.generates_step op name)
  | .ifThen cond body =>
    exact Gen.generates_node _
      (Gen.generates_ifThen (generates_generate cond _) (generates_generate body _))
  | .ifElse cond body other =>
    exact Gen.generates_node _
      (Gen.generates_ifElse (generates_generate cond _) (generates_generate body _)
        (generates_generate other _))
  | .whileLoop cond body =>
    exact Gen.generates_node _
      (Gen.generates_whileLoop (generates_generate cond _) (generates_generate body _))
  | .doLoop cond body =>
    exact Gen.generates_node _
      (Gen.generates_doLoop (generates_generate cond _) (generates_generate body _))
  | .forLoop init cond update body =>
    exact Gen.generates_node _
      (Gen.generates_forLoop (generates_generate init _) (generates_generate cond _)
        (generates_generate update _) (generates_generate body _))
  | .call name args =>
    exact Gen.generates_node _ (Gen.generates_call name args (generates_generateAll args _))
  | .binary op lhs rhs =>
    exact Gen.generates_node _
      (Gen.generates_binary op (generates_generate lhs _) (generates_generate rhs _))
  | .logical op lhs rhs =>
    exact Gen.generates_node _
      (Gen.generates_logical op (generates_generate lhs _) (generates_generate rhs _))
  | .unary op operand =>
    exact Gen.generates_node _ (Gen.generates_unary op (generates_generate operand _))
  | .ident name => exact Gen.generates_node _ (Gen.generates_ident name)
  | .lit value => exact Gen.generates_node _ (Gen.generates_lit value)

theorem generates_generateAll (ts : List Tree) (u : Usage) :
    (Tree.generateAll ts u).Generates (.seq ts) u := by
  match ts with
  | [] => exact Gen.generates_seqNil
  | t :: rest =>
    exact Gen.generates_seqCons (generates_generate t u) (generates_generateAll rest u)

end

end SceneCode
