import SceneCode.Proofs.Emission.Program

/-!
# The rules leave no choice

A tree emits one segment at most: the rules of `Emits` give the segment and the scopes behind it as
soon as the tree, the scopes before it and its address are fixed.  Whatever the rules give without
calls of functions that are not known yet, they give with them too.  So two compilations of a tree
can be compared by comparing what the rules say.
-/

namespace SceneCode

section

variable {config : Config} {fn : Option TypeName} {sc sc₁ sc₂ : Scopes} {a : Address} {t : Tree}
  {u : Usage} {p q : Segment}

theorem Scopes.CallsTo.unique {name : String} {target target' : Target}
    (h : sc.CallsTo config name target) (h' : sc.CallsTo config name target') :
    target = target' := by
  cases target with
  | known address =>
    cases target' with
    | known address' =>
      unfold CallsTo at h h'
      rw [h] at h'
      cases h'
      rfl
    | pending other =>
      unfold CallsTo function? at h
      rw [h'.2.1] at h
      cases h
  | pending other =>
    cases target' with
    | known address =>
      unfold CallsTo function? at h'
      rw [h.2.1] at h'
      cases h'
    | pending other' => rw [h.1, h'.1]

/-- **A tree emits one segment at most**, and leaves the same scopes whatever rule was used. -/
theorem Emits.unique (h : Emits config fn sc a t u p sc₁) (h' : Emits config fn sc a t u q sc₂) :
    p = q ∧ sc₁ = sc₂ := by
  induction h generalizing q sc₂ with
  | empty | seqNil | retEmpty | lit =>
    cases h'
    all_goals first | exact ⟨rfl, rfl⟩ | contradiction
  | seqCons _ _ ihp ihq =>
    cases h' with
    | seqCons hp hq =>
      obtain ⟨rfl, rfl⟩ := ihp hp
      obtain ⟨rfl, rfl⟩ := ihq hq
      exact ⟨rfl, rfl⟩
  | program _ ih =>
    cases h' with
    | program hp => exact ih hp
  | block _ _ ih =>
    cases h' with
    | block hp _ =>
      obtain ⟨rfl, hsc⟩ := ih hp
      cases hsc
      exact ⟨rfl, rfl⟩
  | function hreg hparams _ _ ih =>
    cases h' with
    | function hreg' hparams' hp _ =>
      rw [hreg] at hreg'
      cases hreg'
      rw [hparams] at hparams'
      cases hparams'
      obtain ⟨rfl, hsc⟩ := ih hp
      cases hsc
      exact ⟨rfl, rfl⟩
  | ret hempty _ ih =>
    cases h' with
    | retEmpty => cases hempty
    | ret _ hp =>
      obtain ⟨rfl, rfl⟩ := ih hp
      exact ⟨rfl, rfl⟩
  | declare hdeclare =>
    cases h' with
    | declare hdeclare' =>
      rw [hdeclare] at hdeclare'
      cases hdeclare'
      exact ⟨rfl, rfl⟩
  | declareWith _ hdeclare ih =>
    cases h' with
    | declareWith hp hdeclare' =>
      obtain ⟨rfl, rfl⟩ := ih hp
      rw [hdeclare] at hdeclare'
      cases hdeclare'
      exact ⟨rfl, rfl⟩
  | assign _ hname ih =>
    cases h' with
    | assign hp hname' =>
      obtain ⟨rfl, rfl⟩ := ih hp
      rw [hname] at hname'
      cases hname'
      exact ⟨rfl, rfl⟩
  | compound hread _ hname ih =>
    cases h' with
    | compound hread' hp hname' =>
      rw [hread] at hread'
      cases hread'
      obtain ⟨rfl, rfl⟩ := ih hp
      rw [hname] at hname'
      cases hname'
      exact ⟨rfl, rfl⟩
  | step hname =>
    cases h' with
    | step hname' =>
      rw [hname] at hname'
      cases hname'
      exact ⟨rfl, rfl⟩
  | ident hname =>
    cases h' with
    | ident hname' =>
      rw [hname] at hname'
      cases hname'
      exact ⟨rfl, rfl⟩
  | ifThen _ _ ihp ihq | whileLoop _ _ ihp ihq | doLoop _ _ ihp ihq | binary _ _ ihp ihq
  | logical _ _ ihp ihq =>
    cases h'
    next hp hq =>
    obtain ⟨rfl, rfl⟩ := ihp hp
    obtain ⟨rfl, rfl⟩ := ihq hq
    exact ⟨rfl, rfl⟩
  | ifElse _ _ _ ihp ihq ihr =>
    cases h' with
    | ifElse hp hq hr =>
      obtain ⟨rfl, rfl⟩ := ihp hp
      obtain ⟨rfl, rfl⟩ := ihq hq
      obtain ⟨rfl, rfl⟩ := ihr hr
      exact ⟨rfl, rfl⟩
  | forEndless _ _ _ _ ihp ihq ihr =>
    cases h' with
    | forEndless hp hq hr _ =>
      obtain ⟨rfl, rfl⟩ := ihp hp
      obtain ⟨rfl, rfl⟩ := ihq hq
      obtain ⟨rfl, hsc⟩ := ihr hr
      cases hsc
      exact ⟨rfl, rfl⟩
    | forLoop hempty => cases hempty
  | forLoop hempty _ _ _ _ _ ihp ihc ihq ihr =>
    cases h' with
    | forEndless => cases hempty
    | forLoop _ hp hc hq hr _ =>
      obtain ⟨rfl, rfl⟩ := ihp hp
      obtain ⟨rfl, rfl⟩ := ihc hc
      obtain ⟨rfl, rfl⟩ := ihq hq
      obtain ⟨rfl, hsc⟩ := ihr hr
      cases hsc
      exact ⟨rfl, rfl⟩
  | call _ hcalls ih =>
    cases h' with
    | call hp hcalls' =>
      obtain ⟨rfl, rfl⟩ := ih hp
      obtain rfl := hcalls.unique hcalls'
      exact ⟨rfl, rfl⟩
  | unary _ ih =>
    cases h' with
    | unary hp =>
      obtain ⟨rfl, rfl⟩ := ih hp
      exact ⟨rfl, rfl⟩

end

/-- The options with calls of functions that are not known yet. -/
def Config.allow (config : Config) : Config :=
  { config with forwardCalls := true }

theorem Scopes.CallsTo.allow {config : Config} {sc : Scopes} {name : String} {target : Target}
    (h : sc.CallsTo config name target) : sc.CallsTo config.allow name target := by
  cases target with
  | known address => exact h
  | pending other => exact ⟨h.1, h.2.1, rfl⟩

/-- What a tree emits without calls of functions that are not known yet, it emits with them. -/
theorem Emits.allow {config : Config} {fn : Option TypeName} {sc sc' : Scopes} {a : Address}
    {t : Tree} {u : Usage} {p : Segment} (h : Emits config fn sc a t u p sc') :
    Emits config.allow fn sc a t u p sc' := by
  induction h with
  | call _ hcalls ih => exact .call ih hcalls.allow
  | function hreg hparams _ hsettled ih => exact .function hreg hparams ih hsettled
  | _ => constructor <;> assumption

/-- The rules give a tree at most one program. -/
theorem Tree.Compiles.unique {config : Config} {tree : Tree} {p q : Segment} {frame frame' : Frame}
    {program program' : Program} (h : tree.Compiles config p frame program)
    (h' : tree.Compiles config q frame' program') : program' = program := by
  obtain ⟨rfl, hframe⟩ := h.emits.unique h'.emits
  cases hframe
  obtain ⟨code, init, render⟩ := program
  obtain ⟨code', init', render'⟩ := program'
  have hcode : code' = code := h'.code.trans h.code.symm
  have hinit : init' = init := h'.init.trans h.init.symm
  have hrender : render' = render := h'.render.trans h.render.symm
  rw [hcode, hinit, hrender]

/-- A tree that compiles without calls of functions that are not known yet compiles to the same
    program with them, if it compiles at all. -/
theorem Tree.Compiles.eq_of_allow {config : Config} {tree : Tree} {p q : Segment}
    {frame frame' : Frame} {program program' : Program}
    (h : tree.Compiles config p frame program)
    (h' : tree.Compiles config.allow q frame' program') : program' = program := by
  have hallow : tree.Compiles config.allow p frame program :=
    ⟨h.emits.allow, h.settled, h.complete, h.code, h.init, h.render⟩
  exact hallow.unique h'

end SceneCode
