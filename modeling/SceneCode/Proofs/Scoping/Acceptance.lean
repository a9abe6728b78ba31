import SceneCode.Proofs.Scoping.Tracking

/-!
# Which trees compile

A tree compiles exactly if it follows the rules for scopes.  If it does not, the fault is the one
that the checker finds: the first thing that breaks a rule in the order of generation, where a call
of a function that is not known yet is judged when the scope closes that it waits in.
-/

namespace SceneCode

namespace Gen

/-- The last scope settles its calls as the checker does. -/
theorem result_settleAll {calls : List PendingCall} {s : Session}
    (hcalls : ∀ call ∈ calls, call.patchAt < s.code.next) :
    (settleAll calls s).result =
      Scoping.settleLast s.scopes.current.scope.names (calls.map (·.name)) := by
  induction calls generalizing s with
  | nil => rfl
  | cons call rest ih =>
    obtain ⟨hcall, hrest⟩ := List.forall_mem_cons.mp hcalls
    rw [List.map_cons, Scoping.settleLast, Frame.lookup_scope]
    refine (result_bind_of_yields (yields_ask.mpr ⟨rfl, rfl⟩)).trans ?_
    rcases hget : s.scopes.current.get? call.name with _ | ⟨address, kind, signature⟩
    · refine (result_bind_of_yields (yields_settle.mpr (Or.inl ⟨hget, rfl, rfl⟩))).trans ?_
      rfl
    · cases kind with
      | function =>
        refine (result_bind_of_yields
          (yields_settle.mpr (Or.inr ⟨_, hget, rfl, rfl, hcall, rfl⟩))).trans ?_
        exact ih fun other hother => by simpa using hrest other hother
      | «variable» type =>
        apply result_bind_of_error
        simp only [settle, hget]
        rfl

/-- The computation never fails. -/
def Succeeds {α : Type} (x : Gen α) : Prop :=
  ∀ s, ∃ a t, x.Yields s a t

theorem Succeeds.bind {α β : Type} {x : Gen α} {f : α → Gen β} (hx : Succeeds x)
    (hf : ∀ a, Succeeds (f a)) : Succeeds (x >>= f) := by
  intro s
  obtain ⟨a, t, hfirst⟩ := hx s
  obtain ⟨b, u, hsecond⟩ := hf a t
  exact ⟨b, u, yields_bind.mpr ⟨a, t, hfirst, hsecond⟩⟩

/-- Behind the code of the tree nothing can fail. -/
theorem succeeds_ending : Succeeds (do
    if ← ask (·.config.emitHalt) then
      emitAll [.op .halt]
    let init ← entryPoint "init"
    let render ← entryPoint "render"
    log (.compiled (← here) init render)
    return (⟨← takeCode, init, render⟩ : Program)) := by
  have hentry (name : String) : Succeeds (entryPoint name) :=
    fun s => ⟨_, s, yields_entryPoint.mpr ⟨rfl, rfl⟩⟩
  have hhere : Succeeds here := fun s => ⟨_, s, yields_here.mpr ⟨rfl, rfl⟩⟩
  have hlog (e : Event) : Succeeds (log e) := fun s => ⟨(), s, yields_log.mpr rfl⟩
  have htake : Succeeds takeCode := fun s => ⟨_, _, yields_takeCode.mpr ⟨rfl, rfl⟩⟩
  have hreturn (program : Program) : Succeeds (Pure.pure program) :=
    fun s => ⟨program, s, yields_pure.mpr ⟨rfl, rfl⟩⟩
  have hrest := (hentry "init").bind fun init => (hentry "render").bind fun render =>
    hhere.bind fun words => (hlog (.compiled words init render)).bind fun _ =>
      htake.bind fun code => hreturn ⟨code, init, render⟩
  intro s
  refine Succeeds.bind (fun s => ⟨_, s, yields_ask.mpr ⟨rfl, rfl⟩⟩) (fun halts => ?_) s
  cases halts with
  | true => exact Succeeds.bind (fun s => ⟨(), _, yields_emitAll.mpr rfl⟩) fun _ => hrest
  | false => exact hrest

end Gen

/-- **A tree compiles exactly if the checker accepts it**, and otherwise fails for the same
    reason. -/
theorem compile_eq_verdict (config : Config) (tree : Tree) :
    (tree.compile config).map (fun _ => ()) =
      Scoping.verdict config.forwardCalls (tree.acts false) := by
  have hready : Session.Ready ⟨config.forwardCalls, false, []⟩ { config } :=
    ⟨rfl, rfl, by simp [Scopes.places, Scopes.frames], by simp⟩
  have htracks := tracks_generate tree .discard _ hready
  have hreset : Gen.reset.Yields { config } () { config } := Gen.yields_update.mpr rfl
  unfold Tree.compile Gen.compile Scoping.verdict
  rw [Gen.result_bind_of_yields hreset]
  change Gen.Meets _ _ _ (Scoping.run config.forwardCalls ({}, []) (tree.acts false)) at htracks
  cases hrun : Scoping.run config.forwardCalls ({}, []) (tree.acts false) with
  | error e =>
    rw [hrun] at htracks
    rw [Gen.result_bind_of_error htracks]
    rfl
  | ok state =>
    rw [hrun] at htracks
    obtain ⟨_, s, hgen, rfl, -, hsound⟩ := htracks
    rw [Gen.result_bind_of_yields hgen]
    obtain ⟨p, -, hgrow⟩ := generates_generate tree .discard hgen
    have houter : s.scopes.outer = [] := hgrow.outer
    rw [Gen.result_bind_of_yields ((Gen.yields_takeRootPending houter).mpr ⟨rfl, rfl⟩)]
    -- the only scope left settles its calls
    have hcalls : ∀ call ∈ s.scopes.current.pending, call.patchAt < s.code.next := by
      intro call hcall
      apply hsound.places
      exact List.mem_append_left _ (List.mem_map_of_mem hcall)
    have hsettle := Gen.result_settleAll (s := s.setScopes ⟨s.scopes.current.settled, []⟩) hcalls
    have hfinish : Scoping.finish s.scopes.state.1 s.scopes.state.2 = Scoping.settleLast
        s.scopes.current.scope.names (s.scopes.current.pending.map (·.name)) := by
      simp only [Scopes.state, houter, List.map_nil, Scoping.finish]
      rfl
    change _ = Scoping.finish s.scopes.state.1 s.scopes.state.2
    rw [hfinish]
    cases hlast : Scoping.settleLast s.scopes.current.scope.names
        (s.scopes.current.pending.map (·.name)) with
    | error e =>
      rw [Gen.result_bind_of_error (hsettle.trans hlast)]
      rfl
    | ok _ =>
      rw [Gen.result_bind_of_yields ⟨hsettle.trans hlast, rfl⟩]
      obtain ⟨program, t, hend, -⟩ := Gen.succeeds_ending
        (Gen.settleAll s.scopes.current.pending
          (s.setScopes ⟨s.scopes.current.settled, []⟩)).session
      exact congrArg (Except.map fun _ => ()) hend

theorem exists_program_iff (config : Config) (tree : Tree) :
    (∃ program, tree.compile config = .ok program) ↔ tree.WellScoped config := by
  rw [Tree.WellScoped, ← Scoping.verdict_eq_ok_iff, ← compile_eq_verdict]
  cases tree.compile config <;> simp [Except.map]

theorem compile_eq_error_iff (config : Config) (tree : Tree) (e : Fault) :
    tree.compile config = .error e ↔
      Scoping.verdict config.forwardCalls (tree.acts false) = .error e := by
  rw [← compile_eq_verdict]
  cases tree.compile config <;> simp [Except.map]

/-- **A tree compiles exactly if it follows the rules for scopes.**  If it does not, it fails with
    the fault that the checker finds. -/
theorem compiles_iff_wellScoped (config : Config) (tree : Tree) :
    ((∃ program, tree.compile config = .ok program) ↔ tree.WellScoped config) ∧
      ∀ e, tree.compile config = .error e ↔
        Scoping.verdict config.forwardCalls (tree.acts false) = .error e :=
  ⟨exists_program_iff config tree, compile_eq_error_iff config tree⟩

end SceneCode
