import SceneCode.Proofs.Emission.Program
import SceneCode.Proofs.Reading.Names
import SceneCode.Proofs.Session.Ledger

/-!
# Calls of whole programs

The call instructions of a program, in the order of their addresses, are the calls of the reading
of its tree, each with the target that the scopes around it give.  Every place that was deferred on
the way was patched, and patched once.
-/

namespace SceneCode

/-! ### Calls in a listing -/

def Row.callOperands? (r : Row) : Option (List Word) :=
  match r.content with
  | .instruction .call operands => some operands
  | _ => none

def Target.operands : Target × Nat → List Word
  | (target, count) => [target.word, .int count]

theorem Plain.callOperands?_row (i : Plain) (a : Nat) :
    ((Instruction.plain i).row a).callOperands? = i.call?.map Target.operands := by
  cases i with
  | binary op => cases op <;> rfl
  | unary op => cases op <;> rfl
  | _ => rfl

/-- The calls of a listing are the calls of the segment. -/
theorem Segment.callOperands?_rows (p : Segment) (a : Nat) :
    (Listing.rows a (p.words a)).filterMap Row.callOperands? = p.calls.map Target.operands := by
  have hjump (kind : Jump) (target b : Address) :
      ((Instruction.jump kind target).row b).callOperands? = none := by
    cases kind <;> rfl
  rw [filterMap_rows Plain.callOperands?_row hjump, calls, List.map_filterMap]

/-- Calls none of which is pending have addresses. -/
theorem Segment.exists_targets {p : Segment} (h : p.pending = []) :
    ∃ targets : List (Address × Nat),
      p.calls = targets.map fun (address, count) => (.known address, count) := by
  have hnone := List.filterMap_eq_nil_iff.mp h
  unfold calls
  generalize p.plains = is at hnone ⊢
  induction is with
  | nil => exact ⟨[], rfl⟩
  | cons i is ih =>
    have hi := hnone i (List.mem_cons_self ..)
    obtain ⟨targets, htargets⟩ := ih fun j hj => hnone j (List.mem_cons_of_mem i hj)
    cases i with
    | call target count =>
      cases target with
      | known address =>
        exact ⟨(address, count) :: targets, congrArg ((Target.known address, count) :: ·) htargets⟩
      | pending name => cases hi
    | _ => exact ⟨targets, htargets⟩

/-! ### Whole programs -/

def Tree.wholeReading (config : Config) (tree : Tree) : List Mark :=
  tree.reading config none .discard

open Reading in
/-- The calls of a program are the calls of the reading, and all of them have targets. -/
theorem Tree.Compiles.calls {config : Config} {tree : Tree} {p : Segment} {frame : Frame}
    {program : Program} (h : tree.Compiles config p frame program) :
    ∃ targets : List (Address × Nat),
      (Listing.rows 0 program.code).filterMap Row.callOperands? =
        targets.map (fun (address, count) => [.addr address, .int count]) ∧
      Reading.calls config 0 [[]] (tree.wholeReading config) =
        targets.map fun (address, count) => (some address, count) := by
  obtain ⟨targets, htargets⟩ := Segment.exists_targets h.complete
  refine ⟨targets, ?_, ?_⟩
  · have hend : (Segment.ending config.emitHalt).calls = [] := by
      unfold Segment.ending
      split <;> rfl
    rw [h.code, Segment.callOperands?_rows, Segment.whole, Segment.calls_seq, hend, List.append_nil, htargets,
      List.map_map]
    rfl
  · -- nothing comes after the program, so the outermost scope is complete
    have hreads := h.emits.reads.calls []
    simp only [List.append_nil, Reading.complete, Reading.calls] at hreads
    have hsettle : p.calls.map (resolved [frame.names]) =
        (p.settle frame).calls.map (resolved []) := by
      rw [Segment.calls_settle, List.map_map]
      apply List.map_congr_left
      rintro ⟨t, count⟩ hmem
      apply Reads.resolved_settle count
      rintro name rfl
      exact h.settled.of_mem_calls name count hmem
    refine hreads.trans (hsettle.trans ?_)
    rw [htargets, List.map_map]
    rfl

namespace Gen

/-! ### The ledger of a whole program -/

/-- A computation that never defers and never patches, even if it fails. -/
def Quiet {α : Type} (x : Gen α) : Prop :=
  ∀ s, patches (x s).events = [] ∧ deferrals (x s).events = []

theorem Quiet.bind {α β : Type} {x : Gen α} {f : α → Gen β} (hx : Quiet x)
    (hf : ∀ a, Quiet (f a)) : Quiet (x >>= f) := by
  intro s
  obtain ⟨hpatches, hdeferrals⟩ := hx s
  rw [bind_apply]
  rcases (x s).result with e | a
  · exact ⟨hpatches, hdeferrals⟩
  · obtain ⟨hpatches', hdeferrals'⟩ := hf a (x s).session
    unfold patches deferrals at *
    simp only [List.filterMap_append, hpatches, hdeferrals, hpatches', hdeferrals',
      List.append_nil, and_self]

theorem quiet_of_silent {α : Type} {x : Gen α} (h : ∀ s, (x s).events = []) : Quiet x := by
  intro s
  rw [h s]
  exact ⟨rfl, rfl⟩

theorem quiet_entryPoint (name : String) : Quiet (entryPoint name) := by
  refine (quiet_of_silent fun _ => rfl).bind fun r => ?_
  rcases r with _ | ⟨⟨address, kind, signature⟩, depth⟩
  · exact quiet_of_silent fun _ => rfl
  · cases kind with
    | function => exact fun _ => ⟨rfl, rfl⟩
    | «variable» type => exact fun _ => ⟨rfl, rfl⟩

/-- Settling the calls of a finished program patches each of them. -/
theorem patches_settleAll {calls : List PendingCall} {s t : Session}
    (h : (settleAll calls).Yields s () t) :
    patches (settleAll calls s).events = calls.map (·.patchAt) ∧
      deferrals (settleAll calls s).events = [] := by
  induction calls generalizing s with
  | nil => exact ⟨rfl, rfl⟩
  | cons call rest ih =>
    unfold settleAll at h ⊢
    obtain ⟨frame, _, hask, h⟩ := yields_bind.mp h
    obtain ⟨done, mid, hsettle, h⟩ := yields_bind.mp h
    rw [events_bind hask, events_bind hsettle]
    obtain ⟨hdeferrals, hpatches, -, -⟩ := events_settle hsettle
    obtain ⟨rfl, rfl⟩ := yields_ask.mp hask
    cases done with
    | false => simp [yields_bind] at h
    | true =>
      obtain ⟨hpatches', hdeferrals'⟩ := ih h
      have hsilent (r : Session) : (ask (fun s => s.scopes.current) r).events = [] := rfl
      rw [hsilent, List.nil_append]
      unfold patches deferrals at *
      simp only [List.filterMap_append, hpatches, hdeferrals, List.map_cons]
      exact ⟨congrArg (call.patchAt :: ·) hpatches', hdeferrals'⟩

/-- What happens to a finished program is of no concern to the ledger. -/
theorem quiet_completion : Quiet (do
    if ← ask (·.config.emitHalt) then
      emitAll [.op .halt]
    let init ← entryPoint "init"
    let render ← entryPoint "render"
    log (.compiled (← here) init render)
    return Program.mk (← takeCode) init render) := by
  have hlast (init render : Option Address) : Quiet (do
      log (.compiled (← here) init render)
      return Program.mk (← takeCode) init render) := fun _ => ⟨rfl, rfl⟩
  refine (quiet_of_silent fun _ => rfl).bind fun halts => ?_
  have hentries := (quiet_entryPoint "init").bind fun init =>
    (quiet_entryPoint "render").bind fun render => hlast init render
  cases halts with
  | true =>
    have hhalt : Quiet (emitAll [.op .halt]) := quiet_of_silent fun _ => rfl
    exact hhalt.bind fun _ => hentries
  | false => exact hentries

/-- Every place that is deferred while a program is compiled is patched once. -/
theorem ledger_of_compile {config : Config} {tree : Tree} {program : Program}
    (h : tree.compile config = .ok program) :
    (deferrals (compile tree { config }).events).Nodup ∧
      (patches (compile tree { config }).events).Perm
        (deferrals (compile tree { config }).events) := by
  have hyields : (compile tree).Yields { config } program _ := ⟨h, rfl⟩
  unfold compile at hyields ⊢
  obtain ⟨_, s₀, hreset, hyields⟩ := yields_bind.mp hyields
  obtain ⟨_, s₁, hgen, hyields⟩ := yields_bind.mp hyields
  obtain ⟨calls, s₂, htake, hyields⟩ := yields_bind.mp hyields
  obtain ⟨_, s₃, hsettle, hyields⟩ := yields_bind.mp hyields
  rw [events_bind hreset, events_bind hgen, events_bind htake, events_bind hsettle]
  obtain ⟨hquiet, hquiet'⟩ := quiet_completion s₃
  obtain ⟨hpatches, hdeferrals⟩ := patches_settleAll hsettle
  obtain rfl := yields_update.mp hreset
  have hentry := balanced_generate tree .discard hgen
  obtain ⟨p, -, hgrow⟩ := generates_generate tree .discard hgen
  have houter : s₁.scopes.outer = [] := hgrow.outer
  obtain ⟨rfl, rfl⟩ := (yields_takeRootPending houter).mp htake
  have hplaces : s₁.scopes.places = s₁.scopes.current.pending.map (·.patchAt) := by
    simp [Scopes.places, Scopes.frames, houter]
  have hsilent : (takeRootPending s₁).events = [] := rfl
  have hsilent' : (reset { config }).events = [] := rfl
  rw [hsilent, hsilent', List.nil_append, List.nil_append]
  have hordered := hentry.ordered
  have hbalance := hentry.balance
  unfold patches deferrals at *
  simp only [List.filterMap_append, hpatches, hdeferrals, hquiet, hquiet', List.append_nil,
    ← hplaces]
  refine ⟨hordered.imp Nat.ne_of_lt, List.perm_iff_count.mpr ?_⟩
  intro place
  rw [List.count_append, hbalance place]
  rfl

end Gen

/-- **Calls lead where the scopes say.**  The call instructions of a program, in the order of their
    addresses, have the targets and the numbers of arguments that the reading of the tree gives; and
    every call that was written without a target got one, once. -/
theorem calls_follow_scopes {config : Config} {tree : Tree} {program : Program}
    (h : tree.compile config = .ok program) :
    (∃ targets : List (Address × Nat),
      (Listing.rows 0 program.code).filterMap Row.callOperands? =
        targets.map (fun (address, count) => [.addr address, .int count]) ∧
      Reading.calls config 0 [[]] (tree.wholeReading config) =
        targets.map fun (address, count) => (some address, count)) ∧
    (deferrals (Gen.compile tree { config }).events).Nodup ∧
    (patches (Gen.compile tree { config }).events).Perm
      (deferrals (Gen.compile tree { config }).events) := by
  obtain ⟨p, frame, hcompiles⟩ := Tree.compiles_of_compile h
  exact ⟨hcompiles.calls, Gen.ledger_of_compile h⟩

/-- A function that calls another one before it is defined. -/
def Tree.doubling : Tree :=
  .program (.seq [
    .function "init" [] .void (.call "double" [.lit (.int 3)]),
    .function "double" [⟨⟨"int"⟩, "n"⟩] ⟨"int"⟩ (.ret (.binary .add (.ident "n") (.ident "n")))])

/-- The program of `Tree.doubling`. -/
def Program.doubling : Program where
  code := [.op .push, .int 3, .op .call, .addr 7, .int 1, .op .pop, .op .ret,
    .op .load, .int 0, .int 0, .op .load, .int 0, .int 0, .op .add, .op .retValue, .op .ret]
  init := some 0
  render := none

theorem calls_doubling :
    Tree.doubling.compile {} = .ok .doubling ∧
      (Listing.rows 0 Program.doubling.code).filterMap Row.callOperands? = [[.addr 7, .int 1]] ∧
      patches (Gen.compile .doubling {}).events = [3] := by
  have hcompile : Tree.doubling.compile {} = .ok .doubling := rfl
  obtain ⟨⟨targets, hrows, hcalls⟩, -, hperm⟩ := calls_follow_scopes hcompile
  have hreading : Reading.calls {} 0 [[]] (Tree.doubling.wholeReading {}) = [(some 7, 1)] := rfl
  have hdeferred : deferrals (Gen.compile .doubling {}).events = [3] := rfl
  have htargets : targets = [(7, 1)] := by
    rw [hreading] at hcalls
    rcases targets with _ | ⟨⟨address, count⟩, _ | ⟨other, rest⟩⟩
    · cases hcalls
    · cases hcalls
      rfl
    · cases hcalls
  rw [htargets] at hrows
  rw [hdeferred] at hperm
  exact ⟨hcompile, hrows, List.perm_singleton.mp hperm⟩

end SceneCode
