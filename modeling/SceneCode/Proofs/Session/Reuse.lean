import SceneCode.Proofs.Emission.Program
import SceneCode.Proofs.Session.Requests

/-!
# Sessions that are used again

Requests that fail leave words, scopes, functions in progress and waiting calls behind.  None of
this reaches the programs that are compiled later: `sessions_leave_no_trace`.  Compiling forgets
everything but the options, and no request changes those.

A program that is complete has taken its code out of the session.  Only the outermost scope is open
then, no function is in progress, and all calls have found their functions.
-/

namespace SceneCode

namespace Gen

variable {config : Config}

/-! ### Options -/

theorem preserves_config_patch (a : Address) (w : Word) :
    Preserves (·.config = config) (patch a w) := by
  intro s hs
  unfold patch
  split
  · exact hs
  · exact hs

theorem preserves_config_pushScope (silent : Bool) :
    Preserves (·.config = config) (pushScope silent) := by
  intro s hs
  obtain ⟨-, hsession⟩ := yields_pushScope (a := ()) (s := s) |>.mpr rfl
  rw [hsession]
  exact hs

theorem preserves_config_settleInto (frame : Frame) (calls : List PendingCall) :
    Preserves (·.config = config) (settleInto frame calls) := by
  induction calls with
  | nil => exact .pure ()
  | cons call rest ih =>
    refine (Preserves.settle preserves_config_patch frame call).bind fun settled => ?_
    cases settled with
    | true => exact ih
    | false => exact Preserves.bind (fun _ hs => hs) fun _ => ih

theorem preserves_config_popScope (silent : Bool) :
    Preserves (·.config = config) (popScope silent) := by
  have htake : Preserves (·.config = config) takeFrame := by
    intro s hs
    unfold takeFrame
    split
    · exact hs
    · exact hs
  refine htake.bind fun frame => (preserves_config_settleInto _ _).bind fun _ =>
    (Preserves.ask _).bind fun _ => (Preserves.log _).bind fun _ => ?_
  cases silent with
  | true => exact .pure ()
  | false => exact .emitAll (fun _ _ hs => hs) _

theorem preserves_config_registerLabel (name : String) (kind : LabelKind)
    (signature : Option Signature) :
    Preserves (·.config = config) (registerLabel name kind signature) := by
  intro s hs
  unfold registerLabel
  split
  · exact hs
  · exact hs

theorem preserves_config_forward (name : String) :
    Preserves (·.config = config) (emitTarget name none) := by
  refine (Preserves.ask _).bind fun allowed => ?_
  by_cases hallowed : allowed = true
  · rw [if_pos hallowed]
    exact fun _ hs => hs
  · rw [if_neg hallowed]
    exact .fail _

theorem compositional_config : Compositional (Preserves (·.config = config)) :=
  Preserves.compositional (fun _ _ hs => hs) preserves_config_patch preserves_config_pushScope
    preserves_config_popScope preserves_config_registerLabel (fun _ _ hs => hs) (fun _ hs => hs)
    preserves_config_forward

theorem preserves_config_compile (tree : Tree) : Preserves (·.config = config) (compile tree) := by
  have hreset : Preserves (·.config = config) reset := fun _ hs => hs
  have htake : Preserves (·.config = config) takeRootPending := fun _ hs => hs
  exact hreset.bind fun _ => (compositional_config.generate tree .discard).bind fun _ =>
    htake.bind fun calls =>
      .completion preserves_config_patch (fun _ _ hs => hs) (fun _ hs => hs) calls

end Gen

theorem Request.config_after (s : Session) (r : Request) : (r.after s).config = s.config := by
  match r with
  | .emit w => rfl
  | .patch a w => exact Gen.preserves_config_patch a w s rfl
  | .pushScope silent => exact Gen.preserves_config_pushScope silent s rfl
  | .popScope silent => exact Gen.preserves_config_popScope silent s rfl
  | .registerLabel name kind signature =>
    exact Gen.preserves_config_registerLabel name kind signature s rfl
  | .enterFunction type => rfl
  | .exitFunction => rfl
  | .generate tree usage => exact Gen.compositional_config.generate tree usage s rfl
  | .compile tree => exact Gen.preserves_config_compile tree s rfl
  | .reset => rfl

theorem Session.Reachable.config_eq {config : Config} {s : Session} (h : Reachable config s) :
    s.config = config :=
  h.holds (P := fun s => s.config = config) rfl fun s r hs => (r.config_after s).trans hs

/-! ### Programs -/

/-- Compiling does the same in all sessions with the same options. -/
theorem Session.Reachable.compile_eq {config : Config} {s : Session} (h : Reachable config s)
    (tree : Tree) : Gen.compile tree s = Gen.compile tree { config } := by
  have hconfig := h.config_eq
  subst hconfig
  rfl

/-- Nothing of the program is left in the session but the labels of the outermost scope. -/
structure Session.Cleared (s : Session) : Prop where
  code : s.code = .empty
  depth : s.scopes.depth = 0
  functions : s.functions = .none
  pending : ∀ f ∈ s.scopes.frames, f.pending = []

theorem Gen.Yields.cleared {tree : Tree} {program : Program} {s t : Session}
    (h : (compile tree).Yields s program t) : t.Cleared := by
  obtain ⟨s₁, s₂, calls, s₃, hgen, htake, hsettle, -, rfl⟩ := yields_compile h
  -- the tree has closed its scopes and ended its functions
  obtain ⟨p, -, hgrow⟩ := generates_generate tree .discard hgen
  have houter : s₁.scopes.outer = [] := hgrow.outer
  obtain ⟨-, rfl⟩ := (yields_takeRootPending houter).mp htake
  obtain ⟨-, hscopes, hfunctions⟩ := same_of_settleAll hsettle
  constructor
  · rfl
  · rw [hscopes]
    rfl
  · exact hfunctions.trans hgrow.functions
  · intro f hf
    rw [hscopes] at hf
    rcases List.mem_singleton.mp hf with rfl
    rfl

/-- **Sessions leave no trace on the programs that are compiled in them.**  After any requests, also
    such that fail, a tree compiles to the same program or fails for the same reason as in a new
    session.  A program that is complete leaves no code, no open scope, no function in progress and
    no waiting call behind. -/
theorem sessions_leave_no_trace (config : Config) (requests : List Request) (tree : Tree) :
    let s := requests.foldl Request.after { config }
    (Gen.compile tree s).result = tree.compile config ∧
      ∀ program, (Gen.compile tree s).result = .ok program →
        (Gen.compile tree s).session.code = .empty ∧
          (Gen.compile tree s).session.scopes.depth = 0 ∧
          (Gen.compile tree s).session.functions = .none ∧
          ∀ f ∈ (Gen.compile tree s).session.scopes.frames, f.pending = [] := by
  intro s
  have hreachable : Session.Reachable config s := Session.Reachable.new.afterAll requests
  constructor
  · rw [hreachable.compile_eq tree]
    rfl
  · intro program hprogram
    have hyields : (Gen.compile tree).Yields s program (Gen.compile tree s).session :=
      ⟨hprogram, rfl⟩
    have hcleared := hyields.cleared
    exact ⟨hcleared.code, hcleared.depth, hcleared.functions, hcleared.pending⟩

/-- Requests some of which fail.  A scope is still open behind them, and a call waits in it. -/
def Request.leftovers : List Request :=
  [.enterFunction .void, .compile (.ident "x"), .popScope true, .pushScope false,
    .generate (.block (.seq [.call "f" [], .ident "y"])) .value, .popScope false]

/-- A program that calls its function before it is defined. -/
def Tree.starting : Tree :=
  .seq [.call "init" [], .function "init" [] .void .empty]

theorem no_trace_of_leftovers :
    (Request.leftovers.foldl Request.after {}).scopes.depth = 1 ∧
      (Request.leftovers.foldl Request.after {}).scopes.current.pending = [⟨"f", 3⟩] ∧
      Tree.starting.compile {} =
        .ok ⟨[.op .call, .addr 4, .int 0, .op .pop, .op .ret], some 4, none⟩ ∧
      (Gen.compile .starting (Request.leftovers.foldl Request.after {})).result =
        Tree.starting.compile {} ∧
      (Gen.compile .starting (Request.leftovers.foldl Request.after {})).session.code = .empty := by
  obtain ⟨hresult, hcleared⟩ := sessions_leave_no_trace {} Request.leftovers .starting
  have hprogram : Tree.starting.compile {} =
      .ok ⟨[.op .call, .addr 4, .int 0, .op .pop, .op .ret], some 4, none⟩ := rfl
  exact ⟨rfl, rfl, hprogram, hresult, (hcleared _ (hresult.trans hprogram)).1⟩

end SceneCode
