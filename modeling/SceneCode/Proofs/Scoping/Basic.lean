import SceneCode.Proofs.Results
import SceneCode.Session.Basic

/-!
# Well-scoped trees

Whether a tree has code at all depends only on the order in which its scopes open and close and its
names occur.  `Tree.acts` lists that, in the order in which code is generated.  The rules for such a
list are `Scoping.WellScoped`: they look at the names that the open scopes have so far and, for a
call of a function that no open scope has yet, at the names that these scopes will have when they
close.

A checker reads the same list once, from its start to its end, and cannot look ahead.  It keeps the
calls that wait for their function beside the names of each scope, and judges them when the scope
closes (`Scoping.verdict`).  It accepts exactly the lists that follow the rules
(`Scoping.verdict_eq_ok_iff`), and if it does not accept one, it tells what is wrong.
-/

namespace SceneCode

/-- One thing that a tree does with scopes and names. -/
inductive Act where
  /-- A scope opens. -/
  | opens
  /-- The innermost scope closes. -/
  | closes
  /-- A name is declared in the innermost scope. -/
  | declares (role : Role) (name : String)
  /-- A variable is read or written. -/
  | uses (name : String)
  /-- A function is called. -/
  | calls (name : String)
  /-- A return, inside a function definition or outside of all of them. -/
  | returns (inside : Bool)
deriving DecidableEq, Repr

namespace Tree

mutual

/-- What a tree does, inside a function definition or outside of all of them.  The name of a
    function goes into the scope around it, its parameters into its own; a variable with a first
    value is declared behind the value. -/
def acts (inside : Bool) : Tree → List Act
  | .empty => []
  | .seq items => actsAll inside items
  | .program body => acts inside body
  | .block body => [.opens] ++ acts inside body ++ [.closes]
  | .function name params _ body =>
    [.declares .function name, .opens] ++ params.map (fun p => .declares .variable p.name) ++
      acts true body ++ [.closes]
  | .ret value => [.returns inside] ++ acts inside value
  | .declare _ name => [.declares .variable name]
  | .declareWith _ name value => acts inside value ++ [.declares .variable name]
  | .assign name value => acts inside value ++ [.uses name]
  | .compound _ name value => [.uses name] ++ acts inside value ++ [.uses name]
  | .step _ name => [.uses name, .uses name]
  | .ifThen cond body => acts inside cond ++ acts inside body
  | .ifElse cond body other => acts inside cond ++ acts inside body ++ acts inside other
  | .whileLoop cond body => acts inside cond ++ acts inside body
  | .doLoop cond body => acts inside body ++ acts inside cond
  | .forLoop init cond update body =>
    [.opens] ++ acts inside init ++ acts inside cond ++ acts inside body ++ acts inside update ++
      [.closes]
  | .call name args => actsAll inside args ++ [.calls name]
  | .binary _ lhs rhs => acts inside lhs ++ acts inside rhs
  | .logical _ lhs rhs => acts inside lhs ++ acts inside rhs
  | .unary _ operand => acts inside operand
  | .ident name => [.uses name]
  | .lit _ => []

def actsAll (inside : Bool) : List Tree → List Act
  | [] => []
  | t :: rest => acts inside t ++ actsAll inside rest

end

end Tree

namespace Scoping

/-! ### The rules -/

/-- What the names of one scope stand for, last one first. -/
abbrev Names := List (String × Role)

/-- What the innermost scope that has a name says about it. -/
def find (name : String) (scopes : List Names) : Option Role :=
  scopes.findSome? (·.lookup name)

/-- The open scopes as they will be when they close, innermost first.  A scope that opens on the way
    is left out, and the outermost one stays open. -/
def complete (current : Names) (outer : List Names) : List Act → List Names
  | [] => current :: outer
  | .opens :: rest => (complete [] (current :: outer) rest).tail
  | .closes :: rest =>
    match outer with
    | [] => complete current [] rest
    | next :: outer => current :: complete next outer rest
  | .declares role name :: rest => complete ((name, role) :: current) outer rest
  | .uses _ :: rest => complete current outer rest
  | .calls _ :: rest => complete current outer rest
  | .returns _ :: rest => complete current outer rest

/-- The list follows the rules if `current` and the scopes around it are open before it:

    * no name is declared twice in one scope;
    * a variable that is read or written has been declared in an open scope, and the innermost one
      that has its name has it as a variable;
    * the innermost open scope that has the name of a call has it as a function; or none has it, the
      options allow that, and the innermost one that has it before it closes has it as a function;
    * a return is inside a function definition;
    * the outermost scope is never closed, which no tree does. -/
def WellScoped (forward : Bool) (current : Names) (outer : List Names) : List Act → Prop
  | [] => True
  | .opens :: rest => WellScoped forward [] (current :: outer) rest
  | .closes :: rest =>
    match outer with
    | [] => False
    | next :: outer => WellScoped forward next outer rest
  | .declares role name :: rest =>
    current.lookup name = none ∧ WellScoped forward ((name, role) :: current) outer rest
  | .uses name :: rest =>
    find name (current :: outer) = some .variable ∧ WellScoped forward current outer rest
  | .calls name :: rest =>
    (find name (current :: outer) = some .function ∨
      find name (current :: outer) = none ∧ forward = true ∧
        find name (complete current outer rest) = some .function) ∧
      WellScoped forward current outer rest
  | .returns inside :: rest => inside = true ∧ WellScoped forward current outer rest

/-! ### The checker -/

/-- One open scope: its names so far, and the calls that wait in it for their function. -/
structure Scope where
  names : Names := []
  waiting : List String := []
deriving DecidableEq, Repr

/-- The open scopes, the innermost one first and apart. -/
abbrev State := Scope × List Scope

def State.names (s : State) : List Names :=
  s.1.names :: s.2.map Scope.names

/-- Let calls wait in the innermost scope. -/
def State.await (s : State) (calls : List String) : State :=
  ({ s.1 with waiting := s.1.waiting ++ calls }, s.2)

/-- The calls that a scope with these names leaves waiting when it closes. -/
def settle (names : Names) : List String → Except Fault (List String)
  | [] => .ok []
  | name :: rest =>
    match names.lookup name with
    | some .function => settle names rest
    | some .variable => .error (.notA .function name)
    | none => (settle names rest).map (name :: ·)

/-- The last scope leaves no call waiting. -/
def settleLast (names : Names) : List String → Except Fault Unit
  | [] => .ok ()
  | name :: rest =>
    match names.lookup name with
    | some .function => settleLast names rest
    | some .variable => .error (.notA .function name)
    | none => .error (.unresolved name)

/-- One thing after the other. -/
def step (forward : Bool) (s : State) : Act → Except Fault State
  | .opens => .ok ({}, s.1 :: s.2)
  | .closes =>
    match s.2 with
    | [] => .error .scopeUnderflow
    | next :: outer => (settle s.1.names s.1.waiting).map (State.await (next, outer))
  | .declares role name =>
    match s.1.names.lookup name with
    | some _ => .error (.redefinition name)
    | none => .ok ({ s.1 with names := (name, role) :: s.1.names }, s.2)
  | .uses name =>
    match find name s.names with
    | some .variable => .ok s
    | some .function => .error (.notA .variable name)
    | none => .error (.unresolved name)
  | .calls name =>
    match find name s.names with
    | some .function => .ok s
    | some .variable => .error (.notA .function name)
    | none => if forward then .ok (s.await [name]) else .error (.unresolved name)
  | .returns inside => if inside then .ok s else .error .noFunction

def run (forward : Bool) (s : State) (acts : List Act) : Except Fault State :=
  acts.foldlM (step forward) s

/-- At the end the scopes that are still open close. -/
def finish (current : Scope) : List Scope → Except Fault Unit
  | [] => settleLast current.names current.waiting
  | next :: outer => do
    let left ← settle current.names current.waiting
    finish (State.await (next, outer) left).1 outer

/-- What the checker says about a whole list. -/
def verdict (forward : Bool) (acts : List Act) : Except Fault Unit := do
  let s ← run forward ({}, []) acts
  finish s.1 s.2

@[simp] theorem run_nil (forward : Bool) (s : State) : run forward s [] = .ok s := rfl

theorem run_cons (forward : Bool) (s : State) (act : Act) (rest : List Act) :
    run forward s (act :: rest) = step forward s act >>= fun next => run forward next rest :=
  List.foldlM_cons ..

theorem run_append (forward : Bool) (s : State) (acts more : List Act) :
    run forward s (acts ++ more) = run forward s acts >>= fun next => run forward next more :=
  List.foldlM_append ..

theorem run_single (forward : Bool) (s : State) (act : Act) :
    run forward s [act] = step forward s act := by
  rw [run_cons]
  cases step forward s act <;> rfl

/-! ### The checker follows the rules -/

/-- Every call that waits in an open scope finds its function in the scopes from there outwards, if
    they are `completed` when they close. -/
def Settled : List Scope → List Names → Prop
  | [], _ => True
  | scope :: outer, completed =>
    (∀ name ∈ scope.waiting, find name completed = some .function) ∧ Settled outer completed.tail

theorem find_cons (name : String) (names : Names) (outer : List Names) :
    find name (names :: outer) = (names.lookup name).or (find name outer) := by
  unfold find
  rw [List.findSome?_cons]
  cases names.lookup name <;> rfl

/-- A scope that closes settles exactly the calls that have their function in it, and leaves the
    others for the scopes around. -/
theorem settle_ok_iff {names : Names} {outer : List Names} {calls : List String} :
    (∃ left, settle names calls = .ok left ∧ ∀ name ∈ left, find name outer = some .function) ↔
      ∀ name ∈ calls, find name (names :: outer) = some .function := by
  induction calls with
  | nil => simp [settle]
  | cons name rest ih =>
    rw [List.forall_mem_cons, ← ih, find_cons, settle]
    rcases hname : names.lookup name with _ | role
    · rcases hrest : settle names rest with e | left
      · simp [Except.map]
      · simp [Except.map]
    · cases role with
      | function => simp
      | «variable» => simp

theorem settleLast_ok_iff {names : Names} {calls : List String} :
    settleLast names calls = .ok () ↔ ∀ name ∈ calls, find name [names] = some .function := by
  induction calls with
  | nil => simp [settleLast]
  | cons name rest ih =>
    rw [List.forall_mem_cons, ← ih, find_cons, settleLast]
    rcases hname : names.lookup name with _ | role
    · simp [find]
    · cases role <;> simp

/-- Calls that are left for the next scope wait there with its own. -/
theorem settled_await {next : Scope} {outer : List Scope} {left : List String}
    {completed : List Names} :
    Settled ((State.await (next, outer) left).1 :: outer) completed ↔
      (∀ name ∈ left, find name completed = some .function) ∧
        Settled (next :: outer) completed := by
  simp only [Settled, State.await, List.mem_append]
  constructor
  · rintro ⟨hwaiting, houter⟩
    exact ⟨fun name hname => hwaiting name (Or.inr hname),
      fun name hname => hwaiting name (Or.inl hname), houter⟩
  · rintro ⟨hleft, hnext, houter⟩
    exact ⟨fun name hname => hname.elim (hnext name) (hleft name), houter⟩

/-- Closing one scope hands its calls on. -/
theorem settled_cons {scope next : Scope} {outer : List Scope} {completed : List Names} :
    Settled (scope :: next :: outer) (scope.names :: completed) ↔
      ∃ left, settle scope.names scope.waiting = .ok left ∧
        Settled ((State.await (next, outer) left).1 :: outer) completed := by
  rw [Settled, ← settle_ok_iff, List.tail_cons]
  simp only [settled_await]
  constructor
  · rintro ⟨⟨left, hok, hleft⟩, hnext⟩
    exact ⟨left, hok, hleft, hnext⟩
  · rintro ⟨left, hok, hleft, hnext⟩
    exact ⟨⟨left, hok, hleft⟩, hnext⟩

theorem finish_ok_iff {current : Scope} {outer : List Scope} :
    finish current outer = .ok () ↔
      Settled (current :: outer) (current.names :: outer.map Scope.names) := by
  induction outer generalizing current with
  | nil => simp [finish, Settled, settleLast_ok_iff]
  | cons next outer ih =>
    rw [finish, bind_eq_ok, List.map_cons, settled_cons]
    simp only [ih]
    rfl

/-- The checker, started anywhere, accepts what follows the rules if the calls that wait already
    find their functions.  The induction is on the list; a scope that closes passes its calls on,
    which is the one case where the state changes for them. -/
theorem run_ok_iff {forward : Bool} {acts : List Act} {current : Scope} {outer : List Scope} :
    (∃ s, run forward (current, outer) acts = .ok s ∧ finish s.1 s.2 = .ok ()) ↔
      WellScoped forward current.names (outer.map Scope.names) acts ∧
        Settled (current :: outer) (complete current.names (outer.map Scope.names) acts) := by
  induction acts generalizing current outer with
  | nil => simp [WellScoped, complete, finish_ok_iff]
  | cons act rest ih =>
    have hcons : (∃ s, run forward (current, outer) (act :: rest) = .ok s ∧
        finish s.1 s.2 = .ok ()) ↔ ∃ next, step forward (current, outer) act = .ok next ∧
        ∃ s, run forward next rest = .ok s ∧ finish s.1 s.2 = .ok () := by
      simp only [run_cons, bind_eq_ok]
      constructor
      · rintro ⟨s, ⟨next, hstep, hrun⟩, hfinish⟩
        exact ⟨next, hstep, s, hrun, hfinish⟩
      · rintro ⟨next, hstep, s, hrun, hfinish⟩
        exact ⟨s, ⟨next, hstep, hrun⟩, hfinish⟩
    rw [hcons]
    cases act with
    | opens =>
      have hempty (completed : List Names) :
          Settled ({} :: current :: outer) completed ↔
            Settled (current :: outer) completed.tail := by
        simp [Settled]
      simp only [step, Except.ok.injEq, exists_eq_left', ih, WellScoped, complete, hempty]
      rfl
    | closes =>
      cases outer with
      | nil => simp [step, WellScoped]
      | cons next outer =>
        simp only [step, WellScoped, complete, List.map_cons, settled_cons]
        rcases hsettle : settle current.names current.waiting with e | left
        · simp [Except.map]
        · simp only [Except.map, Except.ok.injEq, exists_eq_left']
          exact ih
    | declares role name =>
      simp only [step, WellScoped, complete]
      rcases hname : current.names.lookup name with _ | other
      · simp only [Except.ok.injEq, exists_eq_left', true_and]
        exact ih
      · simp
    | uses name =>
      simp only [step, WellScoped, complete, State.names]
      rcases hname : find name (current.names :: outer.map Scope.names) with _ | role
      · simp
      · cases role with
        | function => simp
        | «variable» => simp [ih]
    | calls name =>
      simp only [step, WellScoped, complete, State.names]
      rcases hname : find name (current.names :: outer.map Scope.names) with _ | role
      · cases forward with
        | false => simp
        | true =>
          -- the call waits in the innermost scope, where the rules look for its function at once
          have hawait (completed : List Names) :
              Settled ((State.await (current, outer) [name]).1 :: outer) completed ↔
                find name completed = some .function ∧ Settled (current :: outer) completed := by
            rw [settled_await, List.forall_mem_singleton]
          simp only [if_true, Except.ok.injEq, exists_eq_left', reduceCtorEq, false_or, true_and]
          refine ih.trans ((and_congr_right' (hawait _)).trans ?_)
          rw [← and_assoc, and_congr_left_iff]
          exact fun _ => and_comm
      · cases role with
        | function => simp [ih]
        | «variable» => simp
    | returns inside =>
      cases inside with
      | false => simp [step, WellScoped]
      | true => simp [step, WellScoped, complete, ih]

/-- **The checker accepts exactly what follows the rules.** -/
theorem verdict_eq_ok_iff {forward : Bool} {acts : List Act} :
    verdict forward acts = .ok () ↔ WellScoped forward [] [] acts := by
  have hempty (completed : List Names) : Settled [{}] completed := by simp [Settled]
  rw [verdict, bind_eq_ok]
  refine run_ok_iff.trans ?_
  exact ⟨fun h => h.1, fun h => ⟨h, hempty _⟩⟩

instance (forward : Bool) (acts : List Act) : Decidable (WellScoped forward [] [] acts) :=
  decidable_of_iff ((verdict forward acts).isOk = true) <| by
    rw [← verdict_eq_ok_iff]
    cases verdict forward acts <;> simp [Except.isOk, Except.toBool]

end Scoping

/-- The tree follows the rules for scopes. -/
def Tree.WellScoped (config : Config) (tree : Tree) : Prop :=
  Scoping.WellScoped config.forwardCalls [] [] (tree.acts false)

instance (config : Config) (tree : Tree) : Decidable (tree.WellScoped config) :=
  inferInstanceAs (Decidable (Scoping.WellScoped _ _ _ _))

end SceneCode
