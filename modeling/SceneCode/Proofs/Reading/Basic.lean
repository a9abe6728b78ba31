import SceneCode.Session.Generate

/-!
# Readings

A reading of a tree lists what matters for names, in the order in which code is generated: where
scopes open and close, what is declared, used and called, and how many words stand between.  It is
made from the tree alone, without a session, so it can say what generated code ought to be: where
the bodies of functions start (`Reading.bodies`) and where calls lead (`Reading.calls`).
-/

namespace SceneCode

/-- One entry of a reading. -/
inductive Mark where
  /-- Words that no name plays a part in. -/
  | words (count : Nat)
  /-- A scope opens. -/
  | opens
  /-- The innermost scope closes. -/
  | closes
  /-- A variable is declared in the innermost scope. -/
  | declares (name : String)
  /-- A function is declared in the innermost scope, and its body starts here. -/
  | defines (name : String)
  /-- A variable is read or written. -/
  | uses (name : String)
  /-- A function is called with so many arguments. -/
  | calls (name : String) (count : Nat)
deriving DecidableEq, Repr

/-- The number of words for an entry.  A use has a depth and a slot, a call has a target and a
    number of arguments. -/
def Mark.width : Mark → Nat
  | .words count => count
  | .uses _ | .calls _ _ => 3
  | .opens | .closes | .declares _ | .defines _ => 0

/-! ### Reading a tree -/

namespace Mark

/-- A value that is dropped where nobody uses it. -/
def finish : Usage → List Mark
  | .value => []
  | .discard => [.words 1]

/-- A variable that is written.  Where the value is used, it is copied before. -/
def store : Usage → String → List Mark
  | .value, name => [.words 1, .uses name]
  | .discard, name => [.uses name]

/-- A scope that the machine is told about. -/
def scope (body : List Mark) : List Mark :=
  [.opens, .words 1] ++ body ++ [.closes, .words 1]

/-- The number of words of the jump over a function, inside another one or before a halt. -/
def guard (config : Config) (fn : Option TypeName) : Nat :=
  if fn.isSome || config.emitHalt then 2 else 0

/-- The number of words for the end of a function that returns `fn`, behind the value. -/
def leave (fn : Option TypeName) : Nat :=
  if fn = some .void then 2 else 1

end Mark

namespace Tree

open Mark

mutual

/-- The reading of a tree inside a function that returns `fn`, or outside of all functions. -/
def reading (config : Config) (fn : Option TypeName) : Tree → Usage → List Mark
  | .empty, _ => []
  | .seq items, u => readingAll config fn items u
  | .program body, _ => reading config fn body .discard
  | .block body, _ => scope (reading config fn body .discard)
  | .function name params returns body, _ =>
    [.words (guard config fn), .defines name, .opens] ++ params.map (fun p => .declares p.name) ++
      reading config (some returns) body .discard ++ [.words 1, .closes]
  | .ret value, _ =>
    if value.isEmpty then [.words 1] else reading config fn value .value ++ [.words (leave fn)]
  | .declare _ name, _ => [.declares name]
  | .declareWith _ name value, _ =>
    reading config fn value .value ++ [.declares name, .words 3]
  | .assign name value, u => reading config fn value .value ++ store u name
  | .compound _ name value, u =>
    [.uses name] ++ reading config fn value .value ++ [.words 1] ++ store u name
  | .step _ name, u => [.uses name, .words 3] ++ store u name
  | .ifThen cond body, _ =>
    reading config fn cond .value ++ [.words 2] ++ reading config fn body .discard
  | .ifElse cond body other, _ =>
    reading config fn cond .value ++ [.words 2] ++ reading config fn body .discard ++ [.words 2] ++
      reading config fn other .discard
  | .whileLoop cond body, _ =>
    reading config fn cond .value ++ [.words 2] ++ reading config fn body .discard ++ [.words 2]
  | .doLoop cond body, _ =>
    reading config fn body .discard ++ reading config fn cond .value ++ [.words 2]
  | .forLoop init cond update body, _ =>
    scope (reading config fn init .discard ++
      (if cond.isEmpty then [] else reading config fn cond .value ++ [.words 2]) ++
      reading config fn body .discard ++ reading config fn update .discard ++ [.words 2])
  | .call name args, u =>
    readingAll config fn args .value ++ [.calls name args.length] ++ finish u
  | .binary _ lhs rhs, u =>
    reading config fn lhs .value ++ reading config fn rhs .value ++ [.words 1] ++ finish u
  | .logical _ lhs rhs, u =>
    reading config fn lhs .value ++ [.words 4] ++ reading config fn rhs .value ++ finish u
  | .unary _ operand, u => reading config fn operand .value ++ [.words 1] ++ finish u
  | .ident name, u => [.uses name] ++ finish u
  | .lit _, u => [.words 2] ++ finish u

def readingAll (config : Config) (fn : Option TypeName) : List Tree → Usage → List Mark
  | [], _ => []
  | t :: rest, u => reading config fn t u ++ readingAll config fn rest u

end

end Tree

namespace Reading

/-! ### Addresses -/

/-- The number of words of a reading. -/
def width : List Mark → Nat
  | [] => 0
  | m :: marks => m.width + width marks

@[simp] theorem width_nil : width [] = 0 := rfl

@[simp] theorem width_cons (m : Mark) (marks : List Mark) :
    width (m :: marks) = m.width + width marks := rfl

@[simp] theorem width_append (marks more : List Mark) :
    width (marks ++ more) = width marks + width more := by
  induction marks with
  | nil => simp
  | cons m marks ih => simp [ih, Nat.add_assoc]

@[simp] theorem width_declares (params : List Param) :
    width (params.map fun p => .declares p.name) = 0 := by
  induction params with
  | nil => rfl
  | cons p params ih => simp [ih, Mark.width]

/-- The addresses where the bodies of functions start, if the reading starts at `a`. -/
def bodies : Address → List Mark → List Address
  | _, [] => []
  | a, .defines _ :: rest => a :: bodies a rest
  | a, .words count :: rest => bodies (a + count) rest
  | a, .uses _ :: rest => bodies (a + 3) rest
  | a, .calls _ _ :: rest => bodies (a + 3) rest
  | a, .opens :: rest => bodies a rest
  | a, .closes :: rest => bodies a rest
  | a, .declares _ :: rest => bodies a rest

@[simp] theorem bodies_append (a : Nat) (marks more : List Mark) :
    bodies a (marks ++ more) = bodies a marks ++ bodies (a + width marks) more := by
  induction marks generalizing a with
  | nil => rfl
  | cons m marks ih =>
    cases m <;> simp [bodies, ih, Mark.width, Nat.add_assoc]

@[simp] theorem bodies_declares (a : Nat) (params : List Param) :
    bodies a (params.map fun p => .declares p.name) = [] := by
  induction params with
  | nil => rfl
  | cons p params ih => simp [bodies, ih]

/-! ### Names -/

/-- What the names of one scope stand for, last one first: the body of a function, or nothing for a
    variable. -/
abbrev Names := List (String × Option Address)

def declare (name : String) (body : Option Address) : List Names → List Names
  | [] => []
  | names :: outer => ((name, body) :: names) :: outer

/-- What the innermost scope that has a name says about it. -/
def find (name : String) (scopes : List Names) : Option (Option Address) :=
  scopes.findSome? (·.lookup name)

/-- The open scopes as they will be when they close, innermost first.  A scope that opens on the way
    is left out. -/
def complete : Address → List Names → List Mark → List Names
  | _, scopes, [] => scopes
  | a, scopes, .opens :: rest => (complete a ([] :: scopes) rest).tail
  | a, [], .closes :: rest => complete a [] rest
  | a, names :: outer, .closes :: rest => names :: complete a outer rest
  | a, scopes, .declares name :: rest => complete a (declare name none scopes) rest
  | a, scopes, .defines name :: rest => complete a (declare name (some a) scopes) rest
  | a, scopes, .words count :: rest => complete (a + count) scopes rest
  | a, scopes, .uses _ :: rest => complete (a + 3) scopes rest
  | a, scopes, .calls _ _ :: rest => complete (a + 3) scopes rest

/-- Where a call leads if `scopes` are open and will be `completed` when they close.  A scope that
    has the name already goes first.  Otherwise the innermost scope counts that has the name before
    it closes, if the options allow it. -/
def target (config : Config) (name : String) (scopes completed : List Names) : Option Address :=
  match find name scopes with
  | some body => body
  | none => if config.forwardCalls then (find name completed).join else none

/-- The calls of a reading, each with its target and its number of arguments. -/
def calls (config : Config) : Address → List Names → List Mark → List (Option Address × Nat)
  | _, _, [] => []
  | a, scopes, .opens :: rest => calls config a ([] :: scopes) rest
  | a, scopes, .closes :: rest => calls config a scopes.tail rest
  | a, scopes, .declares name :: rest => calls config a (declare name none scopes) rest
  | a, scopes, .defines name :: rest => calls config a (declare name (some a) scopes) rest
  | a, scopes, .words count :: rest => calls config (a + count) scopes rest
  | a, scopes, .uses _ :: rest => calls config (a + 3) scopes rest
  | a, scopes, .calls name count :: rest =>
    (target config name scopes (complete (a + 3) scopes rest), count) ::
      calls config (a + 3) scopes rest

end Reading

end SceneCode
