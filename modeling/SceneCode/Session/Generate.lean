import SceneCode.Session.Actions

/-!
# Code for trees

Every construct of the language is a computation built from the computations of its parts, so
`Tree.generate` only says which construct a node is and how its parts are used.

Statements leave the operand stack as they find it.  Expressions leave one value on it, which is
dropped at once where nobody uses it.  A variable is addressed by the number of frames between its
use and its scope, and by its slot there.

```text
while:            choice:            a && b:

start:              cond               a
  cond              JMPF other         DUP
  JMPF end          body               JMPF end    (JMPT for ||)
  body              JMP end            POP
  JMP start       other:               b
end:                other body       end:
                  end:
```
-/

namespace SceneCode

/-- How the surrounding code uses the value of an expression. -/
inductive Usage where
  /-- The value stays on the stack. -/
  | value
  /-- The value is dropped. -/
  | discard
deriving DecidableEq, Repr

namespace Gen

/-! ### Expressions -/

/-- Drop a value that nobody uses. -/
def finish : Usage → Gen Unit
  | .value => return ()
  | .discard => emitAll [.op .pop]

/-- The depth and the slot of a variable. -/
def variableAddress (name : String) : Gen (Nat × Nat) := do
  let r ← ofExcept (·.scopes.lookup name)
  match r.label.kind with
  | .function => fail (.notA .variable name)
  | .variable _ => return (r.depth, r.label.address)

/-- Push the value of a variable. -/
def loadVariable (name : String) : Gen Unit := do
  let (depth, slot) ← variableAddress name
  emitAll [.op .load, .int depth, .int slot]

/-- Pop a value into a variable.  Where the value is used, a copy stays. -/
def storeVariable (name : String) (usage : Usage) : Gen Unit := do
  let (depth, slot) ← variableAddress name
  if usage = .value then
    emitAll [.op .dup]
  emitAll [.op .store, .int depth, .int slot]

def literalWord : Literal → Word
  | .int n => .int n.toInt
  | .float x => .float x
  | .bool b => .bool b
  | .str s => .str s

def literal (value : Literal) (usage : Usage) : Gen Unit := do
  emitAll [.op .push, literalWord value]
  finish usage

def identifier (name : String) (usage : Usage) : Gen Unit := do
  loadVariable name
  finish usage

def assign (name : String) (value : Gen Unit) (usage : Usage) : Gen Unit := do
  value
  storeVariable name usage

/-- An assignment that combines the old value with another. -/
def compound (op : BinaryOp) (name : String) (value : Gen Unit) (usage : Usage) : Gen Unit := do
  loadVariable name
  value
  emitAll [.op op.opcode]
  storeVariable name usage

def step (op : StepOp) (name : String) (usage : Usage) : Gen Unit := do
  loadVariable name
  emitAll [.op .push, .int 1, .op op.opcode]
  storeVariable name usage

/-- An operator on two values. -/
def binary (op : BinaryOp) (lhs rhs : Gen Unit) (usage : Usage) : Gen Unit := do
  lhs
  rhs
  emitAll [.op op.opcode]
  finish usage

/-- An operator that may leave its second value out. -/
def logical (op : LogicalOp) (lhs rhs : Gen Unit) (usage : Usage) : Gen Unit := do
  lhs
  emitAll [.op .dup]
  let toEnd ← emitJump op.opcode
  emitAll [.op .pop]
  rhs
  land toEnd
  finish usage

def unary (op : UnaryOp) (operand : Gen Unit) (usage : Usage) : Gen Unit := do
  operand
  emitAll [.op op.opcode]
  finish usage

/-- The address of a function, or nothing if no open scope has the name. -/
def callTarget (name : String) : Gen (Option Address) := do
  match ← ask (·.scopes.find? name) with
  | none => return none
  | some r => match r.label.kind with
    | .function => return some r.label.address
    | .variable _ => fail (.notA .function name)

/-- Write the target of a call.  The target of a function that is not known yet is a placeholder,
    if the options allow it. -/
def emitTarget (name : String) : Option Address → Gen Unit
  | some address => emitAll [.addr address]
  | none => do
    if ← ask (·.config.forwardCalls) then
      let patchAt ← emit Code.placeholder
      log (.forwardCall name patchAt)
      update fun s => { s with scopes := s.scopes.defer ⟨name, patchAt⟩ }
    else
      fail (.unresolved name)

/-- The call of a function with `count` arguments. -/
def call (name : String) (count : Nat) (args : Gen Unit) (usage : Usage) : Gen Unit := do
  args
  let target ← callTarget name
  emitAll [.op .call]
  emitTarget name target
  emitAll [.int count]
  finish usage

/-! ### Statements -/

def block (body : Gen Unit) : Gen Unit := do
  pushScope false
  body
  popScope false

def declare (type : TypeName) (name : String) : Gen Unit := do
  let _ ← registerLabel name (.variable type) none

/-- The declaration of a variable with its first value, which does not see the new name. -/
def declareWith (type : TypeName) (name : String) (value : Gen Unit) : Gen Unit := do
  value
  let slot ← registerLabel name (.variable type) none
  emitAll [.op .store, .int 0, .int slot]

/-- Give the parameters of a function their labels. -/
def declareParams : List Param → Gen Unit
  | [] => return ()
  | p :: rest => do
    declare p.type p.name
    declareParams rest

/-- Write something behind a jump over it, if one is needed. -/
def jumpOver (needed : Bool) (body : Gen Unit) : Gen Unit := do
  if needed then
    let hole ← emitJump .jump
    body
    land hole
  else
    body

/-- The definition of a function.  Its code stands where it is defined, so code that runs straight
    through needs a jump over it: inside another function, and everywhere in a program that runs
    from its start to a halt.  The label is registered before the body, and the body ends with a
    return whatever it holds. -/
def function (name : String) (params : List Param) (returns : TypeName) (body : Gen Unit) :
    Gen Unit := do
  let needed ← ask fun s => decide (0 < s.functions.depth) || s.config.emitHalt
  jumpOver needed do
    let _ ← registerLabel name .function (some ⟨params, returns⟩)
    enterFunction returns
    pushScope true
    declareParams params
    body
    emitAll [.op .ret]
    popScope true
    exitFunction

/-- A return.  A value in a function without one is computed and dropped. -/
def ret (isEmpty : Bool) (value : Gen Unit) : Gen Unit := do
  let type ← currentFunctionType
  if isEmpty then
    emitAll [.op .ret]
  else
    value
    if type.isVoid then
      emitAll [.op .pop, .op .ret]
    else
      emitAll [.op .retValue]

/-- A choice with one branch. -/
def ifThen (cond body : Gen Unit) : Gen Unit := do
  cond
  let toEnd ← emitJump .jumpIfFalse
  body
  land toEnd

/-- A choice with two branches. -/
def ifElse (cond body other : Gen Unit) : Gen Unit := do
  cond
  let toOther ← emitJump .jumpIfFalse
  body
  let toEnd ← emitJump .jump
  land toOther
  other
  land toEnd

/-- A loop that tests before each round. -/
def whileLoop (cond body : Gen Unit) : Gen Unit := do
  let start ← here
  cond
  let toEnd ← emitJump .jumpIfFalse
  body
  emitAll [.op .jump, .addr start]
  land toEnd

/-- A loop that tests after each round. -/
def doLoop (cond body : Gen Unit) : Gen Unit := do
  let start ← here
  body
  cond
  emitAll [.op .jumpIfTrue, .addr start]

/-- A loop with a scope of its own.  Without a condition it has no exit. -/
def forLoop (init : Gen Unit) (isEndless : Bool) (cond update body : Gen Unit) : Gen Unit := do
  pushScope false
  init
  let start ← here
  if isEndless then
    body
    update
    emitAll [.op .jump, .addr start]
  else
    cond
    let toEnd ← emitJump .jumpIfFalse
    body
    update
    emitAll [.op .jump, .addr start]
    land toEnd
  popScope false

/-- Enter a node into the log, then generate it. -/
def node (kind : Kind) (body : Gen Unit) : Gen Unit := do
  log (.generate kind (← ask (·.scopes.depth)))
  body

end Gen

namespace Tree

mutual

/-- Generate the code of a tree. -/
def generate : Tree → Usage → Gen Unit
  | .empty, _ => return ()
  | .seq items, usage => generateAll items usage
  | .program body, _ => .node .program (generate body .discard)
  | .block body, _ => .node .block (.block (generate body .discard))
  | .function name params returns body, _ =>
    .node .function (.function name params returns (generate body .discard))
  | .ret value, _ => .node .ret (.ret value.isEmpty (generate value .value))
  | .declare type name, _ => .node .declare (.declare type name)
  | .declareWith type name value, _ =>
    .node .declareWith (.declareWith type name (generate value .value))
  | .assign name value, usage => .node .assign (.assign name (generate value .value) usage)
  | .compound op name value, usage =>
    .node (.compound op) (.compound op name (generate value .value) usage)
  | .step op name, usage => .node (.step op) (.step op name usage)
  | .ifThen cond body, _ =>
    .node .ifThen (.ifThen (generate cond .value) (generate body .discard))
  | .ifElse cond body other, _ =>
    .node .ifElse
      (.ifElse (generate cond .value) (generate body .discard) (generate other .discard))
  | .whileLoop cond body, _ =>
    .node .whileLoop (.whileLoop (generate cond .value) (generate body .discard))
  | .doLoop cond body, _ =>
    .node .doLoop (.doLoop (generate cond .value) (generate body .discard))
  | .forLoop init cond update body, _ =>
    .node .forLoop
      (.forLoop (generate init .discard) cond.isEmpty (generate cond .value)
        (generate update .discard) (generate body .discard))
  | .call name args, usage =>
    .node .call (.call name args.length (generateAll args .value) usage)
  | .binary op lhs rhs, usage =>
    .node (.binary op) (.binary op (generate lhs .value) (generate rhs .value) usage)
  | .logical op lhs rhs, usage =>
    .node (.logical op) (.logical op (generate lhs .value) (generate rhs .value) usage)
  | .unary op operand, usage => .node (.unary op) (.unary op (generate operand .value) usage)
  | .ident name, usage => .node .ident (.identifier name usage)
  | .lit value, usage => .node value.kind (.literal value usage)

def generateAll : List Tree → Usage → Gen Unit
  | [], _ => return ()
  | t :: rest, usage => do
    generate t usage
    generateAll rest usage

end

end Tree

end SceneCode
