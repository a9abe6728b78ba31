import SceneCode.Tree.Basic

/-!
# Kinds of nodes

The parser names the kind of each node by a word.  Many kinds have two words, a short one and a
long one; `table` lists them all.  The kind of a node that already stands in a tree is always
named by its short word.
-/

namespace SceneCode

/-- The kind of a node. -/
inductive Kind where
  | program | block | function | ret | declare | declareWith | assign
  | compound (op : BinaryOp)
  | step (op : StepOp)
  | ifThen | ifElse | whileLoop | doLoop | forLoop | call
  | binary (op : BinaryOp)
  | logical (op : LogicalOp)
  | unary (op : UnaryOp)
  | ident | int | float | bool | str
deriving DecidableEq, Repr

namespace Kind

/-- The short word for an operator on two values. -/
def ofBinaryOp : BinaryOp → String
  | .add => "add"
  | .sub => "sub"
  | .mul => "mul"
  | .div => "div"
  | .mod => "mod"
  | .eq => "eq"
  | .ne => "neq"
  | .lt => "lt"
  | .le => "le"
  | .gt => "gt"
  | .ge => "ge"
  | .bitAnd => "bit-AND"
  | .bitOr => "bit-OR"
  | .bitXor => "bit-XOR"
  | .shl => "bit-left-shift"
  | .shr => "bit-right-shift"
  | .ushr => "zero-fill-right-shift"

/-- The short word for an assignment with an operator.  The parser has such assignments for the
    five arithmetic operators only; the others share a word that no parser output holds. -/
def ofCompoundOp : BinaryOp → String
  | .add => "addAssign"
  | .sub => "subAssign"
  | .mul => "multAssign"
  | .div => "divAssign"
  | .mod => "modAssign"
  | _ => "compoundAssign"

/-- The short word for a kind. -/
def spelling : Kind → String
  | .program => "program"
  | .block => "block"
  | .function => "function"
  | .ret => "return"
  | .declare => "variableDecl"
  | .declareWith => "variableDeclAssign"
  | .assign => "assign"
  | .compound op => ofCompoundOp op
  | .step .increment => "increment"
  | .step .decrement => "decrement"
  | .ifThen => "if"
  | .ifElse => "ifElse"
  | .whileLoop => "while"
  | .doLoop => "doWhile"
  | .forLoop => "for"
  | .call => "call"
  | .binary op => ofBinaryOp op
  | .logical .and => "and"
  | .logical .or => "or"
  | .unary .neg => "neg"
  | .unary .not => "not"
  | .ident => "identifier"
  | .int => "int"
  | .float => "float"
  | .bool => "bool"
  | .str => "string"

/-- Every word for a kind that the parser uses. -/
def table : List (String × Kind) := [
  ("program", .program),
  ("block", .block),
  ("function", .function),
  ("return", .ret),
  ("variableDecl", .declare),
  ("variable-decl", .declare),
  ("variableDeclAssign", .declareWith),
  ("variable-decl-assign", .declareWith),
  ("assign", .assign),
  ("addAssign", .compound .add),
  ("add_assign", .compound .add),
  ("subAssign", .compound .sub),
  ("sub_assign", .compound .sub),
  ("multAssign", .compound .mul),
  ("multi_assign", .compound .mul),
  ("divAssign", .compound .div),
  ("div_assign", .compound .div),
  ("modAssign", .compound .mod),
  ("mod_assign", .compound .mod),
  ("increment", .step .increment),
  ("decrement", .step .decrement),
  ("if", .ifThen),
  ("ifElse", .ifElse),
  ("ifelse", .ifElse),
  ("while", .whileLoop),
  ("doWhile", .doLoop),
  ("do_while", .doLoop),
  ("for", .forLoop),
  ("call", .call),
  ("add", .binary .add),
  ("addition", .binary .add),
  ("sub", .binary .sub),
  ("minus", .binary .sub),
  ("mul", .binary .mul),
  ("multiplication", .binary .mul),
  ("div", .binary .div),
  ("division", .binary .div),
  ("mod", .binary .mod),
  ("modulo", .binary .mod),
  ("eq", .binary .eq),
  ("equality", .binary .eq),
  ("neq", .binary .ne),
  ("not-equal", .binary .ne),
  ("lt", .binary .lt),
  ("less-than", .binary .lt),
  ("le", .binary .le),
  ("less-than-or-equal", .binary .le),
  ("gt", .binary .gt),
  ("larger-than", .binary .gt),
  ("ge", .binary .ge),
  ("greater-than-or-equal", .binary .ge),
  ("bit-AND", .binary .bitAnd),
  ("bit-OR", .binary .bitOr),
  ("bit-XOR", .binary .bitXor),
  ("bit-left-shift", .binary .shl),
  ("bit-right-shift", .binary .shr),
  ("zero-fill-right-shift", .binary .ushr),
  ("and", .logical .and),
  ("or", .logical .or),
  ("neg", .unary .neg),
  ("not", .unary .not),
  ("identifier", .ident),
  ("int", .int),
  ("float", .float),
  ("bool", .bool),
  ("string", .str)]

/-- The kind that a word names. -/
def ofString? (s : String) : Option Kind :=
  table.lookup s

end Kind

def Literal.kind : Literal → Kind
  | .int _ => .int
  | .float _ => .float
  | .bool _ => .bool
  | .str _ => .str

/-- The kind of the node at a position; nothing where there is a sequence or nothing. -/
def Tree.kind? : Tree → Option Kind
  | .empty => none
  | .seq _ => none
  | .program _ => some .program
  | .block _ => some .block
  | .function _ _ _ _ => some .function
  | .ret _ => some .ret
  | .declare _ _ => some .declare
  | .declareWith _ _ _ => some .declareWith
  | .assign _ _ => some .assign
  | .compound op _ _ => some (.compound op)
  | .step op _ => some (.step op)
  | .ifThen _ _ => some .ifThen
  | .ifElse _ _ _ => some .ifElse
  | .whileLoop _ _ => some .whileLoop
  | .doLoop _ _ => some .doLoop
  | .forLoop _ _ _ _ => some .forLoop
  | .call _ _ => some .call
  | .binary op _ _ => some (.binary op)
  | .logical op _ _ => some (.logical op)
  | .unary op _ => some (.unary op)
  | .ident _ => some .ident
  | .lit l => some l.kind

end SceneCode
