import SceneCode.Tree.Decode

/-!
# Trees to JSON

The canonical JSON of a tree: kinds by their short words, names bare, the operand of a unary
operator in an array of its own, call arguments always in an array.  `Tree.decode` reads it back
as long as every assignment with an operator has an arithmetic one and every double is finite.
-/

namespace SceneCode

/-- An integer in the range of signed 64-bit words as a JSON number. -/
def Json.ofInt64 (n : Int64) : Json :=
  .num (.int n.toInt ⟨n.le_toInt, by have := n.toInt_lt; omega⟩)

/-- A double as a JSON value; null if it is not finite. -/
def Json.ofBinary64 (x : Binary64) : Json :=
  match Json.Number.ofBinary64? x with
  | some n => .num n
  | none => .null

def Literal.encode : Literal → Json
  | .int n => .ofInt64 n
  | .float x => .ofBinary64 x
  | .bool b => .bool b
  | .str s => .str s

def Param.encode (p : Param) : Json :=
  .arr [.str p.type.name, .str p.name]

namespace Tree

def encodeNode (kind : Kind) (arguments : Json) : Json :=
  .obj [("arguments", arguments), ("type", .str kind.spelling)]

mutual

def encode : Tree → Json
  | .empty => .str ""
  | .seq items => .arr (encodeAll items)
  | .program body => encodeNode .program (encode body)
  | .block body => encodeNode .block (encode body)
  | .function name params returns body =>
    encodeNode .function
      (.arr [.str name, .arr (params.map Param.encode), .str returns.name, encode body])
  | .ret value => encodeNode .ret (encode value)
  | .declare type name => encodeNode .declare (.arr [.str type.name, .str name])
  | .declareWith type name value =>
    encodeNode .declareWith (.arr [.str type.name, .str name, encode value])
  | .assign name value => encodeNode .assign (.arr [.str name, encode value])
  | .compound op name value => encodeNode (.compound op) (.arr [.str name, encode value])
  | .step op name => encodeNode (.step op) (.str name)
  | .ifThen cond body => encodeNode .ifThen (.arr [encode cond, encode body])
  | .ifElse cond body other => encodeNode .ifElse (.arr [encode cond, encode body, encode other])
  | .whileLoop cond body => encodeNode .whileLoop (.arr [encode cond, encode body])
  | .doLoop cond body => encodeNode .doLoop (.arr [encode cond, encode body])
  | .forLoop init cond update body =>
    encodeNode .forLoop (.arr [encode init, encode cond, encode update, encode body])
  | .call name args => encodeNode .call (.arr [.str name, .arr (encodeAll args)])
  | .binary op lhs rhs => encodeNode (.binary op) (.arr [encode lhs, encode rhs])
  | .logical op lhs rhs => encodeNode (.logical op) (.arr [encode lhs, encode rhs])
  | .unary op operand => encodeNode (.unary op) (.arr [encode operand])
  | .ident name => encodeNode .ident (.str name)
  | .lit value => encodeNode value.kind value.encode

def encodeAll : List Tree → List Json
  | [] => []
  | t :: rest => encode t :: encodeAll rest

end

end Tree

end SceneCode
