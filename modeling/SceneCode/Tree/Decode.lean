import SceneCode.Json.Printer
import SceneCode.Tree.Kind

/-!
# Trees from JSON

The parser writes a tree as JSON: an object with a `type` and its `arguments` is a node, an array
is a sequence, and the empty text is nothing.  Arguments are given by position.  Everything that
is not of this form is refused with the first fault met, reading the arguments of a node in the
order of its fields.
-/

namespace SceneCode

/-- What was expected where something else stood. -/
inductive Expected where
  /-- An array of that many arguments. -/
  | arguments (count : Nat)
  | string
  | integer
  | number
  | boolean
  | parameterList
deriving DecidableEq, Repr

/-- The words for what was expected. -/
def Expected.text : Expected → String
  | .arguments count => Text.decimal count ++ " arguments"
  | .string => "a string"
  | .integer => "an integer"
  | .number => "a number"
  | .boolean => "a boolean"
  | .parameterList => "a parameter list"

/-- Why a JSON value is not a tree. -/
inductive DecodeError where
  /-- The type of a node names no kind. -/
  | unknownKind (kind : String)
  /-- Neither a node, nor a sequence, nor the empty text. -/
  | notATree (found : Json)
  /-- A node whose type is missing or is neither a text nor a number. -/
  | noType
  /-- An argument of the wrong shape, in a node whose kind was written as `kind`. -/
  | mismatch (kind : String) (expected : Expected) (found : Json)

def DecodeError.message : DecodeError → String
  | .unknownKind kind => "No code generator for node kind '" ++ kind ++ "'"
  | .notATree found =>
    "Malformed AST: expected a node, a sequence or \"\", found " ++ found.compact
  | .noType => "Malformed AST: node without a \"type\" key"
  | .mismatch kind expected found =>
    "Malformed AST: '" ++ kind ++ "' expects " ++ expected.text ++ ", found " ++ found.compact

namespace Tree

/-- A value of the expected shape, or the error that says what stood there instead. -/
def expect {α : Type} (kind : String) (expected : Expected) (found : Json) :
    Option α → Except DecodeError α
  | some a => .ok a
  | none => .error (.mismatch kind expected found)

/-- An argument that is a text. -/
def decodeString (kind : String) (v : Json) : Except DecodeError String :=
  expect kind .string v v.str?

def decodeType (kind : String) (v : Json) : Except DecodeError TypeName :=
  (decodeString kind v).map TypeName.mk

/-- The only argument of a node that is a name, bare or in an array of its own. -/
def decodeName (kind : String) : Json → Except DecodeError String
  | .arr [v] => decodeString kind v
  | v => decodeString kind v

/-- One parameter, its type before its name. -/
def decodeParam : Json → Except DecodeError Param
  | .arr [type, name] => do
    let type ← decodeType "parameter" type
    let name ← decodeString "parameter" name
    return ⟨type, name⟩
  | v => .error (.mismatch "parameter" (.arguments 2) v)

def decodeParams : Json → Except DecodeError (List Param)
  | .arr items => items.mapM decodeParam
  | .str "" => .ok []
  | v => .error (.mismatch "function" .parameterList v)

/-- The kind that the type of a node names, and the word it is written with. -/
def decodeKind : Option Json → Except DecodeError (String × Kind)
  | some (.str written) => match Kind.ofString? written with
    | some kind => .ok (written, kind)
    | none => .error (.unknownKind written)
  | some (.num code) => .error (.unknownKind code.text)
  | _ => .error .noType

/-- The arguments of a node; a node without any has the null value. -/
def argumentsOf (fields : List (String × Json)) : Json :=
  (fields.lookup "arguments").getD .null

theorem sizeOf_lookup_lt {fields : List (String × Json)} {name : String} {v : Json}
    (h : fields.lookup name = some v) : sizeOf v < sizeOf fields := by
  induction fields with
  | nil => simp at h
  | cons f rest ih =>
    obtain ⟨n, w⟩ := f
    simp only [List.lookup_cons] at h
    split at h
    · simp only [Option.some.injEq] at h
      subst h
      simp only [List.cons.sizeOf_spec, Prod.mk.sizeOf_spec]
      omega
    · have := ih h
      simp only [List.cons.sizeOf_spec]
      omega

/-- The arguments of a node are smaller than the object that holds them. -/
theorem sizeOf_argumentsOf_lt (fields : List (String × Json)) :
    sizeOf (argumentsOf fields) < sizeOf (Json.obj fields) := by
  unfold argumentsOf
  cases h : fields.lookup "arguments" with
  | some v =>
    have := sizeOf_lookup_lt h
    simp only [Option.getD_some, Json.obj.sizeOf_spec]
    omega
  | none =>
    have : 0 < sizeOf fields := by
      cases fields with
      | nil => simp only [List.nil.sizeOf_spec]; omega
      | cons f rest => simp only [List.cons.sizeOf_spec]; omega
    simp only [Option.getD_none, Json.null.sizeOf_spec, Json.obj.sizeOf_spec]
    omega

mutual

def decode (v : Json) : Except DecodeError Tree :=
  match v with
  | .arr items => return .seq (← decodeAll items)
  | .str "" => return .empty
  | .obj fields => do
    let (written, kind) ← decodeKind (fields.lookup "type")
    decodeNode written kind (argumentsOf fields)
  | v => .error (.notATree v)
termination_by (sizeOf v, 1)
decreasing_by
  · simp only [Json.arr.sizeOf_spec]; apply Prod.Lex.left; omega
  · exact Prod.Lex.left _ _ (sizeOf_argumentsOf_lt fields)

def decodeAll (vs : List Json) : Except DecodeError (List Tree) :=
  match vs with
  | [] => return []
  | v :: rest => do
    let first ← decode v
    let others ← decodeAll rest
    return first :: others
termination_by (sizeOf vs, 0)
decreasing_by
  all_goals simp only [List.cons.sizeOf_spec]; apply Prod.Lex.left; omega

def decodeNode (written : String) (kind : Kind) (arguments : Json) : Except DecodeError Tree :=
  match kind, arguments with
  | .program, v => return .program (← decode v)
  | .block, v => return .block (← decode v)
  | .ret, v => return .ret (← decode v)
  | .function, .arr [name, params, returns, body] => do
    let name ← decodeString written name
    let params ← decodeParams params
    let returns ← decodeType written returns
    return .function name params returns (← decode body)
  | .function, v => .error (.mismatch written (.arguments 4) v)
  | .declare, .arr [type, name] => do
    let type ← decodeType written type
    return .declare type (← decodeString written name)
  | .declare, v => .error (.mismatch written (.arguments 2) v)
  | .declareWith, .arr [type, name, value] => do
    let type ← decodeType written type
    let name ← decodeString written name
    return .declareWith type name (← decode value)
  | .declareWith, v => .error (.mismatch written (.arguments 3) v)
  | .assign, .arr [name, value] => do
    let name ← decodeString written name
    return .assign name (← decode value)
  | .assign, v => .error (.mismatch written (.arguments 2) v)
  | .compound op, .arr [name, value] => do
    let name ← decodeString written name
    return .compound op name (← decode value)
  | .compound _, v => .error (.mismatch written (.arguments 2) v)
  | .step op, v => return .step op (← decodeName written v)
  | .ifThen, .arr [cond, body] => do
    let cond ← decode cond
    return .ifThen cond (← decode body)
  | .ifThen, v => .error (.mismatch written (.arguments 2) v)
  | .ifElse, .arr [cond, body, other] => do
    let cond ← decode cond
    let body ← decode body
    return .ifElse cond body (← decode other)
  | .ifElse, v => .error (.mismatch written (.arguments 3) v)
  | .whileLoop, .arr [cond, body] => do
    let cond ← decode cond
    return .whileLoop cond (← decode body)
  | .whileLoop, v => .error (.mismatch written (.arguments 2) v)
  | .doLoop, .arr [cond, body] => do
    let cond ← decode cond
    return .doLoop cond (← decode body)
  | .doLoop, v => .error (.mismatch written (.arguments 2) v)
  | .forLoop, .arr [init, cond, update, body] => do
    let init ← decode init
    let cond ← decode cond
    let update ← decode update
    return .forLoop init cond update (← decode body)
  | .forLoop, v => .error (.mismatch written (.arguments 4) v)
  | .call, .arr [name, .arr args] => do
    let args ← decodeAll args
    return .call (← decodeString written name) args
  | .call, .arr [name, .str ""] => return .call (← decodeString written name) []
  | .call, .arr [name, arg] => do
    let arg ← decode arg
    return .call (← decodeString written name) [arg]
  | .call, v => .error (.mismatch written (.arguments 2) v)
  | .binary op, .arr [lhs, rhs] => do
    let lhs ← decode lhs
    return .binary op lhs (← decode rhs)
  | .binary _, v => .error (.mismatch written (.arguments 2) v)
  | .logical op, .arr [lhs, rhs] => do
    let lhs ← decode lhs
    return .logical op lhs (← decode rhs)
  | .logical _, v => .error (.mismatch written (.arguments 2) v)
  | .unary op, .arr [operand] => return .unary op (← decode operand)
  | .unary op, v => return .unary op (← decode v)
  | .ident, v => return .ident (← decodeName written v)
  | .int, v => return .lit (.int (.ofInt (← expect written .integer v v.int64?)))
  | .float, v => return .lit (.float (← expect written .number v v.binary64?))
  | .bool, v => return .lit (.bool (← expect written .boolean v v.bool?))
  | .str, v => return .lit (.str (← expect written .string v v.str?))
termination_by (sizeOf arguments, 2)
decreasing_by
  all_goals
    first
      | apply Prod.Lex.right; omega
      | simp only [Json.arr.sizeOf_spec, List.cons.sizeOf_spec]; apply Prod.Lex.left; omega

end

end Tree

end SceneCode
