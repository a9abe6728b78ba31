import SceneCode.Text.Decimal

/-!
# Faults of a program

The reasons for which no code can be generated for a tree.  Each says what is wrong with which
name; the wording of the report is in one place.
-/

namespace SceneCode

/-- What a name was needed for. -/
inductive Role where
  | function
  | variable
deriving DecidableEq, Repr

/-- Why code generation stopped. -/
inductive Fault where
  /-- The name is already taken in the innermost scope. -/
  | redefinition (name : String)
  /-- No open scope has the name. -/
  | unresolved (name : String)
  /-- A return outside of every function. -/
  | noFunction
  /-- The name stands for something else than what it was needed for. -/
  | notA (role : Role) (name : String)
  /-- The outermost scope cannot be closed. -/
  | scopeUnderflow
  /-- The replaced word was never written. -/
  | patchOutOfRange (address length : Nat)
deriving DecidableEq, Repr

def Role.text : Role → String
  | .function => "function"
  | .variable => "variable"

def Fault.message : Fault → String
  | .redefinition name => "Illegal attempt to redefine '" ++ name ++ "' in the same scope"
  | .unresolved name => "Unresolved reference to '" ++ name ++ "'"
  | .noFunction => "Not currently defining a function, no return type available"
  | .notA role name => "'" ++ name ++ "' is not a " ++ role.text
  | .scopeUnderflow => "Scope stack underflow: the root frame cannot be popped"
  | .patchOutOfRange address length =>
    "Cannot patch address " ++ Text.decimal address ++ ": only " ++ Text.decimal length ++
      " words emitted"

end SceneCode
