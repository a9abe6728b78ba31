import SceneCode.Command.Options
import SceneCode.Session.Basic
import SceneCode.Toml.Document

/-!
# Settings

The settings of a run come from a settings file, with defaults for what it does not say, and the
command line wins over them.  They stand in two records, each of which is a table or, with its
parts in a fixed order, an array.  Keys that nobody knows are passed over; a known part with a
value of the wrong type makes the file invalid.
-/

namespace SceneCode.Command

/-- How a program is written out. -/
structure Output where
  format : Format := .json
  /-- Whether JSON is written over several lines. -/
  pretty : Bool := false
deriving DecidableEq, Repr

/-- The settings of a run. -/
structure Settings where
  compiler : Config := {}
  output : Output := {}
deriving DecidableEq, Repr

namespace Settings

/-- A part of a record, or the default if it is missing; nothing if it has the wrong type. -/
def partOr {α : Type} (record : Option Toml.Value) (position : Nat) (name : String) (default : α)
    (read? : Toml.Value → Option α) : Option α :=
  match record with
  | none => some default
  | some v => match v.part? position name with
    | none => none
    | some none => some default
    | some (some part) => read? part

def bool? : Toml.Value → Option Bool
  | .bool b => some b
  | _ => none

/-- A format: its name, or a table in which nothing but its name stands. -/
def format? : Toml.Value → Option Format
  | .str s => Format.ofString? s
  | .table _ [(name, v)] => if v.isEmpty then Format.ofString? name else none
  | _ => none

/-- The settings in the fields of a file; nothing if one of them is invalid. -/
def ofFields? (fields : Toml.Fields) : Option Settings := do
  let defaults : Settings := {}
  let compiler := fields.get? "compiler"
  let output := fields.get? "output"
  return {
    compiler := {
      forwardCalls := ← partOr compiler 0 "forward_calls" defaults.compiler.forwardCalls bool?
      emitHalt := ← partOr compiler 1 "emit_halt" defaults.compiler.emitHalt bool? }
    output := {
      format := ← partOr output 0 "format" defaults.output.format format?
      pretty := ← partOr output 1 "pretty" defaults.output.pretty bool? } }

/-- The settings in the text of a file; nothing if it is invalid. -/
def ofText? (text : String) : Option Settings :=
  (Toml.read? text).bind ofFields?

/-- The settings under a command line.  A flag can only switch on what its name says. -/
def apply (s : Settings) (o : Options) : Settings where
  compiler := {
    forwardCalls := s.compiler.forwardCalls && !o.noForwardCalls
    emitHalt := s.compiler.emitHalt || o.halt }
  output := {
    format := o.format.getD s.output.format
    pretty := s.output.pretty || o.pretty }

end Settings

end SceneCode.Command
