/-!
# Values of settings files

A settings file is a tree of tables.  No setting is a number or a date, so of these only the kind
is kept.

The file says in several places what a table holds: under a header, by keys of several parts, by
the headers of tables inside it.  What may be added to a table depends on how it came about, so
every table carries its origin:

* a header fills a table that exists at most because tables inside it have headers;
* a key of several parts adds to tables that such keys made, and leads through tables that headers
  imply, but never ends in one;
* a table between braces is complete.
-/

namespace SceneCode.Toml

/-- How a table came about. -/
inductive Origin where
  /-- It has a header of its own. -/
  | header
  /-- A table inside it has a header. -/
  | implied
  /-- A key of several parts leads through it. -/
  | dotted
  /-- It is a value between braces. -/
  | braces
deriving DecidableEq, Repr

/-- A value of a settings file. -/
inductive Value where
  | bool (b : Bool)
  | str (s : String)
  | number
  /-- A date, a time, or both. -/
  | moment
  | array (items : List Value)
  | table (origin : Origin) (fields : List (String × Value))
  /-- The tables under one repeated header: the finished ones, and the fields of the last. -/
  | tables (finished : List Value) (latest : List (String × Value))

abbrev Fields := List (String × Value)

/-- A key of one or more parts. -/
abbrev Path := List String

namespace Fields

def get? (fields : Fields) (key : String) : Option Value :=
  fields.lookup key

/-- Give a key its value, in place of the one it has. -/
def set (fields : Fields) (key : String) (v : Value) : Fields :=
  (key, v) :: fields.filter fun field => field.1 ≠ key

/-- Define a key.  It must be new, and so must be the tables that its parts lead through, unless
    earlier keys or headers of inner tables made them. -/
def define (v : Value) : Path → Fields → Option Fields
  | [], _ => none
  | [key], fields => if (fields.get? key).isSome then none else some (fields.set key v)
  | key :: rest, fields =>
    match fields.get? key with
    | none => do return fields.set key (.table .dotted (← define v rest []))
    | some (.table .dotted inner) => do
      return fields.set key (.table .dotted (← define v rest inner))
    | some (.table .implied inner) => do
      guard (1 < rest.length)
      return fields.set key (.table .implied (← define v rest inner))
    | some (.tables finished latest) => do
      guard (1 < rest.length)
      return fields.set key (.tables finished (← define v rest latest))
    | some _ => none

/-- Change what a header names.  Tables on the way that are missing are implied by the header, and
    of tables under one repeated header the last is meant. -/
def alter (change : Option Value → Option Value) : Path → Fields → Option Fields
  | [], _ => none
  | [key], fields => do return fields.set key (← change (fields.get? key))
  | key :: rest, fields =>
    match fields.get? key with
    | none => do return fields.set key (.table .implied (← alter change rest []))
    | some (.table .braces _) => none
    | some (.table origin inner) => do
      return fields.set key (.table origin (← alter change rest inner))
    | some (.tables finished latest) => do
      return fields.set key (.tables finished (← alter change rest latest))
    | some _ => none

end Fields

namespace Value

def opened : Option Value → Option Value
  | none => some (.table .header [])
  | some (.table .implied fields) => some (.table .header fields)
  | some _ => none

/-- The tables that a repeated header opens one more of. -/
def repeated : Option Value → Option Value
  | none => some (.tables [] [])
  | some (.tables finished latest) => some (.tables (finished ++ [.table .header latest]) [])
  | some _ => none

def extended (key : Path) (v : Value) : Option Value → Option Value
  | some (.table origin fields) => (Fields.define v key fields).map (.table origin)
  | some (.tables finished latest) => (Fields.define v key latest).map (.tables finished)
  | _ => none

def isEmpty : Value → Bool
  | .array [] | .table _ [] => true
  | _ => false

/-- A part of a value that stands for a record.  In an array the parts stand in order, in a table
    under their names; a date has none of them. -/
def part? (v : Value) (position : Nat) (name : String) : Option (Option Value) :=
  match v with
  | .array items => some items[position]?
  | .tables finished latest => some (finished ++ [.table .header latest])[position]?
  | .table _ fields => some (Fields.get? fields name)
  | .moment => some none
  | _ => none

end Value

end SceneCode.Toml
