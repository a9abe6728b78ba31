/-!
# The command line

The command takes one input, options with a value, and flags.  Arguments are read from left to
right.  The value of an option, and the input, are looked at when the next option or input begins
or the arguments end; until then they are pending.  So an unknown argument is reported even right
after an option whose value is missing or wrong, but before that value would have been looked at.
-/

namespace SceneCode.Command

/-- How a program is written. -/
inductive Format where
  | json
  | listing
deriving DecidableEq, Repr

def Format.ofString? : String → Option Format
  | "json" => some .json
  | "listing" => some .listing
  | _ => none

/-- What a command line asks for. -/
structure Options where
  /-- The file with the tree. -/
  input : Option String := none
  /-- The file to write to. -/
  output : Option String := none
  format : Option Format := none
  /-- The file with the settings. -/
  config : Option String := none
  pretty : Bool := false
  noForwardCalls : Bool := false
  halt : Bool := false
  verbose : Bool := false
deriving DecidableEq, Repr

/-- The file with the tree, unless it is read from standard input. -/
def Options.inputPath (o : Options) : Option String :=
  o.input.filter (· ≠ "-")

/-- Why a command line starts no run. -/
inductive Stop where
  /-- An option that does not exist, or a second input. -/
  | unknownArgument
  /-- A value that is missing, empty or not among the possible ones. -/
  | invalidValue
  /-- An option or a flag given twice. -/
  | conflict
  /-- A flag with a value. -/
  | tooManyValues
  /-- The help was asked for. -/
  | help
  /-- The version was asked for. -/
  | version
deriving DecidableEq, Repr

/-- An argument without a value. -/
inductive Flag where
  | pretty | noForwardCalls | halt | verbose | help | version
deriving DecidableEq, Repr

/-- A place for a value. -/
inductive Slot where
  | input | output | format | config
deriving DecidableEq, Repr

/-- What a name on the command line stands for. -/
inductive Switch where
  | flag (f : Flag)
  | slot (s : Slot)
deriving DecidableEq, Repr

def Switch.ofLong? : String → Option Switch
  | "output" => some (.slot .output)
  | "format" => some (.slot .format)
  | "config" => some (.slot .config)
  | "pretty" => some (.flag .pretty)
  | "no-forward-calls" => some (.flag .noForwardCalls)
  | "halt" => some (.flag .halt)
  | "verbose" => some (.flag .verbose)
  | "help" => some (.flag .help)
  | "version" => some (.flag .version)
  | _ => none

def Switch.ofShort? : Char → Option Switch
  | 'o' => some (.slot .output)
  | 'f' => some (.slot .format)
  | 'c' => some (.slot .config)
  | 'v' => some (.flag .verbose)
  | 'h' => some (.flag .help)
  | 'V' => some (.flag .version)
  | _ => none

/-- Fill a place that is still free.  A place that is taken is a conflict, whatever the value. -/
def Options.fill (o : Options) (slot : Slot) (value : String) : Except Stop Options :=
  let path (taken : Option String) (filled : Options) : Except Stop Options :=
    if taken.isSome then .error .conflict
    else if value = "" then .error .invalidValue
    else .ok filled
  match slot with
  | .input => path o.input { o with input := some value }
  | .output => path o.output { o with output := some value }
  | .config => path o.config { o with config := some value }
  | .format =>
    if o.format.isSome then .error .conflict
    else match Format.ofString? value with
      | some format => .ok { o with format := some format }
      | none => .error .invalidValue

/-- Set a flag that is not set yet. -/
def Options.raise (o : Options) (flag : Flag) : Except Stop Options :=
  let once (taken : Bool) (set : Options) : Except Stop Options :=
    if taken then .error .conflict else .ok set
  match flag with
  | .pretty => once o.pretty { o with pretty := true }
  | .noForwardCalls => once o.noForwardCalls { o with noForwardCalls := true }
  | .halt => once o.halt { o with halt := true }
  | .verbose => once o.verbose { o with verbose := true }
  | .help => .error .help
  | .version => .error .version

/-- How far the reading of a command line has come. -/
structure Progress where
  options : Options := {}
  /-- The place that waits to be filled, with its value if that has been read. -/
  pending : Option (Slot × Option String) := none
  /-- Whether every further argument is an input. -/
  literal : Bool := false
  /-- Whether the input has been read. -/
  inputRead : Bool := false

namespace Progress

/-- Look at what is pending. -/
def settle (p : Progress) : Except Stop Progress :=
  match p.pending with
  | none => .ok p
  | some (_, none) => .error .invalidValue
  | some (slot, some value) => do
    let options ← p.options.fill slot value
    return { p with options, pending := none }

/-- An option whose value is the next argument. -/
def await (p : Progress) (slot : Slot) : Except Stop Progress := do
  let p ← p.settle
  return { p with pending := some (slot, none) }

/-- An option with its value in the same argument. -/
def fill (p : Progress) (slot : Slot) (value : String) : Except Stop Progress := do
  let p ← p.settle
  return { p with options := ← p.options.fill slot value }

def raise (p : Progress) (flag : Flag) : Except Stop Progress := do
  let p ← p.settle
  return { p with options := ← p.options.raise flag }

/-- An argument with two dashes, which are left out here. -/
def long (p : Progress) (argument : List Char) : Except Stop Progress :=
  let name := String.ofList (argument.takeWhile (· ≠ '='))
  let value : Option String :=
    match argument.dropWhile (· ≠ '=') with
    | [] => none
    | _ :: value => some (String.ofList value)
  match Switch.ofLong? name, value with
  | none, _ => .error .unknownArgument
  | some (.flag _), some _ => .error .tooManyValues
  | some (.flag flag), none => p.raise flag
  | some (.slot slot), some value => p.fill slot value
  | some (.slot slot), none => p.await slot

/-- The letters of an argument with one dash, which is left out here.  What follows the letter of
    an option is its value, an equals sign in between being optional. -/
def short (p : Progress) : List Char → Except Stop Progress
  | [] => .ok p
  | letter :: rest =>
    match Switch.ofShort? letter with
    | none => .error .unknownArgument
    | some (.flag flag) => do
      let p ← p.raise flag
      short p rest
    | some (.slot slot) =>
      match rest with
      | [] => p.await slot
      | '=' :: value => p.fill slot (String.ofList value)
      | value => p.fill slot (String.ofList value)

def input (p : Progress) (argument : String) : Except Stop Progress :=
  if p.inputRead then .error .unknownArgument
  else do
    let p ← p.settle
    return { p with pending := some (.input, some argument), inputRead := true }

/-- An argument that begins with no dash, or is a dash alone. -/
def plain (p : Progress) (argument : String) : Except Stop Progress :=
  match p.pending with
  | some (slot, none) => .ok { p with pending := some (slot, some argument) }
  | _ => p.input argument

def step (p : Progress) (argument : String) : Except Stop Progress :=
  if p.literal then p.input argument
  else match argument.toList with
    | ['-', '-'] => .ok { p with literal := true }
    | '-' :: '-' :: rest => p.long rest
    | '-' :: first :: rest => p.short (first :: rest)
    | _ => p.plain argument

end Progress

/-- Read a command line, without the name of the command. -/
def Options.parse (arguments : List String) : Except Stop Options := do
  let p ← arguments.foldlM Progress.step {}
  let p ← p.settle
  return p.options

end SceneCode.Command
