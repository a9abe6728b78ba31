import SceneCode.Command.Settings
import SceneCode.Machine.Listing
import SceneCode.Session.Compile

/-!
# A run of the command

A run reads the settings, reads the input, compiles it and writes the program.  What it needs of
the system around it is a `Host`, so the same run works on real files and on files in memory.  The
first thing that goes wrong ends the run with a report.
-/

namespace SceneCode.Command

/-- Why a file could not be read or written. -/
inductive FileError where
  | noSuchFile
  | notDirectory
  | isDirectory
  | nameTooLong
  | notText
  /-- Any other reason, in the words of the system. -/
  | other (reason : String)
deriving DecidableEq, Repr

def FileError.message : FileError → String
  | .noSuchFile => "No such file or directory (os error 2)"
  | .notDirectory => "Not a directory (os error 20)"
  | .isDirectory => "Is a directory (os error 21)"
  | .nameTooLong => "File name too long (os error 36)"
  | .notText => "stream did not contain valid UTF-8"
  | .other reason => reason

/-- What a run needs of the system around it. -/
structure Host (m : Type → Type) where
  /-- The content of a file. -/
  readFile : String → m (Except FileError ByteArray)
  /-- The content of standard input. -/
  readStdin : m (Except FileError ByteArray)
  /-- Whether a name is that of a file, and not of a directory. -/
  isFile : String → m Bool
  /-- Where the settings of the user would be. -/
  userSettings : m (Option String)
  /-- Replace the content of a file, or create it. -/
  writeFile : String → String → m (Except FileError Unit)

/-- Why a run failed. -/
inductive Failure where
  | settingsUnreadable (path : String) (e : FileError)
  | settingsInvalid (path : String)
  | inputUnreadable (path : Option String) (e : FileError)
  /-- The input is not JSON, or not a tree, or has no code. -/
  | notCompiled (e : CompileError)
  | outputUnwritable (path : String) (e : FileError)

def Failure.message : Failure → String
  | .settingsUnreadable path e => "failed to read config file " ++ path ++ ": " ++ e.message ++ "\n"
  | .settingsInvalid path => "invalid config file " ++ path
  | .inputUnreadable (some path) e => "failed to read " ++ path ++ ": " ++ e.message ++ "\n"
  | .inputUnreadable none e => "failed to read stdin: " ++ e.message ++ "\n"
  | .notCompiled (.json _) => "failed to decode the AST: JSON parse error: "
  | .notCompiled (.decode e) => "failed to decode the AST: " ++ e.message ++ "\n"
  | .notCompiled (.generate e) => "code generation failed: " ++ e.message ++ "\n"
  | .outputUnwritable path e => "failed to write " ++ path ++ ": " ++ e.message ++ "\n"

/-- The word that opens the report of a failure, in bold and red. -/
def Failure.mark : String := "\x1b[1m\x1b[31mError\x1b[39m\x1b[0m: "

/-- What a run leaves behind, apart from files. -/
structure Report where
  exit : Nat := 0
  stdout : String := ""
  stderr : String := ""
  /-- The log of the session, as far as the command line asks for it. -/
  log : List Event := []

/-- The text of a file, which must be UTF-8. -/
def textOf (bytes : Except FileError ByteArray) : Except FileError String := do
  match String.fromUTF8? (← bytes) with
  | some text => .ok text
  | none => .error .notText

/-- A program as it is written out. -/
def render (output : Output) (p : Program) : String :=
  match output.format with
  | .json => p.json (if output.pretty then .indented else .compact) ++ "\n"
  | .listing => Listing.text p

def settingsFile : String := "sketch.toml"

section

variable {m : Type → Type} [Monad m]

def readSettings (host : Host m) (path : String) : ExceptT Failure m Settings := do
  match textOf (← host.readFile path) with
  | .error e => throw (.settingsUnreadable path e)
  | .ok text => match Settings.ofText? text with
    | some settings => return settings
    | none => throw (.settingsInvalid path)

/-- The settings in the first of some files that exists; the defaults if none does. -/
def firstSettings (host : Host m) : List String → ExceptT Failure m Settings
  | [] => return {}
  | path :: rest => do
    if ← host.isFile path then readSettings host path
    else firstSettings host rest

/-- The settings of a run: those in the given file, else those of the working directory, else
    those of the user. -/
def loadSettings (host : Host m) : Option String → ExceptT Failure m Settings
  | some path => readSettings host path
  | none => do
    let user : Option String ← host.userSettings
    firstSettings host (settingsFile :: user.toList)

def readInput (host : Host m) (path : Option String) : ExceptT Failure m String := do
  let bytes ← match path with
    | some path => host.readFile path
    | none => host.readStdin
  match textOf bytes with
  | .ok text => return text
  | .error e => throw (.inputUnreadable path e)

/-- Write the result, to standard output if no file is named. -/
def writeOutput (host : Host m) (path : Option String) (text : String) :
    ExceptT Failure m String := do
  match path with
  | none => return text
  | some path =>
    match ← host.writeFile path text with
    | .ok () => return ""
    | .error e => throw (.outputUnwritable path e)

/-- The log of a compilation, and the program. -/
def compileText (config : Config) (text : String) :
    List Event × Except Failure Program :=
  match Tree.read text with
  | .error e => ([], .error (.notCompiled e))
  | .ok tree =>
    let outcome := Gen.compile tree { config }
    (outcome.events, outcome.result.mapError fun e => .notCompiled (.generate e))

/-- The part of a log that a command line asks for. -/
def shownLog (o : Options) (log : List Event) : List Event :=
  if o.verbose then log.filter (·.level = .debug) else []

def carryOut (host : Host m) (o : Options) : m Report := do
  let failed (log : List Event) (e : Failure) : Report :=
    { exit := 1, stderr := Failure.mark ++ e.message, log }
  let prepared ← ExceptT.run do
    let settings := (← loadSettings host o.config).apply o
    return (settings, ← readInput host o.inputPath)
  match prepared with
  | .error e => return failed [] e
  | .ok (settings, text) =>
    let (events, compiled) := compileText settings.compiler text
    let log := shownLog o events
    match compiled with
    | .error e => return failed log e
    | .ok program =>
      match ← (writeOutput host o.output (render settings.output program)).run with
      | .error e => return failed log e
      | .ok stdout => return { stdout, log }

def versionText : String := "sketch 0.1.0\n"

def helpText : String :=
  "Usage: sketch [OPTIONS] [INPUT]\n\n" ++
  "Options:\n" ++
  "  -o, --output <FILE>      Write the result to a file instead of stdout\n" ++
  "  -f, --format <FORMAT>    Output format: json or listing\n" ++
  "      --pretty             Pretty-print JSON output\n" ++
  "      --no-forward-calls   Require every call to name an already defined function\n" ++
  "      --halt               Append a HALT instruction to the program\n" ++
  "  -c, --config <FILE>      Configuration file\n" ++
  "  -v, --verbose            Enable verbose output\n" ++
  "  -h, --help               Print help\n" ++
  "  -V, --version            Print version\n"

def run (host : Host m) (arguments : List String) : m Report :=
  match Options.parse arguments with
  | .ok options => carryOut host options
  | .error .version => return { stdout := versionText }
  | .error .help => return { stdout := helpText }
  | .error _ => return { exit := 2, stderr := helpText }

end

end SceneCode.Command
