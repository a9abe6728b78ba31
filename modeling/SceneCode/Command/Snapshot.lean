import SceneCode.Command.Run

/-!
# Runs on files in memory

A `Snapshot` is the part of a file system that a run can see, held as a value: the files in and
below the working directory, and what every system has.  A run on it is a pure function, from the
files before to the files after.

A path is followed part by part, so each reason why it leads nowhere belongs to one of its parts.
The working directory lies in other directories, whose names and other content are not known.
-/

namespace SceneCode.Command

/-- What a name in a directory stands for. -/
inductive FileEntry where
  | file (content : ByteArray)
  | directory

/-- A directory that ways through the file system start from. -/
inductive Base where
  /-- The top of the file system. -/
  | root
  /-- The directory so many levels above the working directory, which itself is at level zero. -/
  | above (levels : Nat)
deriving DecidableEq, Repr

/-- A place in the file system, whether or not something stands there. -/
structure Place where
  base : Base := .above 0
  /-- The names on the way from the base, none of which leads back. -/
  names : List String := []
deriving DecidableEq, Repr

/-- The directory that a directory lies in.  The top of the file system lies in itself. -/
def Place.parent (p : Place) : Place :=
  match p.names, p.base with
  | [], .root => p
  | [], .above levels => { base := .above (levels + 1) }
  | names, base => ⟨base, names.dropLast⟩

/-- Where standard input can be read like a file. -/
def Place.stdin : Place := ⟨.root, ["dev", "stdin"]⟩

/-- What every system has: a file that is empty, and a directory for everybody. -/
def Place.standard : List (Place × FileEntry) :=
  [(⟨.root, ["dev", "null"]⟩, .file .empty), (⟨.root, ["tmp"]⟩, .directory)]

/-- The files that a run can see, what stands on standard input, and where the settings of the user
    are. -/
structure Snapshot where
  /-- The entries by their places, last written first. -/
  entries : List (Place × FileEntry) := Place.standard
  stdin : ByteArray := .empty
  userSettings : Option String := none

namespace Snapshot

/-- What stands at a place.  Everything that an entry lies in is a directory. -/
def at? (s : Snapshot) (place : Place) : Option FileEntry :=
  if place.names = [] then some .directory
  else if place = .stdin then some (.file s.stdin)
  else match s.entries.lookup place with
    | some e => some e
    | none =>
      if s.entries.any fun e => e.1.base = place.base && place.names.isPrefixOf e.1.names
      then some .directory
      else none

/-- How many bytes a name may have. -/
def nameLimit : Nat := 255

/-- How many bytes a path may have. -/
def pathLimit : Nat := 4095

/-- Follow one part of a path from a place, which must be a directory. -/
def follow (s : Snapshot) (place : Place) (part : String) : Except FileError Place :=
  match s.at? place with
  | none => .error .noSuchFile
  | some (.file _) => .error .notDirectory
  | some .directory =>
    if part = "" ∨ part = "." then .ok place
    else if part = ".." then .ok place.parent
    else if nameLimit < part.utf8ByteSize then .error .nameTooLong
    else .ok { place with names := place.names ++ [part] }

def place (s : Snapshot) (path : String) : Except FileError Place :=
  if pathLimit < path.utf8ByteSize then .error .nameTooLong
  else (path.splitOn "/").foldlM s.follow { base := if path.startsWith "/" then .root else .above 0 }

/-- Add an entry below the working directory. -/
def put (s : Snapshot) (path : String) (e : FileEntry) : Snapshot :=
  let names := (path.splitOn "/").filter fun part => part ≠ "" ∧ part ≠ "."
  { s with entries := ({ names }, e) :: s.entries }

def read (s : Snapshot) (path : String) : Except FileError ByteArray := do
  match s.at? (← s.place path) with
  | some (.file content) => .ok content
  | some .directory => .error .isDirectory
  | none => .error .noSuchFile

def isFile (s : Snapshot) (path : String) : Bool :=
  match s.read path with
  | .ok _ => true
  | .error _ => false

/-- Replace the content of a file, or create it in a directory that exists.  A path with a slash at
    its end is that of a directory. -/
def write (s : Snapshot) (path text : String) : Except FileError Snapshot := do
  let trimmed := (path.dropEndWhile '/').toString
  let place ← s.place (if trimmed = "" then path else trimmed)
  match s.at? place with
  | some .directory => .error .isDirectory
  | _ =>
    if path.endsWith "/" then .error .isDirectory
    else .ok { s with entries := (place, .file text.toUTF8) :: s.entries }

/-- The snapshot as the system around a run. -/
def host : Host (StateM Snapshot) where
  readFile path := return (← get).read path
  readStdin := return .ok (← get).stdin
  isFile path := return (← get).isFile path
  userSettings := return (← get).userSettings
  writeFile path text := do
    match (← get).write path text with
    | .ok after =>
      set after
      return .ok ()
    | .error e => return .error e

def run (s : Snapshot) (arguments : List String) : Report × Snapshot :=
  (Command.run host arguments).run s

end Snapshot

end SceneCode.Command
