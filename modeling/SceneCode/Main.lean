import SceneCode.Command.Run

/-!
# The command

The real files, standard input and output around a run.
-/

namespace SceneCode.Command

/-- Why the system refused a file. -/
def fileError : IO.Error → FileError
  | .noFileOrDirectory .. => .noSuchFile
  | .inappropriateType _ code _ => if code = 20 then .notDirectory else .isDirectory
  | e => .other (toString e)

/-- The result of something that the system may refuse. -/
def attempt {α : Type} (x : IO α) : IO (Except FileError α) := do
  match ← x.toBaseIO with
  | .ok a => return .ok a
  | .error e => return .error (fileError e)

/-- Everything that is left on a stream. -/
partial def readAll (input : IO.FS.Stream) (done : ByteArray) : IO ByteArray := do
  let more ← input.read 65536
  if more.isEmpty then return done else readAll input (done ++ more)

def userSettingsPath : IO (Option String) := do
  let directory ← match ← IO.getEnv "XDG_CONFIG_HOME" with
    | some directory => pure (some directory)
    | none => pure ((← IO.getEnv "HOME").map (· ++ "/.config"))
  return directory.map (· ++ "/sketch/" ++ settingsFile)

def systemHost : Host IO where
  readFile path := attempt (IO.FS.readBinFile path)
  readStdin := attempt do readAll (← IO.getStdin) .empty
  isFile path := do
    match ← attempt (IO.FS.readBinFile path) with
    | .error .noSuchFile | .error .notDirectory | .error .isDirectory => return false
    | _ => return true
  userSettings := userSettingsPath
  writeFile path text := attempt (IO.FS.writeFile path text)

end SceneCode.Command

open SceneCode Command in
/-- Compile a tree to a program. -/
def main (arguments : List String) : IO UInt32 := do
  let report ← Command.run systemHost arguments
  for event in report.log do
    IO.eprintln event.text
  IO.eprint report.stderr
  IO.print report.stdout
  return UInt32.ofNat report.exit
