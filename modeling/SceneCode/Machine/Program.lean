import SceneCode.Machine.Word

/-!
# Compiled programs

A program is its code and the addresses of its two entry points: the function that sets a scene
up and the function that draws it.  A program file is a JSON object with three fields.
-/

namespace SceneCode

/-- A compiled program. -/
structure Program where
  code : List Word
  /-- Where the function `init` starts. -/
  init : Option Address
  /-- Where the function `render` starts. -/
  render : Option Address
deriving DecidableEq, Repr

namespace Program

def entryText : Option Address → String
  | some a => Text.decimal a
  | none => "null"

def wordsJson (style : JsonText.Style) (depth : Nat) (words : List Word) : String :=
  JsonText.array style depth (words.map fun w => w.scalar.text)

def json (style : JsonText.Style) (p : Program) : String :=
  JsonText.object style 0
    [("code", wordsJson style 1 p.code),
     ("initAddr", entryText p.init),
     ("renderAddr", entryText p.render)]

end Program

end SceneCode
