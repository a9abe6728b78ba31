import SceneCode.Json.Numeral

/-!
# Reading JSON text

The reader is a machine that takes one character at a time.  Its state says what may come next and
holds the containers that are still open, innermost first.  A text that the machine refuses is
malformed at the refused character, whatever follows; a text that the machine takes to its end
without completing a value is unfinished.  So the kind of the error is decided by the first
problem from the left.

The text is strict JSON: blanks are space, tab, line feed and carriage return, a surrogate escape
must be paired, and of two fields of one name the later wins.
-/

namespace SceneCode.Json

/-- A container that waits for one of its values. -/
inductive Open where
  /-- An array, with its items so far, last first. -/
  | array (done : List Json)
  /-- An object that waits for the value of the field `name`. -/
  | object (done : List (String × Json)) (name : String)

/-- Where the reader is inside a string. -/
inductive Inside where
  /-- Among plain characters. -/
  | plain
  /-- After a backslash. -/
  | escape
  /-- Among the four bytes of a numbered escape: how many have been taken, and the number that
      they spell, unless one of them is no hexadecimal digit.  `high` is the leading half of a
      surrogate pair whose trailing half this is. -/
  | code (high : Option Nat) (taken : Nat) (spelled : Option Nat)
  /-- After the leading half of a surrogate pair. -/
  | afterHigh (high : Nat)
  /-- After the backslash that follows the leading half of a surrogate pair. -/
  | escapeAfterHigh (high : Nat)
deriving DecidableEq, Repr

/-- What a string is read for. -/
inductive Role where
  | value (outer : List Open)
  | fieldName (done : List (String × Json)) (outer : List Open)

/-- What may come next. -/
inductive State where
  /-- A value. -/
  | value (outer : List Open)
  /-- The first item of an array, or its end. -/
  | firstItem (outer : List Open)
  /-- A comma, or the end of an array. -/
  | afterItem (done : List Json) (outer : List Open)
  /-- The name of the first field of an object, or its end. -/
  | firstName (outer : List Open)
  /-- The name of a further field of an object. -/
  | nextName (done : List (String × Json)) (outer : List Open)
  /-- The colon after a name. -/
  | colon (done : List (String × Json)) (name : String) (outer : List Open)
  /-- A comma, or the end of an object. -/
  | afterField (done : List (String × Json)) (outer : List Open)
  /-- The character `next`, then `rest`, of a word that stands for `value`. -/
  | word (next : Char) (rest : List Char) (value : Json) (outer : List Open)
  /-- More of a string, whose characters so far are given last first. -/
  | string (role : Role) (done : List Char) (inside : Inside)
  /-- More of a numeral. -/
  | numeral (n : Numeral) (outer : List Open)
  /-- Blanks after the whole value. -/
  | complete (value : Json)

def isBlank (c : Char) : Bool :=
  c = ' ' || c = '\t' || c = '\n' || c = '\r'

/-- Give a complete value to the container that waits for it. -/
def deliver (v : Json) : List Open → State
  | [] => .complete v
  | .array done :: outer => .afterItem (v :: done) outer
  | .object done name :: outer => .afterField (insertField name v done) outer

/-- Whether another container may be opened inside the given ones. -/
def mayOpen (limit : Option Nat) (outer : List Open) : Bool :=
  match limit with
  | none => true
  | some most => decide (outer.length < most)

def startValue? (limit : Option Nat) (outer : List Open) (c : Char) : Option State :=
  match c with
  | '[' => if mayOpen limit outer then some (.firstItem outer) else none
  | '\x7b' => if mayOpen limit outer then some (.firstName outer) else none
  | '"' => some (.string (.value outer) [] .plain)
  | 'n' => some (.word 'u' ['l', 'l'] .null outer)
  | 't' => some (.word 'r' ['u', 'e'] (.bool true) outer)
  | 'f' => some (.word 'a' ['l', 's', 'e'] (.bool false) outer)
  | '-' => some (.numeral .minus outer)
  | c => (Numeral.start? false c).map fun n => .numeral n outer

def escaped? (c : Char) : Option Char :=
  match c with
  | '"' => some '"'
  | '\\' => some '\\'
  | '/' => some '/'
  | 'b' => some '\x08'
  | 'f' => some '\x0c'
  | 'n' => some '\n'
  | 'r' => some '\r'
  | 't' => some '\t'
  | _ => none

/-- The result of a complete numbered escape: a character, or the wait for the other half of a
    surrogate pair. -/
def codeUnit? (high : Option Nat) (unit : Nat) (done : List Char) : Option (List Char × Inside) :=
  let trailing := 0xDC00 ≤ unit ∧ unit ≤ 0xDFFF
  match high with
  | some high =>
    if trailing then
      some (Char.ofNat ((high - 0xD800) * 0x400 + (unit - 0xDC00) + 0x10000) :: done, .plain)
    else none
  | none =>
    if trailing then none
    else if 0xD800 ≤ unit ∧ unit ≤ 0xDBFF then some (done, .afterHigh unit)
    else some (Char.ofNat unit :: done, .plain)

/-- One of the four bytes of a numbered escape.  A character that takes several bytes counts as
    that many, and spells no number. -/
def codeByte? (high : Option Nat) (taken : Nat) (spelled : Option Nat) (done : List Char)
    (c : Char) : Option (List Char × Inside) :=
  let taken := taken + c.utf8Size
  let spelled := do return (← spelled) * 16 + (← Text.hexDigitValue? c)
  if taken < 4 then some (done, .code high taken spelled)
  else match spelled with
    | some unit => codeUnit? high unit done
    | none => none

/-- The next character of a string, except the closing quote. -/
def insideString? (done : List Char) (inside : Inside) (c : Char) : Option (List Char × Inside) :=
  match inside with
  | .plain =>
    if c = '\\' then some (done, .escape)
    else if c.toNat < 0x20 then none
    else some (c :: done, .plain)
  | .escape =>
    if c = 'u' then some (done, .code none 0 (some 0))
    else (escaped? c).map fun e => (e :: done, .plain)
  | .code high taken spelled => codeByte? high taken spelled done c
  | .afterHigh high => if c = '\\' then some (done, .escapeAfterHigh high) else none
  | .escapeAfterHigh high => if c = 'u' then some (done, .code (some high) 0 (some 0)) else none

def closeString (role : Role) (text : String) : State :=
  match role with
  | .value outer => deliver (.str text) outer
  | .fieldName done outer => .colon done text outer

/-- The end of an array or a comma in it. -/
def afterItem? (done : List Json) (outer : List Open) (c : Char) : Option State :=
  if isBlank c then some (.afterItem done outer)
  else if c = ',' then some (.value (.array done :: outer))
  else if c = ']' then some (deliver (.arr done.reverse) outer)
  else none

/-- The end of an object or a comma in it. -/
def afterField? (done : List (String × Json)) (outer : List Open) (c : Char) : Option State :=
  if isBlank c then some (.afterField done outer)
  else if c = ',' then some (.nextName done outer)
  else if c = '\x7d' then some (deliver (.obj done) outer)
  else none

def afterValue? (s : State) (c : Char) : Option State :=
  match s with
  | .afterItem done outer => afterItem? done outer c
  | .afterField done outer => afterField? done outer c
  | s => if isBlank c then some s else none

/-- Take one character; nothing when no value continues so. -/
def step? (limit : Option Nat) (s : State) (c : Char) : Option State :=
  match s with
  | .value outer => if isBlank c then some s else startValue? limit outer c
  | .firstItem outer =>
    if isBlank c then some s
    else if c = ']' then some (deliver (.arr []) outer)
    else startValue? limit (.array [] :: outer) c
  | .afterItem done outer => afterItem? done outer c
  | .firstName outer =>
    if isBlank c then some s
    else if c = '\x7d' then some (deliver (.obj []) outer)
    else if c = '"' then some (.string (.fieldName [] outer) [] .plain)
    else none
  | .nextName done outer =>
    if isBlank c then some s
    else if c = '"' then some (.string (.fieldName done outer) [] .plain)
    else none
  | .colon done name outer =>
    if isBlank c then some s
    else if c = ':' then some (.value (.object done name :: outer))
    else none
  | .afterField done outer => afterField? done outer c
  | .word next rest value outer =>
    if c = next then
      match rest with
      | [] => some (deliver value outer)
      | following :: rest => some (.word following rest value outer)
    else none
  | .string role done inside =>
    if inside = .plain ∧ c = '"' then some (closeString role (String.ofList done.reverse))
    else (insideString? done inside c).map fun (done, inside) => .string role done inside
  | .numeral n outer =>
    match n.step c with
    | .more n => some (.numeral n outer)
    | .refused => none
    | .ends => match n.value with
      | .ok v => afterValue? (deliver (.num v) outer) c
      | .error _ => none
  | .complete _ => if isBlank c then some s else none

/-- Take the characters of a text one after the other. -/
def run (limit : Option Nat) : State → List Char → Except ReadError State
  | s, [] => .ok s
  | s, c :: rest =>
    match step? limit s c with
    | some next => run limit next rest
    | none => .error .malformed

/-- The value that has been read when the text ends.  A numeral ends with the text, and its value
    comes before the question what it was written inside. -/
def finish (s : State) : Except ReadError Json :=
  match s with
  | .complete v => .ok v
  | .numeral n outer => do
    let v ← n.value
    match outer with
    | [] => .ok (.num v)
    | _ => .error .unfinished
  | _ => .error .unfinished

/-- Read a text that is one value.  `limit` is the greatest number of containers that may be open
    at once; opening one more is refused at that character. -/
def read (limit : Option Nat) (text : String) : Except ReadError Json := do
  finish (← run limit (.value []) text.toList)

end SceneCode.Json
