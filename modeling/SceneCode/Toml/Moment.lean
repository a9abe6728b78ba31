import SceneCode.Text.Decimal
import SceneCode.Toml.Reading

/-!
# Dates and times in settings files

A date has a day that exists in its month.  A time has hours, minutes and seconds, of which there
may be sixty, and possibly a fraction.  A date and a time stand together with a `T` or a blank
between them, and may have an offset behind them.
-/

namespace SceneCode.Toml.Reading

/-- Take a number with exactly `count` digits. -/
def fixed (count : Nat) : Reading Nat := do
  let ds ← times count (one Char.isDigit)
  return ds.foldl (fun n c => n * 10 + (Text.digitValue? c).getD 0) 0

/-- Take a number of two digits within bounds. -/
def within (least greatest : Nat) : Reading Nat := do
  let n ← fixed 2
  if least ≤ n ∧ n ≤ greatest then return n else refuse

def isLeap (year : Nat) : Bool :=
  year % 4 = 0 && (year % 100 ≠ 0 || year % 400 = 0)

def daysIn (year month : Nat) : Nat :=
  if month = 2 then (if isLeap year then 29 else 28)
  else if month = 4 ∨ month = 6 ∨ month = 9 ∨ month = 11 then 30
  else 31

def date : Reading Unit := do
  let year ← fixed 4
  exactly ['-']
  let month ← within 1 12
  exactly ['-']
  let _ ← within 1 (daysIn year month)

def time : Reading Unit := do
  let _ ← within 0 23
  exactly [':']
  let _ ← within 0 59
  exactly [':']
  let _ ← within 0 60
  let _ ← optional do
    exactly ['.']
    let _ ← one Char.isDigit
    takeWhile Char.isDigit

/-- Take an offset from universal time. -/
def offset : Reading Unit :=
  either (do let _ ← one fun c => c = 'Z' || c = 'z') do
    let _ ← one fun c => c = '+' || c = '-'
    let _ ← within 0 23
    exactly [':']
    let _ ← within 0 59

/-- Take a date, a time, or both. -/
def moment : Reading Unit :=
  either
    (do
      date
      let _ ← optional do
        let _ ← one fun c => c = 'T' || c = 't' || c = ' '
        time
        optional offset)
    time

end SceneCode.Toml.Reading
