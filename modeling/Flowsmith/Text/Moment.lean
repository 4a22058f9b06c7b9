import Flowsmith.Text.Numeral

/-!
# Dates and times

Which texts name a day, a time of day or a point in time.

* `Text.day?` : the rest after a day of the calendar, written year, month, day;
* `Text.clock?` : the rest after a time of day;
* `Text.offset?` : the rest after the distance of a time zone;
* `Text.isTimestamp` : a whole text that names a day or a point in time.
-/

namespace Flowsmith.Text

def after? (mark : UInt8) : Bytes → Option Bytes
  | c :: s => if c = mark then some s else none
  | [] => none

def digit (c : UInt8) : Nat := c.toNat - 0x30

def shortNumber? : Bytes → Option (Nat × Bytes)
  | a :: b :: s =>
    if Bytes.isDigitByte a then
      if Bytes.isDigitByte b then some (digit a * 10 + digit b, s) else some (digit a, b :: s)
    else none
  | [a] => if Bytes.isDigitByte a then some (digit a, []) else none
  | [] => none

def isLeap (year : Nat) : Bool := year % 4 == 0 && (year % 100 != 0 || year % 400 == 0)

def daysIn (year month : Nat) : Nat :=
  if month = 2 then (if isLeap year then 29 else 28)
  else if month = 4 ∨ month = 6 ∨ month = 9 ∨ month = 11 then 30
  else 31

/-- The rest after a day: four digits of the year, the month and the day, with dashes between
them. -/
def day? (s : Bytes) : Option Bytes := do
  let year ← if (s.take 4).all Bytes.isDigitByte then digitsValue? 10 (s.take 4) else none
  let (month, s) ← shortNumber? (← after? '-'.toUInt8 (s.drop 4))
  let (day, s) ← shortNumber? (← after? '-'.toUInt8 s)
  if 1 ≤ month ∧ month ≤ 12 ∧ 1 ≤ day ∧ day ≤ daysIn year month then some s else none

/-- The rest after a part of a second, which may be missing. -/
def partOfSecond : Bytes → Bytes
  | mark :: c :: s =>
    if (mark = '.'.toUInt8 ∨ mark = ','.toUInt8) ∧ Bytes.isDigitByte c then
      s.dropWhile Bytes.isDigitByte
    else mark :: c :: s
  | s => s

/-- The rest after a time of day: hour, minute and second with colons between them. -/
def clock? (s : Bytes) : Option Bytes := do
  let (hour, s) ← shortNumber? s
  let (minute, s) ← shortNumber? (← after? ':'.toUInt8 s)
  let (second, s) ← shortNumber? (← after? ':'.toUInt8 s)
  if hour < 24 ∧ minute < 60 ∧ second < 60 then some (partOfSecond s) else none

/-- The rest after the distance of a time zone: `Z`, or a sign with two digits of hours and minutes
each. -/
def offset? : Bytes → Option Bytes
  | [] => none
  | c :: s =>
    if c = 'Z'.toUInt8 then some s
    else if c = '+'.toUInt8 ∨ c = '-'.toUInt8 then
      match s with
      | a :: b :: colon :: d :: e :: rest =>
        if [a, b, d, e].all Bytes.isDigitByte ∧ colon = ':'.toUInt8
            ∧ digit a * 10 + digit b ≤ 24 ∧ digit d * 10 + digit e ≤ 60 then some rest
        else none
      | _ => none
    else none

/-- Whether the rest of a text, after a day, goes on with a time of day. -/
def isTimeAfterDay : Bytes → Bool
  | [] => true
  | c :: s =>
    if c = 'T'.toUInt8 ∨ c = 't'.toUInt8 then ((clock? s).bind offset?) == some []
    else if c = 0x20 then clock? (s.dropWhile (· == 0x20)) == some []
    else false

/-- Whether a text names a day or a point in time. -/
def isTimestamp (s : Bytes) : Bool :=
  match day? s with
  | some rest => isTimeAfterDay rest
  | none => false

end Flowsmith.Text
