import Flowsmith.Settings.Value
import Flowsmith.Text.Moment
import Flowsmith.Text.Utf8

/-!
# Numbers and dates in settings files

What a value that begins with a digit or a sign stands for, as lists of code points.

* `Toml.number?` : an integer in one of four bases, a decimal, an infinity or no number at all;
* `Toml.dayText?`, `Toml.clockText?`, `Toml.offsetText?` : the pieces of dates and times.
-/

namespace Flowsmith.Toml

open Settings (Value)

abbrev Runes := List Nat

def runes (s : String) : Runes := s.toList.map Char.toNat

theorem length_dropWhile_le (p : Nat → Bool) (cs : Runes) :
    (cs.dropWhile p).length ≤ cs.length :=
  (List.dropWhile_sublist p).length_le

def encode (cs : Runes) : Bytes := cs.flatMap Utf8.encode

def isSpace (c : Nat) : Bool := c == 0x20 || c == 0x09

def isDigit (c : Nat) : Bool := 0x30 ≤ c && c ≤ 0x39

def isLetter (c : Nat) : Bool := (0x61 ≤ c && c ≤ 0x7A) || (0x41 ≤ c && c ≤ 0x5A)

def isDigitOf (base c : Nat) : Bool := c < 0x80 && (Text.digitValue? base c.toUInt8).isSome

/-- The underscore, which divides long numbers. -/
abbrev line : Nat := 0x5F

/-! ## Integers and decimals -/

/-- Whether every underscore follows a digit of a base and something follows it; `before` says that
a digit is just before. -/
def linesFit (base : Nat) (before : Bool) : Runes → Bool
  | [] => true
  | c :: cs =>
    (c != line || (before && !cs.isEmpty)) && linesFit base (isDigitOf base c) cs

/-- The bytes of a number without its underscores. -/
def digitsOnly (cs : Runes) : Bytes := encode (cs.filter (· != line))

/-- The base that a letter after a zero stands for. -/
def base? (c : Nat) : Option Nat :=
  if c = 'x'.toNat then some 16
  else if c = 'o'.toNat then some 8
  else if c = 'b'.toNat then some 2
  else none

/-- The integer that the digits of a base write after a zero and a letter. -/
def based? (base : Nat) (digits : Runes) : Option Value :=
  if linesFit base false digits then
    match Text.digitsValue? base (digitsOnly digits) with
    | some n => if n < twoTo 64 then some (.whole n) else none
    | none => none
  else none

/-- The integer that a sign and decimal digits write. A zero begins no long number without a
sign. -/
def whole? (cs : Runes) : Option Value :=
  let text := digitsOnly cs
  let (negative, digits) := Text.unsigned text
  if !linesFit 10 false cs || (2 < text.length && text.head? == some '0'.toUInt8) then none
  else
    match Text.digitsValue? 10 digits with
    | some n =>
      if negative then (if n ≤ twoTo 63 then some (.whole (-(n : Int))) else none)
      else if n < twoTo 63 ∨ (digits.length = text.length ∧ n < twoTo 64) then some (.whole n)
      else none
    | none => none

def real? (cs : Runes) : Option Value :=
  if linesFit 10 false cs then (Text.decimal? (digitsOnly cs)).map .real else none

/-- A number as far as it goes: its text, whether it is a decimal, and the rest. `point` says that
the point was passed and `digit` that a digit was. -/
def numberText? (point decimal digit : Bool) (cs : Runes) : Option (Runes × Bool × Runes) :=
  match cs with
  | [] => if digit then some ([], decimal, []) else none
  | c :: cs =>
    if c = '.'.toNat then
      if point || !digit || !(cs.head?.any isDigit) then none
      else (numberText? true true digit cs).map fun (t, d, r) => (c :: t, d, r)
    else if c = 'e'.toNat ∨ c = 'E'.toNat then
      match cs with
      | s :: rest =>
        if s = '+'.toNat ∨ s = '-'.toNat then
          (numberText? point true digit rest).map fun (t, d, r) => (c :: s :: t, d, r)
        else (numberText? point true digit (s :: rest)).map fun (t, d, r) => (c :: t, d, r)
      | [] => none
    else if isDigit c then
      (numberText? point decimal true cs).map fun (t, d, r) => (c :: t, d, r)
    else if c = line then
      (numberText? point decimal digit cs).map fun (t, d, r) => (c :: t, d, r)
    else if digit then some ([], decimal, c :: cs)
    else none
termination_by cs.length

/-- The number that a text without a base begins with, after a sign. -/
def plainNumber? (sign cs : Runes) : Option (Value × Runes) :=
  match numberText? false false false cs with
  | some (text, decimal, rest) =>
    (if decimal then real? (sign ++ text) else whole? (sign ++ text)).map (·, rest)
  | none => none

def number? : Runes → Option (Value × Runes)
  | [] => none
  | c :: cs =>
    if c = '+'.toNat ∨ c = '-'.toNat then
      if (runes "inf").isPrefixOf cs then
        some (.real (.infinite (c == '-'.toNat)), cs.drop 3)
      else if (runes "nan").isPrefixOf cs then some (.real .invalid, cs.drop 3)
      else plainNumber? [c] cs
    else if c = '0'.toNat then
      match cs with
      | [] => plainNumber? [] [c]
      | mark :: rest =>
        match base? mark with
        | some base =>
          let inNumber := fun d => d == line || isDigitOf base d
          (based? base (rest.takeWhile inNumber)).map (·, rest.dropWhile inNumber)
        | none => if isLetter mark then none else plainNumber? [] (c :: mark :: rest)
    else plainNumber? [] (c :: cs)

/-! ## Dates and times -/

/-- The code points of a text that follow a shape, in which a zero stands for any digit, and the
rest. -/
def shaped? : Runes → Runes → Option (Runes × Runes)
  | [], cs => some ([], cs)
  | _ :: _, [] => none
  | s :: shape, c :: cs =>
    if s = c ∨ (s = '0'.toNat ∧ isDigit c) then
      (shaped? shape cs).map fun (text, rest) => (c :: text, rest)
    else none

def dayText? (cs : Runes) : Option (Runes × Runes) := shaped? (runes "0000-00-00") cs

def clockText? (cs : Runes) : Option (Runes × Runes) :=
  match shaped? (runes "00:00:00") cs with
  | some (text, c :: rest) =>
    if c = '.'.toNat then
      if rest.head?.any isDigit then
        some (text ++ c :: rest.takeWhile isDigit, rest.dropWhile isDigit)
      else none
    else some (text, c :: rest)
  | result => result

/-- The text of the distance of a time zone, which may be missing, and the rest. -/
def offsetText? : Runes → Option (Option Runes × Runes)
  | [] => some (none, [])
  | c :: cs =>
    if c = 'Z'.toNat then some (some [c], cs)
    else if c = '+'.toNat ∨ c = '-'.toNat then
      (shaped? (runes "00:00") cs).map fun (text, rest) => (some (c :: text), rest)
    else some (none, c :: cs)

end Flowsmith.Toml
