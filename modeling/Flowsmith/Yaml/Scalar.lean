import Flowsmith.Text.Moment

/-!
# YAML scalars

What a scalar without quotes stands for: nothing, a truth value, a number, a date, or the text that
it is.

* `Yaml.resolve` : what a plain scalar stands for;
* `Yaml.isOldNumber`, `Yaml.isOldTruth` : the plain scalars that only older readers take for
  something else.
-/

namespace Flowsmith.Yaml

/-- What a plain scalar stands for. -/
inductive Meaning where
  | null
  | truth (b : Bool)
  | whole (n : Int)
  | real (x : Double)
  | moment
  | text
  deriving DecidableEq, Repr

def words : List (String × Meaning) :=
  [("true", .truth true), ("True", .truth true), ("TRUE", .truth true),
   ("false", .truth false), ("False", .truth false), ("FALSE", .truth false),
   ("", .null), ("~", .null), ("null", .null), ("Null", .null), ("NULL", .null),
   (".nan", .real .invalid), (".NaN", .real .invalid), (".NAN", .real .invalid),
   (".inf", .real (.infinite false)), (".Inf", .real (.infinite false)),
   (".INF", .real (.infinite false)), ("+.inf", .real (.infinite false)),
   ("+.Inf", .real (.infinite false)), ("+.INF", .real (.infinite false)),
   ("-.inf", .real (.infinite true)), ("-.Inf", .real (.infinite true)),
   ("-.INF", .real (.infinite true))]

/-- The number that a text in digits of a base writes after a mark, with a minus before the mark. -/
def marked? (mark : Bytes) (base : Nat) (s : Bytes) : Option Int :=
  match Bytes.dropStart? s mark, Bytes.dropStart? s (0x2D :: mark) with
  | some rest, _ => (Text.digitsValue? base rest).map Int.ofNat
  | none, some rest => (Text.digitsValue? base rest).map fun n => -(n : Int)
  | none, none => none

/-- The integer that a text without underscores writes, with a sign or without one. -/
def whole? (s : Bytes) : Option Int :=
  match Text.integer? s with
  | some n => some n
  | none =>
    match Text.magnitude? s with
    | some n => if n < twoTo 64 then some n else none
    | none => none

/-- What a text that begins with a digit or a sign stands for. -/
def number (s : Bytes) : Meaning :=
  if Text.isTimestamp s then .moment
  else
    let plain := s.filter (· != '_'.toUInt8)
    match whole? plain, Text.decimal? plain with
    | some n, _ => .whole n
    | none, some x => .real x
    | none, none =>
      match marked? "0b" 2 plain, marked? "0o" 8 plain with
      | some n, _ => .whole n
      | none, some n => .whole n
      | none, none => .text

/-- What a text that begins with a point stands for. -/
def fraction (s : Bytes) : Meaning :=
  if Text.underscoresFit false s then
    match Text.decimal? (s.filter (· != '_'.toUInt8)) with
    | some x => .real x
    | none => .text
  else .text

def resolve (s : Bytes) : Meaning :=
  match words.find? fun w => Bytes.ofString w.1 == s with
  | some w => w.2
  | none =>
    match s with
    | [] => .text
    | c :: _ =>
      if c = '.'.toUInt8 then fraction s
      else if c = '+'.toUInt8 || c = '-'.toUInt8 || Bytes.isDigitByte c then number s
      else .text

/-- The words that older readers take for truth values. -/
def oldTruths : List Bytes :=
  ["y", "Y", "yes", "Yes", "YES", "on", "On", "ON", "n", "N", "no", "No", "NO", "off", "Off", "OFF"]

/-- Whether older readers take a text for a truth value. -/
def isOldTruth (s : Bytes) : Bool := oldTruths.contains s

/-- Whether a text is a number from 0 to 59 in one or two digits. -/
def isSixtieth : Bytes → Bool
  | [a] => Bytes.isDigitByte a
  | [a, b] => 0x30 ≤ a && a ≤ 0x35 && Bytes.isDigitByte b
  | _ => false

def isDigitOrLine (c : UInt8) : Bool := Bytes.isDigitByte c || c == '_'.toUInt8

/-- Whether a text is a number from 0 to 59, with a part after a point or without one. -/
def isLastSixtieth (s : Bytes) : Bool :=
  match Bytes.cut? s "." with
  | some (whole, part) => isSixtieth whole && part.all isDigitOrLine
  | none => isSixtieth s

/-- Whether the parts after the first colon are numbers to the base of sixty. -/
def areSixtieths : List Bytes → Bool
  | [] => false
  | [last] => isLastSixtieth last
  | part :: parts => isSixtieth part && areSixtieths parts

/-- Whether older readers take a text for a number to the base of sixty. -/
def isOldNumber (s : Bytes) : Bool :=
  match Bytes.splitOn ':'.toUInt8 (Text.unsigned s).2 with
  | [] => false
  | first :: rest =>
    (match first with
      | [] => false
      | c :: cs => Bytes.isDigitByte c && cs.all isDigitOrLine) && areSixtieths rest

end Flowsmith.Yaml
