import Flowsmith.Text.Double

/-!
# Numerals

Numbers as texts write them.

* `Text.integer?` : an integer with a sign, its base told by how its digits begin;
* `Text.magnitude?` : the same without a sign;
* `Text.decimal?` : a decimal number with a point or an exponent, as the nearest double;
* `Text.truth?` : a truth value.
-/

namespace Flowsmith.Text

/-! ## Integers -/

def digitValue? (base : Nat) (c : UInt8) : Option Nat :=
  let n :=
    if Bytes.isDigitByte c then c.toNat - 0x30
    else if Bytes.isLetterByte c then (Bytes.lowerByte c).toNat - 0x57
    else 99
  if n < base then some n else none

/-- The number that digits of a base write; one digit at least, and underscores are passed over. -/
def digitsValue? (base : Nat) (s : Bytes) : Option Nat :=
  let ds := s.filter (· != '_'.toUInt8)
  if ds.isEmpty then none
  else ds.foldl (fun acc c => do return (← acc) * base + (← digitValue? base c)) (some 0)

/-- Whether underscores stand only between digits, or between a base mark and a digit; `ok` says
that one may stand at the beginning. -/
def underscoresFit (ok : Bool) : Bytes → Bool
  | [] => true
  | [c] => c != '_'.toUInt8
  | c :: s => if c = '_'.toUInt8 then ok && underscoresFit false s else underscoresFit true s

/-- The magnitude of an integer, its base told by how it begins. -/
def magnitude? (s : Bytes) : Option Nat :=
  match s with
  | 0x30 :: mark :: rest =>
    let c := Bytes.lowerByte mark
    let based := fun base => if underscoresFit true rest then digitsValue? base rest else none
    if c = 'x'.toUInt8 then based 16
    else if c = 'o'.toUInt8 then based 8
    else if c = 'b'.toUInt8 then based 2
    else if underscoresFit true (mark :: rest) then digitsValue? 8 (mark :: rest) else none
  | s => if underscoresFit false s then digitsValue? 10 s else none

/-- The 64-bit integer that a sign and a magnitude write. -/
def signed? (magnitude? : Bytes → Option Nat) (s : Bytes) : Option Int :=
  let bounded := fun n : Int => if -twoTo 63 ≤ n ∧ n < twoTo 63 then some n else none
  match s with
  | 0x2D :: rest => (magnitude? rest).bind fun n => bounded (-(n : Int))
  | 0x2B :: rest => (magnitude? rest).bind fun n => bounded n
  | s => (magnitude? s).bind fun n => bounded n

def integer? (s : Bytes) : Option Int := signed? magnitude? s

/-! ## Decimals -/

/-- The digits at the beginning of a text, and the rest. -/
def leadingDigits (s : Bytes) : Bytes × Bytes :=
  (s.takeWhile Bytes.isDigitByte, s.dropWhile Bytes.isDigitByte)

/-- A text without its sign, and whether that was a minus. -/
def unsigned : Bytes → Bool × Bytes
  | 0x2D :: rest => (true, rest)
  | 0x2B :: rest => (false, rest)
  | s => (false, s)

/-- The exponent that a text is, zero when it is empty. -/
def exponent? : Bytes → Option Int
  | [] => some 0
  | mark :: s =>
    if Bytes.lowerByte mark = 'e'.toUInt8 then
      let (negative, ds) := unsigned s
      if ds.all Bytes.isDigitByte then
        (digitsValue? 10 ds).map fun n => if negative then -(n : Int) else n
      else none
    else none

def fraction : Bytes → Bytes × Bytes
  | 0x2E :: s => leadingDigits s
  | s => ([], s)

/-- The double nearest to the decimal number that a text writes; none when it is too large for
one. -/
def decimal? (s : Bytes) : Option Double :=
  let (negative, body) := unsigned s
  let (whole, rest) := leadingDigits body
  let (part, rest) := fraction rest
  match digitsValue? 10 (whole ++ part), exponent? rest with
  | some digits, some e =>
    match Double.ofDecimal negative digits (e - part.length) with
    | .infinite _ => none
    | x => some x
  | _, _ => none

/-! ## Truth values -/

def truth? (s : Bytes) : Option Bool :=
  if (["1", "t", "T", "TRUE", "true", "True"] : List Bytes).contains s then some true
  else if (["0", "f", "F", "FALSE", "false", "False"] : List Bytes).contains s then some false
  else none

end Flowsmith.Text
