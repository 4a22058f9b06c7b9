import Flowsmith.Text.Bytes
import Flowsmith.Text.Power

/-!
# Double-precision numbers

Reading a decimal as the nearest binary number of 53 digits, and writing such a number with the
fewest decimal digits that read back as it. All arithmetic is exact.

* `Double.ofDecimal` : the nearest double, a tie going to the even neighbour;
* `Double.shortest` : the fewest digits, and of those the nearest;
* `Double.positional` : the digits written out without an exponent;
* `Double.truncate` : the integer part as a 64-bit integer.
-/

namespace Flowsmith

/-- A double-precision number: `mantissa * 2 ^ exponent` with a sign, or no finite number. -/
inductive Double where
  | finite (negative : Bool) (mantissa : Nat) (exponent : Int)
  | infinite (negative : Bool)
  | invalid
  deriving DecidableEq, Repr

namespace Double

/-- `num / den` to the nearest integer, a tie to the even one. -/
def roundDiv (num den : Nat) : Nat :=
  let q := num / den
  let r := num % den
  if 2 * r < den then q else if den < 2 * r then q + 1 else if q % 2 = 0 then q else q + 1

/-- `num / den * 2 ^ (-q)` as a fraction. -/
def scaled (num den : Nat) (q : Int) : Nat × Nat :=
  if 0 ≤ q then (num, den * twoTo q.toNat) else (num * twoTo (-q).toNat, den)

/-- The exponent that leaves 53 binary digits before the point, and never less than the least
one. -/
def exponentFor (num den : Nat) : Int :=
  let guess : Int := (num.log2 : Int) - den.log2 - 52
  let s := scaled num den guess
  max (-1074) (if s.1 < s.2 * twoTo 52 then guess - 1 else guess)

/-- The double nearest to the fraction `num / den`. -/
def ofFraction (negative : Bool) (num den : Nat) : Double :=
  if num = 0 then .finite negative 0 0
  else
    let q := exponentFor num den
    let s := scaled num den q
    let m := roundDiv s.1 s.2
    let carried := m = twoTo 53
    let q' := if carried then q + 1 else q
    let m' := if carried then twoTo 52 else m
    if 971 < q' then .infinite negative else .finite negative m' q'

/-- The double nearest to `digits * 10 ^ exponent`. -/
def ofDecimal (negative : Bool) (digits : Nat) (exponent : Int) : Double :=
  if digits = 0 then .finite negative 0 0
  else if 310 < exponent then .infinite negative
  else if exponent < -((Nat.toDigits 10 digits).length + 330 : Int) then .finite negative 0 0
  else if 0 ≤ exponent then ofFraction negative (digits * tenTo exponent.toNat) 1
  else ofFraction negative digits (tenTo (-exponent).toNat)

def isZero : Double → Bool
  | .finite _ m _ => m == 0
  | _ => false

/-- The integer part, in the range of 64-bit integers; the least of them for what is out of
range. -/
def truncate : Double → Int
  | .finite negative m q =>
    let n : Nat := if 0 ≤ q then m * twoTo q.toNat else m / twoTo (-q).toNat
    let n : Int := if negative then -n else n
    if -twoTo 63 ≤ n ∧ n < twoTo 63 then n else -twoTo 63
  | _ => -twoTo 63

/-- Four times the number and the two ends of the interval of reals that read back as it, over a
common denominator. -/
def interval (m : Nat) (q : Int) : Nat × Nat × Nat × Nat :=
  let low := if m = twoTo 52 ∧ -1074 < q then 4 * m - 1 else 4 * m - 2
  let up := if 0 ≤ q then twoTo q.toNat else 1
  let den := if 0 ≤ q then 4 else 4 * twoTo (-q).toNat
  (4 * m * up, low * up, (4 * m + 2) * up, den)

/-- Tries the grids of `10 ^ p`, `10 ^ (p - 1)`, …, `tries` of them, for a point that reads back. -/
def shortestFrom (v low high den : Nat) (closed : Bool) (p : Int) : Nat → Nat × Int
  | 0 => (0, 0)
  | tries + 1 =>
    let unit := if 0 ≤ p then tenTo p.toNat else 1
    let scale := if 0 ≤ p then 1 else tenTo (-p).toNat
    let down := v * scale / (den * unit)
    let inRange := fun n : Nat =>
      let x := n * unit * den
      if closed then low * scale ≤ x && x ≤ high * scale
      else low * scale < x && x < high * scale
    let gap := v * scale - down * unit * den
    let preferDown := 2 * gap ≤ unit * den
    if inRange down && (preferDown || !inRange (down + 1)) && down != 0 then (down, p)
    else if inRange (down + 1) then (down + 1, p)
    else shortestFrom v low high den closed (p - 1) tries

/-- The digits and the decimal exponent of the shortest decimal that reads back as `m * 2 ^ q`. -/
def shortest (m : Nat) (q : Int) : Nat × Int :=
  if m = 0 then (0, 0)
  else
    let (v, low, high, den) := interval m q
    let top : Int :=
      if den ≤ v then (Nat.toDigits 10 (v / den)).length
      else 1 - (Nat.toDigits 10 (den / v)).length
    shortestFrom v low high den (m % 2 == 0) top 40

/-- The shortest digits written out, without an exponent. -/
def positional : Double → Bytes
  | .finite negative m q =>
    let (digits, p) := shortest m q
    let sign : Bytes := if negative then "-" else ""
    if 0 ≤ p then sign ++ Bytes.natural (digits * tenTo p.toNat)
    else
      let k := (-p).toNat
      let ds := Nat.toDigits 10 digits
      let padded := List.replicate (k + 1 - ds.length) '0' ++ ds
      let whole := padded.take (padded.length - k)
      let part := ((padded.drop (padded.length - k)).reverse.dropWhile (· == '0')).reverse
      sign ++ Bytes.ofString (String.ofList whole)
        ++ (if part.isEmpty then [] else ("." : Bytes) ++ Bytes.ofString (String.ofList part))
  | .infinite negative => if negative then "-Inf" else "+Inf"
  | .invalid => "NaN"

end Double

end Flowsmith
