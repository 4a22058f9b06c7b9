import Flowsmith.Text.Category
import Flowsmith.Text.Power
import Flowsmith.Text.Utf8

/-!
# Quoted text

A text between double quotes in which a reader can tell every byte: the quote and the backslash are
escaped, printable characters stand for themselves, the usual control characters have their letters,
and all else is written by number.
-/

namespace Flowsmith.Text

def hexDigit (n : Nat) : UInt8 := if n < 10 then (0x30 + n).toUInt8 else (0x57 + n).toUInt8

/-- The last `width` hexadecimal digits of a number. -/
def hex (width n : Nat) : Bytes :=
  (List.range width).reverse.map fun i => hexDigit (n / twoTo (4 * i) % 16)

/-- The letter that names a control character after a backslash. -/
def controlLetter? (n : Nat) : Option UInt8 :=
  match n with
  | 0x07 => some 'a'.toUInt8
  | 0x08 => some 'b'.toUInt8
  | 0x0C => some 'f'.toUInt8
  | 0x0A => some 'n'.toUInt8
  | 0x0D => some 'r'.toUInt8
  | 0x09 => some 't'.toUInt8
  | 0x0B => some 'v'.toUInt8
  | _ => none

/-- One code point inside quotes; `raw` are the bytes it was read from. -/
def quoteRune (n : Nat) (raw : Bytes) : Bytes :=
  match raw with
  | [b] =>
    if 0x80 ≤ b then ("\\x" : Bytes) ++ hex 2 b.toNat
    else if b = 0x22 || b = 0x5C then [0x5C, b]
    else if isPrintable n then raw
    else match controlLetter? n with
      | some c => [0x5C, c]
      | none => ("\\x" : Bytes) ++ hex 2 n
  | _ =>
    if isPrintable n then raw
    else if n < 0x10000 then ("\\u" : Bytes) ++ hex 4 n
    else ("\\U" : Bytes) ++ hex 8 n

def quoted (s : Bytes) : Bytes :=
  [0x22] ++ (Utf8.runes s).flatMap (fun r => quoteRune r.1 r.2) ++ [0x22]

end Flowsmith.Text
