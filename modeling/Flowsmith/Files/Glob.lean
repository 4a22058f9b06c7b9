import Flowsmith.Text.Utf8
import Flowsmith.Files.Path

/-!
# File name patterns

A pattern is a list of parts: a star for any run of bytes, a question mark for one character, a
class of characters in brackets, and everything else for itself. Neither star nor question mark
stands for a slash.

* `Glob.parse?` : the parts of a pattern, when it is well-formed;
* `Glob.matchesName` : whether a name is what the parts describe.
-/

namespace Flowsmith.Glob

inductive Part where
  | star
  | any
  /-- A class of ranges of code points; `negated` means what is outside them. -/
  | cls (negated : Bool) (ranges : List (Nat × Nat))
  | byte (c : UInt8)
  deriving DecidableEq, Repr

/-- A code point of a class, which a backslash may precede, and what follows; something must. -/
def classChar? (s : Bytes) : Option (Nat × Bytes) :=
  let unescaped := match s with
    | 0x5C :: rest => some rest
    | 0x2D :: _ => none
    | 0x5D :: _ => none
    | s => some s
  match unescaped with
  | none => none
  | some s =>
    match Utf8.decode? s with
    | none => none
    | some (n, k) => if (s.drop k).isEmpty then none else some (n, s.drop k)

/-- The ranges of a class and what follows it; `ranges` are those before, in reverse. -/
def ranges? (ranges : List (Nat × Nat)) (s : Bytes) : Option (List (Nat × Nat) × Bytes) :=
  if s.head? = some ']'.toUInt8 ∧ !ranges.isEmpty then some (ranges.reverse, s.drop 1)
  else
    match classChar? s with
    | none => none
    | some (lo, rest) =>
      let upper :=
        if rest.head? = some '-'.toUInt8 then classChar? (rest.drop 1) else some (lo, rest)
      match upper with
      | none => none
      | some (hi, rest) =>
        if rest.length < s.length then ranges? ((lo, hi) :: ranges) rest else none
termination_by s.length

/-- The parts of a pattern, none when it is malformed. -/
def parse? (s : Bytes) : Option (List Part) :=
  match s with
  | [] => some []
  | c :: rest =>
    if c = '*'.toUInt8 then (parse? rest).map (.star :: ·)
    else if c = '?'.toUInt8 then (parse? rest).map (.any :: ·)
    else if c = '['.toUInt8 then
      let negated := rest.head? = some '^'.toUInt8
      match ranges? [] (if negated then rest.drop 1 else rest) with
      | none => none
      | some (ranges, after) =>
        if after.length < rest.length then (parse? after).map (.cls negated ranges :: ·) else none
    else if c = '\\'.toUInt8 then
      match rest with
      | [] => none
      | d :: rest => (parse? rest).map (.byte d :: ·)
    else (parse? rest).map (.byte c :: ·)
termination_by s.length

def inClass (negated : Bool) (ranges : List (Nat × Nat)) (n : Nat) : Bool :=
  (ranges.any fun r => r.1 ≤ n && n ≤ r.2) != negated

/-- What the parts before the first star leave of a name, none when they do not describe its
beginning. -/
def chunk? : List Part → Bytes → Option Bytes
  | [], s => some s
  | .star :: _, s => some s
  | .any :: ps, c :: s =>
    if c = Path.slash then none else chunk? ps (s.drop ((Utf8.decode (c :: s)).2 - 1))
  | .cls negated ranges :: ps, c :: s =>
    if inClass negated ranges (Utf8.decode (c :: s)).1 then
      chunk? ps (s.drop ((Utf8.decode (c :: s)).2 - 1))
    else none
  | .byte b :: ps, c :: s => if b = c then chunk? ps s else none
  | _ :: _, [] => none

/-- What the parts before the first star leave of a name at the first place where they describe it,
which no slash precedes. Where no star follows them they have to leave nothing. -/
def firstChunk? (ps : List Part) : Bytes → Option Bytes
  | [] => chunk? ps []
  | c :: s =>
    match (chunk? ps (c :: s)).filter fun t => t.isEmpty || ps.contains .star with
    | some t => some t
    | none => if c = Path.slash then none else firstChunk? ps s

/-- Whether a name is what the parts describe. The parts between two stars are looked for once: where
they describe the name first. -/
def matchesName (ps : List Part) (s : Bytes) : Bool :=
  match ps with
  | [] => s.isEmpty
  | [.star] => !s.contains Path.slash
  | .star :: p :: ps =>
    (firstChunk? (p :: ps) s).any (matchesName ((p :: ps).dropWhile (· != .star)))
  | p :: ps => (chunk? (p :: ps) s).any (matchesName (ps.dropWhile (· != .star)))
termination_by ps.length
decreasing_by
  · exact Nat.lt_succ_of_le (List.dropWhile_sublist _).length_le
  · exact Nat.lt_succ_of_le (List.dropWhile_sublist _).length_le

end Flowsmith.Glob
