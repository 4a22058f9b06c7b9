import Flowsmith.Text.Utf8

/-!
# Searching by patterns

Pieces of text patterns as functions that give the size of a match at the beginning of a text, and
what is done with them everywhere in a text.

* `Bytes.firstSome` : the first suffix at which something is found;
* `Bytes.eraseMatches` : a text without its matches, found from the left and without overlaps;
* `Text.closedLine?` : up to a mark at the end of whose line only blanks follow.
-/

namespace Flowsmith

namespace Bytes

/-- What `f` finds at the first suffix where it finds something. -/
def firstSome {α : Type} (f : Bytes → Option α) : Bytes → Option α
  | [] => f []
  | c :: s => match f (c :: s) with
    | some a => some a
    | none => firstSome f s

/-- The text without the matches whose sizes `size?` gives, found from the left and without
overlaps. -/
def eraseMatches (size? : Bytes → Option Nat) (s : Bytes) : Bytes :=
  match s with
  | [] => []
  | c :: rest =>
    match size? (c :: rest) with
    | some (k + 1) => eraseMatches size? (rest.drop k)
    | _ => c :: eraseMatches size? rest
termination_by s.length

end Bytes

namespace Text

/-- A blank of patterns: tab, line feed, form feed, carriage return or space. -/
def isSpace (c : UInt8) : Bool := c == 0x09 || c == 0x0A || c == 0x0C || c == 0x0D || c == 0x20

/-- The size of the blanks at the beginning through the last line feed among them. -/
def lineBreaks? : Bytes → Option Nat
  | [] => none
  | c :: s =>
    if isSpace c then
      match lineBreaks? s with
      | some k => some (k + 1)
      | none => if c = Bytes.newline then some 1 else none
    else none

/-- The size up to the first `mark` on the line that only blanks and a line feed follow, and through
the last line feed among those blanks. -/
def closedLine? (mark : UInt8) : Bytes → Option Nat
  | [] => none
  | c :: s =>
    if c = Bytes.newline then none
    else
      match (if c = mark then lineBreaks? s else none) with
      | some k => some (k + 1)
      | none => (closedLine? mark s).map (· + 1)

/-- The size through the first `mark` on the line. -/
def throughMark? (mark : UInt8) : Bytes → Option Nat
  | [] => none
  | c :: s =>
    if c = Bytes.newline then none
    else if c = mark then some 1
    else (throughMark? mark s).map (· + 1)

/-- The size of one character other than a line feed. -/
def anyCharacter? : Bytes → Option Nat
  | [] => none
  | c :: s => if c = Bytes.newline then none else some (Utf8.decode (c :: s)).2

/-- Whether `p` holds after one or more of the blanks at the beginning. -/
def holdsAfterSpaces (p : Bytes → Bool) : Bytes → Bool
  | [] => false
  | c :: s => isSpace c && (p s || holdsAfterSpaces p s)

def firstLine (s : Bytes) : Bytes := s.takeWhile (· != Bytes.newline)

end Text

end Flowsmith
