import Flowsmith.Text.Utf8

/-!
# Blank characters

The code points with the property White_Space, and what is done with them: trimming both ends
(`Bytes.trim`), and cutting a text into words (`Bytes.words`, `Bytes.collapse`). An encoding of a
blank begins with a byte that continues no other sequence, so texts are walked byte by byte.
-/

namespace Flowsmith

namespace Text

/-- The code points with the property White_Space. -/
def blanks : List Nat :=
  [0x20, 0x09, 0x0A, 0x0B, 0x0C, 0x0D, 0x85, 0xA0, 0x1680, 0x2000, 0x2001, 0x2002, 0x2003, 0x2004,
   0x2005, 0x2006, 0x2007, 0x2008, 0x2009, 0x200A, 0x2028, 0x2029, 0x202F, 0x205F, 0x3000]

def blankEncodings : List Bytes := blanks.map Utf8.encode

def blankEncodingsReversed : List Bytes := blankEncodings.map List.reverse

/-- The size of the blank a text begins with, zero when it begins with none. -/
def blankSize (s : Bytes) : Nat :=
  match blankEncodings.find? (·.isPrefixOf s) with
  | some e => e.length
  | none => 0

/-- The size of the blank with which a text that is read from the right begins. -/
def blankSizeReversed (s : Bytes) : Nat :=
  match blankEncodingsReversed.find? (·.isPrefixOf s) with
  | some e => e.length
  | none => 0

/-- Drops units of the sizes that `size` gives, until it gives zero. -/
def dropUnits (size : Bytes → Nat) (s : Bytes) : Bytes :=
  match s with
  | [] => []
  | c :: rest =>
    match size (c :: rest) with
    | 0 => c :: rest
    | k + 1 => dropUnits size (rest.drop k)
termination_by s.length

end Text

namespace Bytes

def trimStart (s : Bytes) : Bytes := Text.dropUnits Text.blankSize s

def trimEnd (s : Bytes) : Bytes := (Text.dropUnits Text.blankSizeReversed s.reverse).reverse

/-- The text without the blanks at its two ends. -/
def trim (s : Bytes) : Bytes := trimEnd (trimStart s)

/-- The words of a text after a word begun with the bytes `word`, which are in reverse. -/
def wordsFrom (word : Bytes) (s : Bytes) : List Bytes :=
  match s with
  | [] => if word.isEmpty then [] else [word.reverse]
  | c :: rest =>
    match Text.blankSize (c :: rest) with
    | 0 => wordsFrom (c :: word) rest
    | k + 1 => (if word.isEmpty then [] else [word.reverse]) ++ wordsFrom [] (rest.drop k)
termination_by s.length

/-- The maximal runs of bytes outside blanks. -/
def words (s : Bytes) : List Bytes := wordsFrom [] s

def collapse (s : Bytes) : Bytes := joinWith [0x20] (words s)

def isBlank (s : Bytes) : Bool := (trimStart s).isEmpty

end Bytes

end Flowsmith
