import Flowsmith.Text.Blank

/-!
# Laying out carried-over text

A declaration or block that is carried over keeps the relative indentation of its lines under a new
indentation. Lines that begin inside a verbatim string literal are part of its value and stay
untouched.

* `verbatimLines` : which lines begin inside a verbatim string literal;
* `reindent` : the lines of a declaration under an indentation;
* `blockLines` : the lines between the braces of a body under an indentation.
-/

namespace Flowsmith.FlowClass

/-! ## Where verbatim literals lie -/

/-- What a position lies in. -/
inductive Mode where
  | code
  | string
  | character
  | verbatim
  | comment
  deriving DecidableEq, Repr

/-- What the end of a line lies in, when its beginning lies in `mode`. -/
def modeAfter (mode : Mode) (line : Bytes) : Mode :=
  match mode, line with
  | mode, [] => mode
  | .code, c :: s =>
    if c = '/'.toUInt8 ∧ s.head? = some '/'.toUInt8 then .code
    else if c = '/'.toUInt8 ∧ s.head? = some '*'.toUInt8 then modeAfter .comment (s.drop 1)
    else if c = '@'.toUInt8 ∧ s.head? = some '"'.toUInt8 then modeAfter .verbatim (s.drop 1)
    else if c = '$'.toUInt8 ∧ s.take 2 = ['@'.toUInt8, '"'.toUInt8] then
      modeAfter .verbatim (s.drop 2)
    else if c = '"'.toUInt8 then modeAfter .string s
    else if c = '\''.toUInt8 then modeAfter .character s
    else modeAfter .code s
  | .string, c :: s =>
    if c = '\\'.toUInt8 then modeAfter .string (s.drop 1)
    else if c = '"'.toUInt8 then modeAfter .code s
    else modeAfter .string s
  | .character, c :: s =>
    if c = '\\'.toUInt8 then modeAfter .character (s.drop 1)
    else if c = '\''.toUInt8 then modeAfter .code s
    else modeAfter .character s
  | .verbatim, c :: s =>
    if c = '"'.toUInt8 then
      if s.head? = some '"'.toUInt8 then modeAfter .verbatim (s.drop 1) else modeAfter .code s
    else modeAfter .verbatim s
  | .comment, c :: s =>
    if c = '*'.toUInt8 ∧ s.head? = some '/'.toUInt8 then modeAfter .code (s.drop 1)
    else modeAfter .comment s
termination_by line.length

/-- What the beginning of the next line lies in: strings and characters end with their line. -/
def nextMode (mode : Mode) (line : Bytes) : Mode :=
  match modeAfter mode line with
  | .string => .code
  | .character => .code
  | m => m

/-- For each line whether it begins inside a verbatim literal, when the first begins in `mode`. -/
def verbatimLinesFrom (mode : Mode) : List Bytes → List Bool
  | [] => []
  | line :: lines => (mode == .verbatim) :: verbatimLinesFrom (nextMode mode line) lines

/-- For each line whether it begins inside a verbatim literal. -/
def verbatimLines (lines : List Bytes) : List Bool := verbatimLinesFrom .code lines

/-! ## Indentation -/

def isIndent (c : UInt8) : Bool := c == 0x20 || c == 0x09

/-- The lines of a text; a carriage return before a line feed belongs to neither line. -/
def splitLines (s : Bytes) : List Bytes := (s.replaceAll "\r\n" "\n").lines

/-- The number of spaces and tabs at the beginning. -/
def indentOf (line : Bytes) : Nat := (line.takeWhile isIndent).length

/-- The least indentation of the lines that are not blank, zero when all are. -/
def commonIndent (lines : List Bytes) : Nat :=
  (((lines.filter (!Bytes.isBlank ·)).map indentOf).min?).getD 0

/-- The line without at most `n` spaces and tabs at its beginning. -/
def trimIndent (n : Nat) (line : Bytes) : Bytes := line.drop (min n (indentOf line))

def indentLine (pad line : Bytes) : Bytes := if line.isBlank then [] else pad ++ line

/-- The text without the bytes of a kind at its end. -/
def trimEndWhile (p : UInt8 → Bool) (s : Bytes) : Bytes := (s.reverse.dropWhile p).reverse

/-- A line with the flag that it begins inside a verbatim literal. -/
def flagLines (lines : List Bytes) : List (Bytes × Bool) := lines.zip (verbatimLines lines)

def codeLines (lines : List (Bytes × Bool)) : List Bytes := (lines.filter (!·.2)).map (·.1)

def isTrailing (c : UInt8) : Bool := c == 0x20 || c == 0x09 || c == 0x0D || c == 0x0A

/-- The lines of a declaration that started at a column, under an indentation. -/
def reindent (text : Bytes) (column : Nat) (pad : Bytes) : List Bytes :=
  match flagLines (splitLines (trimEndWhile isTrailing text)) with
  | [] => []
  | first :: rest =>
    let strip := min column (commonIndent (codeLines rest))
    (pad ++ first.1.dropWhile isIndent) ::
      rest.map fun line => if line.2 then line.1 else indentLine pad (trimIndent strip line.1)

/-- The lines of a block without the blank ones at its two ends. -/
def trimBlock (lines : List Bytes) : List Bytes :=
  ((lines.dropWhile Bytes.isBlank).reverse.dropWhile Bytes.isBlank).reverse

/-- The lines between the braces of a body, under an indentation. -/
def blockLines (body pad : Bytes) : List Bytes :=
  let lines := flagLines (trimBlock (splitLines body))
  let strip := commonIndent (codeLines lines)
  lines.map fun line =>
    if line.2 then line.1
    else indentLine pad (trimEndWhile isIndent (trimIndent strip line.1))

end Flowsmith.FlowClass
