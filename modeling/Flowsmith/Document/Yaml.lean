import Flowsmith.Document.Tree
import Flowsmith.Text.Quoted
import Flowsmith.Yaml.Scalar

/-!
# Documents as YAML

Records and lists are written as blocks, two spaces deeper than what holds them. A text is written
without quotes when it reads back as that text, in a block of its lines when it has line feeds,
between single quotes when its characters allow it, and between double quotes otherwise.

* `Yaml.Traits` : what the form of a text depends on;
* `Yaml.formOf` : the form of a text;
* `Yaml.scalar` : a text in its form;
* `Document.yaml` : a document.
-/

namespace Flowsmith

namespace Yaml

inductive Form where
  | plain
  | single
  | double
  | block
  deriving DecidableEq, Repr

/-! ## Characters -/

def isBreak (n : Nat) : Bool := n == 0x0A || n == 0x0D || n == 0x85 || n == 0x2028 || n == 0x2029

def isPrintable (n : Nat) : Bool :=
  n == 0x0A || (0x20 ≤ n && n ≤ 0x7E) || (0xA0 ≤ n && n ≤ 0xD7FF)
    || (0xE000 ≤ n && n ≤ 0xFFFD && n != 0xFEFF)

def isBlank (n : Nat) : Bool := n == 0x20 || n == 0x09

/-- The characters with which no plain text begins. -/
def leadingMarks : Bytes := "#,[]\x7b\x7d&*!|>'\"%@`"

/-! ## Traits -/

/-- What the form of a text depends on. -/
structure Traits where
  /-- A mark of the block structure. -/
  mark : Bool := false
  /-- A character that ends a line. -/
  breaks : Bool := false
  /-- A character that cannot stand for itself. -/
  special : Bool := false
  tab : Bool := false
  /-- A space or a line end at one of the ends. -/
  blankEnd : Bool := false
  /-- A space at the end. -/
  spaceEnd : Bool := false
  /-- A space after a line end. -/
  breakSpace : Bool := false
  /-- A line end after a space. -/
  spaceBreak : Bool := false
  deriving DecidableEq, Repr

/-- Whether a code point is a mark of the block structure, from its neighbours; `previous` is none
at the beginning and `next` at the end. -/
def isMark (previous : Option Nat) (n : Nat) (next : Option Nat) : Bool :=
  let open_ := next.all isBlank
  match previous with
  | none =>
    leadingMarks.any (·.toNat == n) || ((n == 0x3F || n == 0x3A || n == 0x2D) && open_)
  | some p => (n == 0x3A && open_) || (n == 0x23 && (isBlank p || isBreak p || p == 0))

/-- Adds what one code point says, from its neighbours. -/
def Traits.add (t : Traits) (previous : Option Nat) (n : Nat) (next : Option Nat) : Traits :=
  let atEnd := previous.isNone || next.isNone
  { mark := t.mark || isMark previous n next
    breaks := t.breaks || isBreak n
    special := t.special || (n != 0x09 && !isPrintable n)
    tab := t.tab || n == 0x09
    blankEnd := t.blankEnd || (atEnd && (n == 0x20 || isBreak n))
    spaceEnd := t.spaceEnd || (next.isNone && n == 0x20)
    breakSpace := t.breakSpace || (n == 0x20 && previous.any isBreak)
    spaceBreak := t.spaceBreak || (isBreak n && previous == some 0x20) }

/-- The traits of the code points after `previous`. -/
def traitsFrom (t : Traits) (previous : Option Nat) : List Nat → Traits
  | [] => t
  | n :: ns => traitsFrom (t.add previous n ns.head?) (some n) ns

def traits (s : Bytes) : Traits :=
  let rule := ("---" : Bytes).isPrefixOf s || ("..." : Bytes).isPrefixOf s
  traitsFrom { mark := rule } none ((Utf8.runes s).map (·.1))

/-! ## Forms -/

/-- Whether a text without quotes would be taken for something else. -/
def isAmbiguous (s : Bytes) : Bool := resolve s != .text || isOldNumber s || isOldTruth s

def formOf (s : Bytes) : Form :=
  let t := traits s
  if s.contains Bytes.newline then
    if t.spaceEnd || t.spaceBreak || t.special then .double else .block
  else if isAmbiguous s then .double
  else if t.breakSpace || t.spaceBreak || t.tab || t.special then .double
  else if t.mark || t.breaks || t.blankEnd then .single
  else .plain

/-! ## Writing -/

/-- The letter that names a character after a backslash. -/
def letter? (n : Nat) : Option UInt8 :=
  match n with
  | 0x00 => some '0'.toUInt8
  | 0x07 => some 'a'.toUInt8
  | 0x08 => some 'b'.toUInt8
  | 0x09 => some 't'.toUInt8
  | 0x0A => some 'n'.toUInt8
  | 0x0B => some 'v'.toUInt8
  | 0x0C => some 'f'.toUInt8
  | 0x0D => some 'r'.toUInt8
  | 0x1B => some 'e'.toUInt8
  | 0x22 => some 0x22
  | 0x5C => some 0x5C
  | 0x85 => some 'N'.toUInt8
  | 0xA0 => some '_'.toUInt8
  | 0x2028 => some 'L'.toUInt8
  | 0x2029 => some 'P'.toUInt8
  | _ => none

/-- The last `width` hexadecimal digits of a number, in upper case. -/
def upperHex (width n : Nat) : Bytes := (Text.hex width n).map Bytes.upperByte

/-- A code point by its name or number. -/
def escaped (n : Nat) : Bytes :=
  match letter? n with
  | some c => [0x5C, c]
  | none =>
    if n ≤ 0xFF then ("\\x" : Bytes) ++ upperHex 2 n
    else if n ≤ 0xFFFF then ("\\u" : Bytes) ++ upperHex 4 n
    else ("\\U" : Bytes) ++ upperHex 8 n

def doubleQuoted (s : Bytes) : Bytes :=
  let inner := (Utf8.runes s).flatMap fun (n, raw) =>
    if !isPrintable n || isBreak n || n == 0x22 || n == 0x5C then escaped n else raw
  [0x22] ++ inner ++ [0x22]

/-- The characters between single quotes; `broken` says that a line has just ended. A new line
begins at the indentation. -/
def singleInner (indent : Nat) (broken : Bool) : List (Nat × Bytes) → Bytes
  | [] => []
  | (n, raw) :: rest =>
    if isBreak n then raw ++ singleInner indent true rest
    else
      (if broken then Bytes.spaces indent else []) ++ (if n = 0x27 then ("''" : Bytes) else raw)
        ++ singleInner indent false rest

def singleQuoted (indent : Nat) (s : Bytes) : Bytes :=
  [0x27] ++ singleInner indent false (Utf8.runes s) ++ [0x27]

/-- The number of line ends at the end of a text, two at most. -/
def trailingBreaks (s : Bytes) : Nat :=
  (((Utf8.runes s).map (·.1)).reverse.take 2).takeWhile isBreak |>.length

/-- The mark at the head of a block: how deep it is, when its first line does not tell, and what
becomes of the line ends at its end. -/
def blockHead (s : Bytes) : Bytes :=
  let first := ((Utf8.runes s).map (·.1)).head?
  let depth : Bytes := if first.any fun n => n == 0x20 || isBreak n then "2" else []
  let chomp : Bytes :=
    match trailingBreaks s with
    | 0 => "-"
    | 1 => if Utf8.count s = 1 then "+" else []
    | _ => "+"
  ("|" : Bytes) ++ depth ++ chomp

/-- The lines of a block; `open_` says that a line is to be begun, and `fresh` that it is the
first. -/
def blockInner (indent : Nat) (open_ fresh : Bool) : List (Nat × Bytes) → Bytes
  | [] => []
  | (n, raw) :: rest =>
    if isBreak n then raw ++ blockInner indent true false rest
    else
      (if open_ then (if fresh then [Bytes.newline] else []) ++ Bytes.spaces indent else []) ++ raw
        ++ blockInner indent false false rest

/-- A text of code points in its form, its lines at an indentation. -/
def scalar (indent : Nat) (s : Bytes) : Bytes :=
  match formOf s with
  | .plain => s
  | .single => singleQuoted indent s
  | .double => doubleQuoted s
  | .block => blockHead s ++ blockInner indent true true (Utf8.runes s)

def endsLine (s : Bytes) : Bool := formOf s = .block && s.getLast? == some Bytes.newline

end Yaml

namespace Document

/-- Whether a value stands on the line of its name. -/
def isInline : Document → Bool
  | .list (_ :: _) => false
  | .record (_ :: _) => false
  | _ => true

mutual

/-- A value on the line of its name or of its dash, with the end of the line. -/
def yamlInline (indent : Nat) : Document → Bytes
  | .text s => Yaml.scalar indent s ++ (if Yaml.endsLine s then [] else [Bytes.newline])
  | .number n => Bytes.natural n ++ [Bytes.newline]
  | .flag b => flagWord b ++ [Bytes.newline]
  | .record _ => Bytes.leftBrace ++ Bytes.rightBrace ++ [Bytes.newline]
  | _ => "[]\n"

/-- The lines of a block at an indentation, the first one without it. -/
def yamlBlock (indent : Nat) : Document → Bytes
  | .list (item :: items) => yamlItems indent true (item :: items)
  | .record (field :: fields) => yamlFields indent true (field :: fields)
  | d => yamlInline indent d

/-- The items of a list; `first` says that the line is begun. -/
def yamlItems (indent : Nat) (first : Bool) : List Document → Bytes
  | [] => []
  | item :: items =>
    (if first then [] else Bytes.spaces indent) ++ ("- " : Bytes) ++ yamlBlock (indent + 2) item
      ++ yamlItems indent false items

/-- The fields of a record; `first` says that the line is begun. -/
def yamlFields (indent : Nat) (first : Bool) : List (Bytes × Document) → Bytes
  | [] => []
  | (name, value) :: fields =>
    (if first then [] else Bytes.spaces indent) ++ name ++ (":" : Bytes)
      ++ (if isInline value then (" " : Bytes) else Bytes.newline :: Bytes.spaces (indent + 2))
      ++ yamlBlock (indent + 2) value ++ yamlFields indent false fields

end

def yaml (d : Document) : Bytes := yamlBlock 0 d

end Document

end Flowsmith
