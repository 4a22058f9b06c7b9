import Flowsmith.Text.Numeral
import Flowsmith.Text.Utf8

/-!
# YAML texts

A text is written between quotes, plainly, or as a block of lines. Texts between quotes and plain
texts may go over several lines, which are joined: one line end is a space, and each further one
stands for itself.

* `Yaml.Gap` : blanks and line ends inside of a text;
* `Yaml.doubleText?`, `Yaml.singleText?` : the text after an opening quote;
* `Yaml.plainText?` : a plain text;
* `Yaml.blockText?` : a block of lines.
-/

namespace Flowsmith.Yaml

/-- A place in what is read: its column, and what is left. -/
structure Place where
  column : Nat := 0
  rest : Bytes
  deriving DecidableEq, Repr

/-! ## Characters -/

def isBlankByte (c : UInt8) : Bool := c == 0x20 || c == 0x09

/-- Whether a blank, a line end or the end of everything is next. -/
def isApart : Bytes → Bool
  | [] => true
  | c :: _ => isBlankByte c || c == Bytes.newline

def bracketMarks : Bytes := ",[]\x7b\x7d"

/-- Whether a line that ends a document is next. -/
def isMarkerNext (s : Bytes) : Bool :=
  (("---" : Bytes).isPrefixOf s || ("..." : Bytes).isPrefixOf s) && isApart (s.drop 3)

/-! ## Gaps -/

/-- Blanks and line ends between two pieces of a text. -/
structure Gap where
  /-- The blanks on the line of the first piece. -/
  blanks : Bytes := []
  /-- Whether the first line end was marked as none. -/
  joined : Bool := false
  breaks : Nat := 0
  deriving DecidableEq, Repr

namespace Gap

def isBroken (g : Gap) : Bool := g.joined || 0 < g.breaks

def isEmpty (g : Gap) : Bool := g == {}

def blank (g : Gap) (c : UInt8) : Gap :=
  if g.isBroken then g else { g with blanks := g.blanks ++ [c] }

def lineEnd (g : Gap) : Gap := { g with blanks := [], breaks := g.breaks + 1 }

def text (g : Gap) : Bytes :=
  if g.joined then List.replicate g.breaks Bytes.newline
  else if g.breaks = 0 then g.blanks
  else if g.breaks = 1 then [0x20]
  else List.replicate (g.breaks - 1) Bytes.newline

end Gap

/-! ## Quotes -/

/-- The characters that a letter after a backslash stands for. -/
def letters : List (Char × Nat) :=
  [('0', 0x00), ('a', 0x07), ('b', 0x08), ('t', 0x09), ('\t', 0x09), ('n', 0x0A), ('v', 0x0B),
   ('f', 0x0C), ('r', 0x0D), ('e', 0x1B), (' ', 0x20), ('"', 0x22), ('/', 0x2F), ('\\', 0x5C),
   ('N', 0x85), ('_', 0xA0), ('L', 0x2028), ('P', 0x2029)]

/-- The character that a number of hexadecimal digits stands for, and the rest. -/
def numbered? (width : Nat) (s : Bytes) : Option (Bytes × Bytes) :=
  let digits := s.take width
  if digits.length = width ∧ digits.all fun d => (Text.digitValue? 16 d).isSome then
    match Text.digitsValue? 16 digits with
    | some n =>
      if 0x10FFFF < n ∨ (0xD800 ≤ n ∧ n ≤ 0xDFFF) then none
      else some (Utf8.encode n, s.drop width)
    | none => none
  else none

/-- What stands after a backslash, and the rest. -/
def escape? : Bytes → Option (Bytes × Bytes)
  | [] => none
  | c :: s =>
    match letters.find? fun l => l.1.toUInt8 == c with
    | some (_, n) => some (Utf8.encode n, s)
    | none =>
      if c = 'x'.toUInt8 then numbered? 2 s
      else if c = 'u'.toUInt8 then numbered? 4 s
      else if c = 'U'.toUInt8 then numbered? 8 s
      else none

/-- The text up to a double quote, after a gap, and the place behind it. -/
def doubleText? (g : Gap) (column : Nat) (s : Bytes) : Option (Bytes × Place) :=
  match s with
  | [] => none
  | c :: rest =>
    if c = 0x22 then some (g.text, ⟨column + 1, rest⟩)
    else if isBlankByte c then doubleText? (g.blank c) (column + 1) rest
    else if c = Bytes.newline then doubleText? g.lineEnd 0 rest
    else if column = 0 && isMarkerNext (c :: rest) then none
    else if c = '\\'.toUInt8 then
      match rest with
      | [] => none
      | d :: more =>
        if d = Bytes.newline then
          (doubleText? { joined := true } 0 more).map fun (t, p) => (g.text ++ t, p)
        else match escape? (d :: more) with
          | none => none
          | some (text, after) =>
            if after.length ≤ more.length then
              (doubleText? {} (column + 2) after).map fun (t, p) => (g.text ++ text ++ t, p)
            else none
    else (doubleText? {} (column + 1) rest).map fun (t, p) => (g.text ++ c :: t, p)
termination_by s.length

/-- The text up to a single quote, after a gap, and the place behind it; two single quotes are
one. -/
def singleText? (g : Gap) (column : Nat) : Bytes → Option (Bytes × Place)
  | [] => none
  | 0x27 :: 0x27 :: rest =>
    (singleText? {} (column + 2) rest).map fun (t, p) => (g.text ++ 0x27 :: t, p)
  | c :: rest =>
    if c = 0x27 then some (g.text, ⟨column + 1, rest⟩)
    else if isBlankByte c then singleText? (g.blank c) (column + 1) rest
    else if c = Bytes.newline then singleText? g.lineEnd 0 rest
    else if column = 0 && isMarkerNext (c :: rest) then none
    else (singleText? {} (column + 1) rest).map fun (t, p) => (g.text ++ c :: t, p)

/-! ## Plain texts -/

/-- The characters with which no plain text begins. -/
def openingMarks : Bytes := "#,[]\x7b\x7d&*!|>'\"%@`"

/-- Whether a plain text can begin here; `inside` says that it would stand in brackets. -/
def beginsPlain (inside : Bool) : Bytes → Bool
  | [] => false
  | c :: s =>
    if isBlankByte c || c == Bytes.newline then false
    else if c = '-'.toUInt8 then !isApart s
    else if c = '?'.toUInt8 || c = ':'.toUInt8 then !inside && !isApart s
    else !openingMarks.contains c

def endsPlain (inside : Bool) : Bytes → Bool
  | [] => true
  | c :: s =>
    (c == ':'.toUInt8 && isApart s)
      || (inside && (bracketMarks.contains c || (c == '?'.toUInt8 && isApart s)))

/-- A plain text from a place on, after a gap, and the place behind it. In a line that is not its
first it must stand at the column `least` or further to the right, and so must tabs. -/
def plainText? (inside : Bool) (least : Nat) (g : Gap) (column : Nat) :
    Bytes → Option (Bytes × Place)
  | [] => some ([], ⟨column, []⟩)
  | c :: s =>
    if c = 0x09 && g.isBroken && column < least then none
    else if isBlankByte c then plainText? inside least (g.blank c) (column + 1) s
    else if c = Bytes.newline then plainText? inside least g.lineEnd 0 s
    else if (g.isBroken && !inside && column < least) || (!g.isEmpty && c == '#'.toUInt8)
        || (column = 0 && isMarkerNext (c :: s)) || endsPlain inside (c :: s) then
      some ([], ⟨column, c :: s⟩)
    else (plainText? inside least {} (column + 1) s).map fun (t, p) => (g.text ++ c :: t, p)

/-! ## Blocks -/

/-- What becomes of the line ends after a block. -/
inductive Chomp where
  | strip
  | clip
  | keep
  deriving DecidableEq, Repr

/-- The head of a block: what becomes of its last line ends, and how deep it is. -/
def blockHead? : Bytes → Option (Chomp × Option Nat)
  | [] => some (.clip, none)
  | c :: s =>
    let depth? := fun s : Bytes => match s with
      | d :: s => if 0x31 ≤ d && d ≤ 0x39 then (some (d.toNat - 0x30), s) else (none, d :: s)
      | [] => (none, [])
    let isRest := fun s : Bytes => match s.dropWhile isBlankByte with
      | [] => true
      | d :: _ => d == '#'.toUInt8
    let chomp? := fun c : UInt8 =>
      if c = '+'.toUInt8 then some Chomp.keep else if c = '-'.toUInt8 then some .strip else none
    match chomp? c with
    | some chomp =>
      let (depth, s) := depth? s
      if isRest s then some (chomp, depth) else none
    | none =>
      let (depth, s) := depth? (c :: s)
      match depth, s with
      | some n, d :: more =>
        match chomp? d with
        | some chomp => if isRest more then some (chomp, some n) else none
        | none => if isRest s then some (.clip, some n) else none
      | depth, s => if isRest s then some (.clip, depth) else none

def depthOf (line : Bytes) : Nat := (line.takeWhile (· == 0x20)).length

def isVoid (line : Bytes) : Bool := line.all (· == 0x20)

/-- How deep the lines of a block are, from its first line that is not void. -/
def detectDepth (least : Nat) (lines : List Bytes) : Nat :=
  let void := lines.takeWhile isVoid
  let first := (lines.dropWhile isVoid).head?.map depthOf
  ((void.map List.length) ++ first.toList).foldl max least

/-- Lines joined as those of a folded block: between two lines that begin with no blank, one line
end is a space and the others stand for themselves. -/
def foldLines (deep : Bool) (void : Nat) : List Bytes → Bytes
  | [] => []
  | [] :: ls => foldLines deep (void + 1) ls
  | (c :: l) :: ls =>
    let gap :=
      if deep || isBlankByte c then List.replicate (void + 1) Bytes.newline
      else if void = 0 then [0x20]
      else List.replicate void Bytes.newline
    gap ++ c :: l ++ foldLines (isBlankByte c) 0 ls

def folded (lines : List Bytes) : Bytes :=
  let void := lines.takeWhile (·.isEmpty)
  let rest := lines.dropWhile (·.isEmpty)
  List.replicate void.length Bytes.newline
    ++ match rest with
      | [] => []
      | l :: ls => l ++ foldLines (l.head?.any isBlankByte) 0 ls

/-- The block of lines behind its mark, and the place after it; its lines are deeper than
`least`. -/
def blockText? (isFolded : Bool) (least : Nat) (s : Bytes) : Option (Bytes × Place) :=
  match Bytes.lines s with
  | [] => none
  | head :: lines =>
    match blockHead? head with
    | none => none
    | some (chomp, depth?) =>
      let depth := match depth? with
        | some n => least + n
        | none => detectDepth (least + 1) lines
      let isInside := fun l : Bytes => isVoid l || depth ≤ depthOf l
      let body := lines.takeWhile isInside
      let after := lines.dropWhile isInside
      let inner := body.map (·.drop depth)
      let kept := (inner.reverse.dropWhile (·.isEmpty)).reverse
      let ends := inner.length - kept.length + (if after.isEmpty then 0 else 1)
      let text := if isFolded then folded kept else Bytes.joinWith [Bytes.newline] kept
      let tail := match chomp with
        | .strip => 0
        | .clip => if kept.isEmpty then 0 else min ends 1
        | .keep => ends
      some (text ++ List.replicate tail Bytes.newline,
        ⟨0, Bytes.joinWith [Bytes.newline] after⟩)

end Flowsmith.Yaml
