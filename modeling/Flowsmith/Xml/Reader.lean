import Flowsmith.Fault
import Flowsmith.Text.Match
import Flowsmith.Xml.Tree

/-!
# Reading XML

Markup is read strictly: names, quotes, references and characters must be those of XML 1.0, and
every element must be closed by its own name. Prefixes need no declaration, several elements may
stand at the top, and text may stand around them. Line ends are read as line feeds.

* `scanText?` : text up to what ends it, with references resolved;
* `markup?` : what stands after an opening angle bracket;
* `events?` : the parts of a document in order;
* `parse?` : the document.
-/

namespace Flowsmith.Xml

/-! ## References and text -/

def entities : List (String × UInt8) :=
  [("lt;", '<'.toUInt8), ("gt;", '>'.toUInt8), ("amp;", '&'.toUInt8), ("apos;", '\''.toUInt8),
   ("quot;", '"'.toUInt8)]

/-- A hexadecimal digit of either case. -/
def isHexByte (c : UInt8) : Bool :=
  Bytes.isDigitByte c || (0x61 ≤ c && c ≤ 0x66) || (0x41 ≤ c && c ≤ 0x46)

def hexByte (c : UInt8) : Nat :=
  if Bytes.isDigitByte c then c.toNat - 0x30 else (Bytes.lowerByte c).toNat - 0x57

/-- The character that digits of a base name, up to a semicolon, and the size of both. -/
def numbered? (base : Nat) (isDigit : UInt8 → Bool) (s : Bytes) : Option (Bytes × Nat) :=
  let digits := s.takeWhile isDigit
  let n := digits.foldl (fun n c => n * base + hexByte c) 0
  if digits.isEmpty || (s.drop digits.length).head? != some ';'.toUInt8 || 0x10FFFF < n then none
  else some (Utf8.encode n, digits.length + 1)

/-- The text a reference stands for, and its size after the ampersand. -/
def reference? (s : Bytes) : Option (Bytes × Nat) :=
  match s with
  | 0x23 :: 0x78 :: rest => (numbered? 16 isHexByte rest).map fun r => (r.1, r.2 + 2)
  | 0x23 :: rest => (numbered? 10 Bytes.isDigitByte rest).map fun r => (r.1, r.2 + 1)
  | s =>
    (entities.find? fun e => (Bytes.ofString e.1).isPrefixOf s).map fun e =>
      ([e.2], (Bytes.ofString e.1).length)

inductive TextEnd where
  /-- Markup, or the end of the document. -/
  | markup
  /-- A quote. -/
  | quote (c : UInt8)
  /-- The end mark of a literal section. -/
  | section
  deriving DecidableEq, Repr

def sectionEnd : Bytes := "]]>"

/-- The text up to its end, and what follows. The end itself is taken when it is a quote or a
mark. -/
def scanText? (stop : TextEnd) (s : Bytes) : Option (Bytes × Bytes) :=
  match s with
  | [] => if stop = .markup then some ([], []) else none
  | c :: rest =>
    if stop = .section ∧ sectionEnd.isPrefixOf (c :: rest) then some ([], rest.drop 2)
    else if stop = .quote c then some ([], rest)
    else if stop = .markup ∧ sectionEnd.isPrefixOf (c :: rest) then none
    else if c = '<'.toUInt8 ∧ stop ≠ .section then
      if stop = .markup then some ([], c :: rest) else none
    else if c = '&'.toUInt8 ∧ stop ≠ .section then
      match reference? rest with
      | some (t, k) => (scanText? stop (rest.drop k)).map fun r => (t ++ r.1, r.2)
      | none => none
    else if c = 0x0D then
      let skip := if rest.head? = some 0x0A then 1 else 0
      (scanText? stop (rest.drop skip)).map fun r => (0x0A :: r.1, r.2)
    else (scanText? stop rest).map fun r => (c :: r.1, r.2)
termination_by s.length

/-- The text up to its end, when all its characters are legal. -/
def text? (stop : TextEnd) (s : Bytes) : Option (Bytes × Bytes) := do
  let r ← scanText? stop s
  if isLegal r.1 then some r else none

/-! ## Markup -/

/-- A part of a document. -/
inductive Event where
  | opened (name : Name) (attrs : List Attribute)
  | closed (name : Name)
  | leaf (n : Node)
  deriving Repr

def skipBlanks (s : Bytes) : Bytes := s.dropWhile isBlank

/-- A name and what follows it; something must. -/
def word? (s : Bytes) : Option (Bytes × Bytes) :=
  let w := s.takeWhile isNameByte
  let rest := s.dropWhile isNameByte
  if isName w && !rest.isEmpty then some (w, rest) else none

def name? (s : Bytes) : Option (Name × Bytes) := do
  let (w, rest) ← word? s
  return (← Name.split? w, rest)

def attribute? (s : Bytes) : Option (Attribute × Bytes) := do
  let (name, rest) ← name? s
  match skipBlanks rest with
  | 0x3D :: rest =>
    match skipBlanks rest with
    | q :: rest =>
      if q = '"'.toUInt8 ∨ q = '\''.toUInt8 then
        let (value, rest) ← text? (.quote q) rest
        return (⟨name, value⟩, rest)
      else none
    | [] => none
  | _ => none

/-- Sets an attribute: a second one of the same name replaces the value of the first. -/
def setAttribute (attrs : List Attribute) (a : Attribute) : List Attribute :=
  if attrs.any (·.name == a.name) then
    attrs.map fun b => if b.name == a.name then { b with value := a.value } else b
  else attrs ++ [a]

/-- The attributes of a start tag after those in `attrs`, whether the tag closes its element too,
and what follows. -/
def attributes? (attrs : List Attribute) (s : Bytes) : Option (List Attribute × Bool × Bytes) :=
  match skipBlanks s with
  | 0x2F :: 0x3E :: rest => some (attrs, true, rest)
  | 0x3E :: rest => some (attrs, false, rest)
  | next =>
    match attribute? next with
    | none => none
    | some (a, rest) =>
      if rest.length < s.length then attributes? (setAttribute attrs a) rest else none
termination_by s.length

/-- The quoted value of a parameter in an XML declaration, empty when there is none. -/
def declared (param s : Bytes) : Bytes :=
  (Bytes.firstSome (fun s => do
    let rest ← s.dropStart? (param ++ ("=" : Bytes))
    match rest with
    | q :: value =>
      if q = '"'.toUInt8 ∨ q = '\''.toUInt8 then
        some (if value.contains q then value.takeWhile (· != q) else [])
      else none
    | [] => none) s).getD []

/-- Whether the version of an XML declaration is one that can be read. -/
def isReadable (target content : Bytes) : Bool :=
  target != Bytes.ofString "xml"
    || (declared "version" content).isEmpty || declared "version" content == Bytes.ofString "1.0"

/-- The text of a directive and what follows it, inside `depth` brackets and an optional quote. A
comment inside a directive is read as a space. -/
def directive? (quote : Option UInt8) (depth : Nat) (s : Bytes) : Option (Bytes × Bytes) :=
  match s with
  | [] => none
  | c :: rest =>
    let keep := Option.map fun r : Bytes × Bytes => (c :: r.1, r.2)
    if quote = none ∧ c = '>'.toUInt8 ∧ depth = 0 then some ([], rest)
    else if quote = some c then keep (directive? none depth rest)
    else if quote.isSome then keep (directive? quote depth rest)
    else if c = '\''.toUInt8 ∨ c = '"'.toUInt8 then keep (directive? (some c) depth rest)
    else if c = '>'.toUInt8 then keep (directive? none (depth - 1) rest)
    else if c = '<'.toUInt8 then
      match Bytes.dropStart? rest "!--" with
      | none => keep (directive? none (depth + 1) rest)
      | some inner =>
        match Bytes.cut? inner "-->" with
        | none => none
        | some (_, after) =>
          if after.length < rest.length then
            (directive? none depth after).map fun r => (0x20 :: r.1, r.2)
          else none
    else keep (directive? none depth rest)
termination_by s.length

/-- The parts that the markup after an opening angle bracket makes, and what follows it. -/
def markup? (s : Bytes) : Option (List Event × Bytes) :=
  match s with
  | 0x2F :: rest => do
    let (name, rest) ← name? rest
    match skipBlanks rest with
    | 0x3E :: rest => some ([.closed name], rest)
    | _ => none
  | 0x3F :: rest => do
    let (target, rest) ← word? rest
    let (content, rest) ← Bytes.cut? (skipBlanks rest) "?>"
    if isReadable target content then some ([.leaf (.instruction target content)], rest) else none
  | 0x21 :: 0x2D :: rest =>
    match rest with
    | 0x2D :: rest => do
      let (content, rest) ← Bytes.cut? rest "--"
      match rest with
      | 0x3E :: rest => some ([.leaf (.comment content)], rest)
      | _ => none
    | _ => none
  | 0x21 :: 0x5B :: rest => do
    let rest ← Bytes.dropStart? rest "CDATA["
    let (content, rest) ← text? .section rest
    return ([.leaf (.text content)], rest)
  | 0x21 :: c :: rest => do
    let (content, rest) ← directive? none 0 rest
    return ([.leaf (.directive (c :: content))], rest)
  | s => do
    let (name, rest) ← name? s
    let (attrs, closed, rest) ← attributes? [] rest
    return (.opened name attrs :: (if closed then [.closed name] else []), rest)

def events? (s : Bytes) : Option (List Event) :=
  match s with
  | [] => some []
  | c :: rest =>
    let part :=
      if c = '<'.toUInt8 then markup? rest
      else (text? .markup (c :: rest)).map fun r => ([.leaf (.text r.1)], r.2)
    match part with
    | none => none
    | some (evs, after) =>
      if after.length ≤ rest.length then (events? after).map (evs ++ ·) else none
termination_by s.length

/-! ## The tree -/

/-- An element that is still open, with the nodes in front of it in reverse. -/
structure Frame where
  name : Name
  attrs : List Attribute
  before : List Node

/-- The document that the remaining parts complete, inside the open elements; `done` are the nodes
before them, in reverse. -/
def build? (stack : List Frame) (done : List Node) : List Event → Option (List Node)
  | [] => if stack.isEmpty then some done.reverse else none
  | .opened name attrs :: es => build? (⟨name, attrs, done⟩ :: stack) [] es
  | .leaf n :: es => build? stack (n :: done) es
  | .closed name :: es =>
    match stack with
    | [] => none
    | frame :: stack =>
      if frame.name = name then
        build? stack (.element frame.name frame.attrs done.reverse :: frame.before) es
      else none

def parse? (s : Bytes) : Option (List Node) := do
  build? [] [] (← events? s)

/-- The document that a text is, or the report that it is none. -/
def parse (s : Bytes) : Except Fault (List Node) :=
  match parse? s with
  | some ns => .ok ns
  | none => .error (.plain "markup is not well-formed")

end Flowsmith.Xml
