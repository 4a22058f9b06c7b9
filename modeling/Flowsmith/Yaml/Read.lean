import Flowsmith.Yaml.Text
import Flowsmith.Yaml.Tree

/-!
# Reading YAML

Blocks are told apart by columns: the entries of a mapping and the items of a list stand at one
column, and what belongs to them further to the right. Collections in brackets may be laid out at
will.

* `Yaml.Reader` : a step of reading;
* `Reader.flowNode`, `Reader.node` : a tree in brackets, and one of blocks;
* `Yaml.read?` : the tree of the first document, none when it is malformed.
-/

namespace Flowsmith.Yaml

/-- How far reading has come, with the trees that were given a name. -/
structure Progress where
  place : Place
  anchors : List (Bytes × Node) := []

abbrev Reader := StateT Progress Option

inductive Holder where
  | document
  | key
  | dash
  deriving DecidableEq, Repr

namespace Reader

/-! ## Places -/

def rest : Reader Bytes := return (← get).place.rest

def column : Reader Nat := return (← get).place.column

def moveTo (p : Place) : Reader Unit := modify fun s => { s with place := p }

/-- Passes over characters of a line. -/
def advance (n : Nat) : Reader Unit :=
  modify fun s => { s with place := ⟨s.place.column + n, s.place.rest.drop n⟩ }

def take (result : Option (Bytes × Place)) : Reader Bytes := do
  let (text, p) ← (result : Option _)
  moveTo p
  return text

/-- Passes over blanks, line ends and comments: whether a line has ended, and the place after them.
Tabs are blanks in brackets, and in the rest of a line when `tabs` says so. -/
def passFrom (inside tabs broken comment : Bool) (column : Nat) : Bytes → Bool × Place
  | [] => (broken, ⟨column, []⟩)
  | c :: s =>
    if c = Bytes.newline then passFrom inside inside true false 0 s
    else if comment || c = 0x20 || (c = 0x09 && (inside || tabs)) then
      passFrom inside tabs broken comment (column + 1) s
    else if c = '#'.toUInt8 then passFrom inside tabs broken true (column + 1) s
    else (broken, ⟨column, c :: s⟩)

/-- Passes over blanks, line ends and comments; whether a line has ended. -/
def pass (inside tabs : Bool) : Reader Bool := do
  let p := (← get).place
  let (broken, p) := passFrom inside tabs false false p.column p.rest
  moveTo p
  return broken

def passBlanks : Reader Unit := do
  advance ((← rest).takeWhile isBlankByte).length

def atEnd : Reader Bool := do
  let p := (← get).place
  return p.rest.isEmpty || (p.column = 0 && isMarkerNext p.rest)

def atDash : Reader Bool := do
  match ← rest with
  | 0x2D :: s => return isApart s
  | _ => return false

/-- Fails unless a condition holds. -/
def ensure (b : Bool) : Reader Unit := if b then pure () else failure

/-- What a step has passed over has no line end in it. -/
def onOneLine {α : Type} (step : Reader α) : Reader α := do
  let before ← rest
  let a ← step
  let after ← rest
  ensure (!(before.take (before.length - after.length)).contains Bytes.newline)
  return a

/-! ## Properties -/

/-- What can be said about a tree before it. -/
inductive Property where
  | anchor (name : Bytes)
  | tag (name : Bytes)

/-- The name after `&` or `*`. -/
def name : Reader Bytes := do
  let isNameByte := fun c : UInt8 =>
    Bytes.isLetterByte c || Bytes.isDigitByte c || c == '_'.toUInt8 || c == '-'.toUInt8
  let s ← rest
  let text := s.takeWhile isNameByte
  let after := s.dropWhile isNameByte
  ensure (!text.isEmpty
    && (isApart after || after.head?.any (("?:,]\x7d%@`" : Bytes).contains ·)))
  advance text.length
  return text

def property? : Reader (Option Property) := do
  match ← rest with
  | 0x26 :: _ =>
    advance 1
    return some (.anchor (← name))
  | 0x21 :: s =>
    let text := s.takeWhile fun c =>
      !isBlankByte c && c != Bytes.newline && !bracketMarks.contains c
    advance (text.length + 1)
    return some (.tag text)
  | _ => return none

/-- Applies a property to a tree. A tag says whether a text stands for itself. -/
def attach (p : Property) (n : Node) : Reader Node := do
  match p with
  | .anchor name =>
    modify fun s => { s with anchors := (name, n) :: s.anchors }
    return n
  | .tag tag =>
    match n with
    | .scalar _ text => return .scalar (tag != Bytes.ofString "!str" && !tag.isEmpty) text
    | n => return n

def named : Reader Node := do
  advance 1
  let name ← name
  match (← get).anchors.find? (·.1 == name) with
  | some a => return a.2
  | none => failure

/-- A text between quotes, or a plain text; `least` is the column for its further lines. -/
def scalar (inside : Bool) (least : Nat) : Reader Node := do
  let p := (← get).place
  match p.rest with
  | 0x22 :: s => return .scalar false (← take (doubleText? {} (p.column + 1) s))
  | 0x27 :: s => return .scalar false (← take (singleText? {} (p.column + 1) s))
  | s =>
    ensure (beginsPlain inside s)
    return .scalar true (← take (plainText? inside least {} p.column s))

/-! ## Collections in brackets -/

mutual

def flowNode (fuel least : Nat) : Reader Node := do
  match fuel with
  | 0 => failure
  | fuel + 1 =>
    let _ ← pass true true
    match ← property? with
    | some p => attach p (← flowNode fuel least)
    | none => flowContent fuel least

/-- A tree in brackets, without properties. -/
def flowContent (fuel least : Nat) : Reader Node := do
  match fuel with
  | 0 => failure
  | fuel + 1 =>
    match ← rest with
    | 0x2A :: _ => named
    | 0x5B :: _ => do
      advance 1
      return .list (← flowItems fuel least)
    | 0x7B :: _ => do
      advance 1
      return .ofEntries (← flowFields fuel least)
    | _ => scalar true least

/-- The value after a colon in brackets, nothing when there is none. -/
def flowValue (fuel least : Nat) : Reader Node := do
  match fuel with
  | 0 => failure
  | fuel + 1 =>
    advance 1
    let _ ← pass true true
    match ← rest with
    | 0x2C :: _ => return .null
    | 0x5D :: _ => return .null
    | 0x7D :: _ => return .null
    | _ => flowNode fuel least

def flowItems (fuel least : Nat) : Reader (List Node) := do
  match fuel with
  | 0 => failure
  | fuel + 1 =>
    let _ ← pass true true
    match ← rest with
    | 0x5D :: _ => do
      advance 1
      return []
    | _ =>
      let first ← flowNode fuel least
      let broken ← pass true true
      let item ← match ← rest with
        | 0x3A :: _ => do
          ensure (!broken)
          pure (Node.ofEntries [(first, ← flowValue fuel least)])
        | _ => pure first
      let _ ← pass true true
      match ← rest with
      | 0x2C :: _ => do
        advance 1
        return item :: (← flowItems fuel least)
      | 0x5D :: _ => do
        advance 1
        return [item]
      | _ => failure

/-- The entries up to a closing brace. -/
def flowFields (fuel least : Nat) : Reader (List (Node × Node)) := do
  match fuel with
  | 0 => failure
  | fuel + 1 =>
    let _ ← pass true true
    match ← rest with
    | 0x7D :: _ => do
      advance 1
      return []
    | s =>
      let key ← match s with
        | 0x3A :: _ => pure .null
        | _ => flowNode fuel least
      let broken ← pass true true
      let value ← match ← rest with
        | 0x3A :: _ => do
          ensure (!broken)
          flowValue fuel least
        | _ => pure .null
      let _ ← pass true true
      match ← rest with
      | 0x2C :: _ => do
        advance 1
        return (key, value) :: (← flowFields fuel least)
      | 0x7D :: _ => do
        advance 1
        return [(key, value)]
      | _ => failure

end

/-! ## Blocks -/

def keyNode (fuel : Nat) : Reader Node := do
  match fuel with
  | 0 => failure
  | fuel + 1 =>
    match ← property? with
    | some p =>
      passBlanks
      attach p (← keyNode fuel)
    | none =>
      match ← rest with
      | 0x2A :: _ => named
      | 0x5B :: _ => flowContent fuel 0
      | 0x7B :: _ => flowContent fuel 0
      | _ => scalar false 0

def key (fuel : Nat) : Reader Node := onOneLine do
  let k ← keyNode fuel
  passBlanks
  match ← rest with
  | 0x3A :: s =>
    ensure (isApart s)
    advance 1
    return k
  | _ => failure

/-- A tree that is no block of entries or items; what holds it has the column `parent`. -/
def content (fuel : Nat) (parent : Option Nat) : Reader Node := do
  let least := (parent.map (· + 1)).getD 0
  match ← rest with
  | 0x2A :: _ => named
  | 0x5B :: _ => flowContent fuel least
  | 0x7B :: _ => flowContent fuel least
  | 0x7C :: s => return .scalar false (← take (blockText? false (parent.getD 0) s))
  | 0x3E :: s => return .scalar false (← take (blockText? true (parent.getD 0) s))
  | _ => scalar false least

mutual

/-- A tree of blocks; what holds it has the column `parent`, and `free` says that a block of entries
may begin on this line. -/
def node (fuel : Nat) (holder : Holder) (parent : Option Nat) (free : Bool) : Reader Node := do
  match fuel with
  | 0 => failure
  | fuel + 1 =>
    let broken ← pass false (!free)
    let here ← column
    let free := free || broken
    let isHeld := parent.all (· < here)
    if ← atEnd then return .null
    if free && (isHeld || (holder == .key && parent == some here)) && (← atDash) then
      return .list (← items fuel here)
    if broken && !isHeld then return .null
    if free then
      if let some k ← optional (key fuel) then
        return .ofEntries (← entries fuel here k)
    match ← property? with
    | some p => attach p (← node fuel holder parent false)
    | none => content fuel parent

def entries (fuel here : Nat) (k : Node) : Reader (List (Node × Node)) := do
  match fuel with
  | 0 => failure
  | fuel + 1 =>
    let value ← node fuel .key (some here) false
    let _ ← pass false true
    let next ← column
    if (← atEnd) || next < here then return [(k, value)]
    ensure (next = here)
    return (k, value) :: (← entries fuel here (← key fuel))

def items (fuel here : Nat) : Reader (List Node) := do
  match fuel with
  | 0 => failure
  | fuel + 1 =>
    advance 1
    let item ← node fuel .dash (some here) true
    let _ ← pass false true
    let next ← column
    if (← atEnd) || next < here then return [item]
    ensure (next = here)
    if ← atDash then return item :: (← items fuel here)
    return [item]

end

/-! ## Documents -/

/-- Passes over the lines that begin with a percent sign; whether there are any. -/
def directives : Nat → Reader Bool
  | 0 => failure
  | fuel + 1 => do
    let _ ← pass false false
    match ← get with
    | ⟨⟨0, 0x25 :: s⟩, _⟩ =>
      moveTo ⟨0, s.dropWhile (· != Bytes.newline)⟩
      let _ ← directives fuel
      return true
    | _ => return false

def document (fuel : Nat) : Reader Node := do
  let directed ← directives fuel
  let p := (← get).place
  let marked := p.column = 0 && ("---" : Bytes).isPrefixOf p.rest && isMarkerNext p.rest
  ensure (marked || !directed)
  if marked then advance 3
  let tree ← node fuel .document none (!marked)
  let _ ← pass false true
  ensure (← atEnd)
  return tree

end Reader

/-- Whether a character may stand in a document. -/
def isAllowed (n : Nat) : Bool :=
  n == 0x09 || n == 0x0A || n == 0x0D || n == 0x85 || (0x20 ≤ n && n ≤ 0x7E)
    || (0xA0 ≤ n && n ≤ 0xD7FF) || (0xE000 ≤ n && n ≤ 0xFFFD && n != 0xFEFF) || 0x10000 ≤ n

/-- The tree of the first document of a text, none when it is malformed. -/
def read? (s : Bytes) : Option Node :=
  let s := (Bytes.dropStart? s [0xEF, 0xBB, 0xBF]).getD s
  if Utf8.isValid s && (Utf8.runes s).all (fun r => isAllowed r.1) then
    let s := Bytes.replaceByte (Bytes.replaceAll s "\r\n" "\n") 0x0D "\n"
    ((Reader.document (4 * s.length + 8)).run { place := ⟨0, s⟩ }).map (·.1)
  else none

end Flowsmith.Yaml
