import Flowsmith.Toml.Number

/-!
# Tokens of settings files

A settings file is a list of tokens. What a character begins depends on the place: outside of values
it begins a heading or a key, and inside it begins a value. A line end leads back outside, except in
a list.

* `Toml.basicText?`, `Toml.literalText?` : texts between quotes;
* `Toml.keyText?` : a key, with its quotes and without escapes;
* `Toml.tokens?` : all tokens.
-/

namespace Flowsmith.Toml

open Settings (Value)

inductive Token where
  | key (text : Runes)
  | equals
  | comma
  /-- A heading of a table. -/
  | heading (text : Runes)
  /-- A heading of an item of a list of tables. -/
  | itemHeading (text : Runes)
  | openList
  | closeList
  | openTable
  | closeTable
  | scalar (v : Value)
  | day (text : Runes)
  | clock (text : Runes)
  | offset (text : Runes)

inductive Bracket where
  | list
  | table
  deriving DecidableEq, Repr

/-- Where a character stands. -/
inductive Place where
  | outside
  | inside
  deriving DecidableEq, Repr

/-! ## Texts -/

abbrev quote : Nat := 0x22

abbrev tick : Nat := 0x27

/-- A code point, or the replacement character for what is none. -/
def codePoint (n : Nat) : Nat :=
  if 0x10FFFF < n ∨ (0xD800 ≤ n ∧ n ≤ 0xDFFF) then Utf8.replacement else n

/-- The code point that `width` hexadecimal digits write, and the rest. -/
def hexRune? (width : Nat) (cs : Runes) : Option (Runes × Runes) :=
  let digits := cs.take width
  if digits.length = width ∧ digits.all (isDigitOf 16) then
    (Text.digitsValue? 16 (encode digits)).map fun n => ([codePoint n], cs.drop width)
  else none

/-- What stands after a backslash: a letter or a number for a character, or blanks that are passed
over. -/
def escape? : Runes → Option (Runes × Runes)
  | [] => none
  | c :: cs =>
    let isBlank := fun n => n == 0x0D || n == 0x0A || isSpace n
    if isBlank c then some ([], cs.dropWhile isBlank)
    else if c = quote ∨ c = '/'.toNat ∨ c = '\\'.toNat then some ([c], cs)
    else if c = 'n'.toNat then some ([0x0A], cs)
    else if c = 't'.toNat then some ([0x09], cs)
    else if c = 'r'.toNat then some ([0x0D], cs)
    else if c = 'b'.toNat then some ([0x08], cs)
    else if c = 'f'.toNat then some ([0x0C], cs)
    else if c = 'u'.toNat then hexRune? 4 cs
    else if c = 'U'.toNat then hexRune? 8 cs
    else none

/-- Whether a character may stand between quotes. -/
def fitsText (lines : Bool) (c : Nat) : Bool :=
  0x20 ≤ c || c == 0x09 || (lines && (c == 0x0A || c == 0x0D))

/-- The text up to closing double quotes, without its escapes, and the rest; `lines` allows line
ends. -/
def basicText? (close : Runes) (lines : Bool) (cs : Runes) : Option (Runes × Runes) :=
  match cs with
  | [] => none
  | c :: rest =>
    if close.isPrefixOf (c :: rest) then some ([], (c :: rest).drop close.length)
    else if c = '\\'.toNat then
      match escape? rest with
      | some (text, after) =>
        if after.length ≤ rest.length then
          (basicText? close lines after).map fun (t, r) => (text ++ t, r)
        else none
      | none => none
    else if fitsText lines c then (basicText? close lines rest).map fun (t, r) => (c :: t, r)
    else none
termination_by cs.length

/-- The text up to closing single quotes, and the rest. -/
def literalText? (close : Runes) : Runes → Option (Runes × Runes)
  | [] => none
  | c :: cs =>
    if close.isPrefixOf (c :: cs) then some ([], (c :: cs).drop close.length)
    else (literalText? close cs).map fun (t, r) => (c :: t, r)

/-- A text without the line end that it begins with. -/
def dropLineEnd : Runes → Runes
  | 0x0D :: 0x0A :: cs => cs
  | 0x0A :: cs => cs
  | cs => cs

/-- The text after an opening quote, one of three or one alone, and the rest. -/
def text? (mark : Nat) (cs : Runes) : Option (Runes × Runes) :=
  let long := [mark, mark].isPrefixOf cs
  let close := if long then [mark, mark, mark] else [mark]
  let body := if long then dropLineEnd (cs.drop 2) else cs
  if mark = tick then literalText? close body else basicText? close long body

/-! ## Keys and headings -/

/-- A character of a key without quotes. -/
def isBare (c : Nat) : Bool := isLetter c || isDigit c || c == line || c == '-'.toNat

/-- A key with its quotes and without escapes, and the rest. A space ends it unless a point
follows. -/
def keyText? (cs : Runes) : Option (Runes × Runes) :=
  match cs with
  | [] => some ([], [])
  | c :: rest =>
    if c = '='.toNat then some ([], c :: rest)
    else if c = quote ∨ c = tick then
      match (if c = quote then basicText? [c] true rest else literalText? [c] rest) with
      | some (text, after) =>
        if after.length ≤ rest.length then
          (keyText? after).map fun (t, r) => (c :: text ++ c :: t, r)
        else none
      | none => none
    else if isSpace c then
      let blanks := rest.takeWhile isSpace
      match h : rest.dropWhile isSpace with
      | d :: after =>
        if d = '.'.toNat then
          have shorter : (after.dropWhile isSpace).length < rest.length := by
            have le := length_dropWhile_le isSpace rest
            rw [h, List.length_cons] at le
            exact Nat.lt_of_le_of_lt (length_dropWhile_le isSpace after) le
          let more := after.takeWhile isSpace
          (keyText? (after.dropWhile isSpace)).map fun (t, r) =>
            (0x20 :: blanks ++ d :: more ++ t, r)
        else some ([], d :: after)
      | [] => some ([], [])
    else if c = '.'.toNat ∨ isBare c then (keyText? rest).map fun (t, r) => (c :: t, r)
    else none
termination_by cs.length

/-- The heading after an opening bracket, and the rest. -/
def heading? (cs : Runes) : Option (Token × Runes) :=
  let isItem := cs.head? == some '['.toNat
  let body := if isItem then cs.drop 1 else cs
  let isText := fun c => c != '['.toNat && c != ']'.toNat
  let text := body.takeWhile isText
  match body.dropWhile isText with
  | 0x5D :: rest =>
    if text.isEmpty then none
    else if isItem then
      match rest with
      | 0x5D :: rest => some (.itemHeading text, rest)
      | _ => none
    else some (.heading text, rest)
  | _ => none

/-! ## Dates and times -/

/-- The tokens of a time of day with the distance of a time zone, and the rest. -/
def clockTokens? (cs : Runes) : Option (List Token × Runes) := do
  let (clock, rest) ← clockText? cs
  let (offset, rest) ← offsetText? rest
  return (.clock clock :: (offset.map Token.offset).toList, rest)

/-- Whether a time of day stands after a day and the character between them. -/
def isTimeNext (mark : Nat) (cs : Runes) : Bool :=
  mark == 'T'.toNat || (mark == 0x20 && (cs.take 2).length == 2 && (cs.take 2).all isDigit)

def dayTokens? (cs : Runes) : Option (List Token × Runes) := do
  let (day, rest) ← dayText? cs
  match rest with
  | mark :: after =>
    if isTimeNext mark after then
      let (more, rest) ← clockTokens? after
      return (.day day :: more, rest)
    else return ([.day day], rest)
  | [] => return ([.day day], [])

def digitTokens? (cs : Runes) : Option (List Token × Runes) :=
  let digits := cs.takeWhile isDigit
  let next := (cs.drop digits.length).head?
  if digits.length = 2 ∧ next = some ':'.toNat then
    (clockText? cs).map fun (text, rest) => ([.clock text], rest)
  else if digits.length = 4 ∧ next = some '-'.toNat then dayTokens? cs
  else (number? cs).map fun (v, rest) => ([.scalar v], rest)

/-! ## Tokens -/

/-- What a character begins: tokens, the place after them, what is open then, and the rest. -/
structure Step where
  tokens : List Token := []
  place : Place
  brackets : List Bracket
  rest : Runes

def afterComment (cs : Runes) : Runes := cs.dropWhile (· != 0x0A)

def close? (b : Bracket) (t : Token) (brackets : List Bracket) (rest : Runes) : Option Step :=
  match brackets with
  | top :: below => if top = b then some ⟨[t], .inside, below, rest⟩ else none
  | [] => none

def outsideStep (brackets : List Bracket) (c : Nat) (cs : Runes) : Option Step :=
  if c = '\x7d'.toNat then close? .table .closeTable brackets cs
  else if c = '['.toNat then
    (heading? cs).map fun (t, rest) => ⟨[t], .outside, brackets, rest⟩
  else if c = '#'.toNat then some ⟨[], .outside, brackets, afterComment cs⟩
  else if c = '='.toNat then some ⟨[.equals], .inside, brackets, cs⟩
  else if c = 0x0D ∨ c = 0x0A ∨ isSpace c then some ⟨[], .outside, brackets, cs⟩
  else (keyText? (c :: cs)).map fun (text, rest) => ⟨[.key text], .outside, brackets, rest⟩

def words : List (String × Value) :=
  [("true", .flag true), ("false", .flag false), ("inf", .real (.infinite false)),
   ("nan", .real .invalid)]

/-- The word that a text begins with, and the rest. -/
def word? (cs : Runes) : Option (Value × Runes) :=
  (words.find? fun w => (runes w.1).isPrefixOf cs).map fun w => (w.2, cs.drop w.1.length)

def insideStep (brackets : List Bracket) (c : Nat) (cs : Runes) : Option Step :=
  let inTable := brackets.head? == some Bracket.table
  let inList := brackets.head? == some Bracket.list
  if c = '='.toNat then some ⟨[.equals], .inside, brackets, cs⟩
  else if c = '['.toNat then some ⟨[.openList], .inside, .list :: brackets, cs⟩
  else if c = ']'.toNat then close? .list .closeList brackets cs
  else if c = '\x7b'.toNat then some ⟨[.openTable], .outside, .table :: brackets, cs⟩
  else if c = '\x7d'.toNat then close? .table .closeTable brackets cs
  else if c = '#'.toNat then some ⟨[], .inside, brackets, afterComment cs⟩
  else if c = quote ∨ c = tick then
    (text? c cs).map fun (text, rest) => ⟨[.scalar (.text (encode text))], .inside, brackets, rest⟩
  else if c = ','.toNat then
    some ⟨[.comma], if inTable then .outside else .inside, brackets, cs⟩
  else if c = 0x0D ∨ c = 0x0A then
    some ⟨[], if inList then .inside else .outside, brackets, cs⟩
  else if isSpace c then some ⟨[], .inside, brackets, cs⟩
  else
    match word? (c :: cs) with
    | some (v, rest) => some ⟨[.scalar v], .inside, brackets, rest⟩
    | none =>
      if c = '+'.toNat ∨ c = '-'.toNat then
        (number? (c :: cs)).map fun (v, rest) => ⟨[.scalar v], .inside, brackets, rest⟩
      else if isDigit c then
        (digitTokens? (c :: cs)).map fun (ts, rest) => ⟨ts, .inside, brackets, rest⟩
      else none

/-- The tokens of a text from a place on; none when some character begins nothing. -/
def tokensFrom? (place : Place) (brackets : List Bracket) (cs : Runes) : Option (List Token) :=
  match cs with
  | [] => some []
  | c :: rest =>
    match (match place with
      | .outside => outsideStep brackets c rest
      | .inside => insideStep brackets c rest) with
    | some s =>
      if s.rest.length ≤ rest.length then
        (tokensFrom? s.place s.brackets s.rest).map (s.tokens ++ ·)
      else none
    | none => none
termination_by cs.length

def tokens? (cs : Runes) : Option (List Token) := tokensFrom? .outside [] cs

end Flowsmith.Toml
