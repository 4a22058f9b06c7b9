import Flowsmith.Text.Category
import Flowsmith.Text.Utf8

/-!
# Tokens of a source

A source is cut into tokens; only blanks lie between them. Comments and preprocessor lines are
tokens too, so that they can be attached to the declaration they precede. Nothing is rejected: a
literal or comment that is not closed ends with its line or with the source.

* `lexeme` : the kind and the size of the token that begins with a given byte;
* `tokens` : the tokens of a source, in order.
-/

namespace Flowsmith.Source

inductive TokenKind where
  | word
  | mark
  | string
  | character
  | number
  | comment
  | directive
  deriving DecidableEq, Repr

/-- A token: its kind, its text and the offset at which it starts. -/
structure Token where
  kind : TokenKind
  text : Bytes
  start : Nat
  deriving DecidableEq, Repr

namespace Token

def stop (t : Token) : Nat := t.start + t.text.length

/-- Whether the token is the word or mark `w`; literals and comments never are. -/
def is (t : Token) (w : Bytes) : Bool := (t.kind == .word || t.kind == .mark) && t.text == w

def isWord (t : Token) : Bool := t.kind == .word

def isTrivia (t : Token) : Bool := t.kind == .comment || t.kind == .directive

end Token

/-! ## Sizes of lexemes -/

/-- A blank between tokens other than the line feed. -/
def isGap (c : UInt8) : Bool := c == 0x20 || c == 0x09 || c == 0x0D || c == 0x0C || c == 0x0B

def isWordStart (n : Nat) : Bool := n == 0x5F || Text.isLetter n

def isWordPart (n : Nat) : Bool := n == 0x5F || Text.isLetter n || Text.isDigit n

/-- The number of bytes up to the end of the line. -/
def lineSize (s : Bytes) : Nat := (s.takeWhile (· != Bytes.newline)).length

/-- The number of bytes through the end of a comment that has been opened. -/
def commentSize : Bytes → Nat
  | [] => 0
  | [_] => 1
  | a :: b :: s => if a = '*'.toUInt8 ∧ b = '/'.toUInt8 then 2 else commentSize (b :: s) + 1

/-- The number of bytes through the closing quote of a literal with backslash escapes. A literal
that is not closed ends with its line. -/
def quotedSize (quote : UInt8) : Bytes → Nat
  | [] => 0
  | c :: s =>
    if c = '\\'.toUInt8 then
      match s with
      | [] => 1
      | _ :: s => quotedSize quote s + 2
    else if c = quote then 1
    else if c = Bytes.newline then 0
    else quotedSize quote s + 1

/-- The number of bytes through the closing quote of a literal in which a quote is written twice. -/
def verbatimSize : Bytes → Nat
  | [] => 0
  | c :: s =>
    if c = '"'.toUInt8 then
      match s with
      | [] => 1
      | d :: s => if d = '"'.toUInt8 then verbatimSize s + 2 else 1
    else verbatimSize s + 1

/-- The number of bytes of the word parts at the beginning. -/
def wordSize (s : Bytes) : Nat :=
  match s with
  | [] => 0
  | c :: rest =>
    let first := Utf8.decode (c :: rest)
    if isWordPart first.1 then first.2 + wordSize (rest.drop (first.2 - 1)) else 0
termination_by s.length

/-- The number of bytes that continue a number; each byte counts as a code point of its own. -/
def numberSize (s : Bytes) : Nat :=
  (s.takeWhile fun c => isWordPart c.toNat || c == '.'.toUInt8).length

/-- The size of the string literal that begins with `c`, less one. -/
def stringSize? (c : UInt8) (s : Bytes) : Option Nat :=
  if c = '"'.toUInt8 then some (quotedSize '"'.toUInt8 s)
  else if c = '@'.toUInt8 then
    match s with
    | a :: s =>
      if a = '"'.toUInt8 then some (verbatimSize s + 1)
      else match s with
        | b :: s => if a = '$'.toUInt8 ∧ b = '"'.toUInt8 then some (verbatimSize s + 2) else none
        | [] => none
    | [] => none
  else if c = '$'.toUInt8 then
    match s with
    | a :: s =>
      if a = '"'.toUInt8 then some (quotedSize '"'.toUInt8 s + 1)
      else match s with
        | b :: s => if a = '@'.toUInt8 ∧ b = '"'.toUInt8 then some (verbatimSize s + 2) else none
        | [] => none
    | [] => none
  else none

/-- The kind of the token that begins with `c`, and the number of its bytes after `c`; `fresh` says
that only blanks precede it on its line. -/
def lexeme (fresh : Bool) (c : UInt8) (s : Bytes) : TokenKind × Nat :=
  if c = '#'.toUInt8 ∧ fresh then (.directive, lineSize s)
  else if c = '/'.toUInt8 ∧ s.head? = some '/'.toUInt8 then (.comment, lineSize s)
  else if c = '/'.toUInt8 ∧ s.head? = some '*'.toUInt8 then (.comment, commentSize s.tail + 1)
  else match stringSize? c s with
    | some k => (.string, k)
    | none =>
      if c = '\''.toUInt8 then (.character, quotedSize '\''.toUInt8 s)
      else if Bytes.isDigitByte c then (.number, numberSize s)
      else if c = '@'.toUInt8 then
        match wordSize s with
        | 0 => (.mark, 0)
        | k + 1 => (.word, k + 1)
      else if isWordStart (Utf8.decode (c :: s)).1 then (.word, wordSize (c :: s) - 1)
      else if c = '='.toUInt8 ∧ s.head? = some '>'.toUInt8 then (.mark, 1)
      else (.mark, (Utf8.decode (c :: s)).2 - 1)

/-! ## Tokens -/

/-- The tokens of the text `s` that lies at offset `pos`; `fresh` says that only blanks precede it
on its line. -/
def tokensFrom (pos : Nat) (fresh : Bool) (s : Bytes) : List Token :=
  match s with
  | [] => []
  | c :: rest =>
    if c = Bytes.newline then tokensFrom (pos + 1) true rest
    else if isGap c then tokensFrom (pos + 1) fresh rest
    else
      let next := lexeme fresh c rest
      let text := c :: rest.take next.2
      ⟨next.1, text, pos⟩ :: tokensFrom (pos + text.length) false (rest.drop next.2)
termination_by s.length

def tokens (src : Bytes) : List Token := tokensFrom 0 true src

end Flowsmith.Source
