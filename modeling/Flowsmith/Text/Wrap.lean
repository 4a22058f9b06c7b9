import Flowsmith.Text.Columns

/-!
# Word wrap

Breaking a text into lines of at most so many columns: between words where that is possible, after a
hyphen, and inside a word that is longer than a line.

* `Text.Wrapper` : the line under construction;
* `Text.wrap` : the whole text.
-/

namespace Flowsmith.Text

/-- A text under construction: the lines so far, and a word with the spaces before it that has not
found its line. -/
structure Wrapper where
  out : Bytes := []
  /-- The spaces after the current line. -/
  blanks : Nat := 0
  word : Bytes := []
  /-- The columns of the current line. -/
  column : Nat := 0
  /-- The columns of the word. -/
  wordColumns : Nat := 0

namespace Wrapper

/-- Puts the spaces on the current line. -/
def addBlanks (w : Wrapper) : Wrapper :=
  { w with out := w.out ++ Bytes.spaces w.blanks, column := w.column + w.blanks, blanks := 0 }

/-- Puts the word on the current line, with the spaces before it. -/
def addWord (w : Wrapper) : Wrapper :=
  if w.word.isEmpty then w
  else
    let w := w.addBlanks
    { w with
      out := w.out ++ w.word
      column := w.column + w.wordColumns
      word := []
      wordColumns := 0 }

/-- Ends the current line; spaces at its end are dropped. -/
def endLine (w : Wrapper) : Wrapper :=
  { w with out := w.out ++ [Bytes.newline], column := 0, blanks := 0 }

/-- Puts spaces that no word follows on the current line, when they fit. -/
def keepBlanks (limit : Nat) (w : Wrapper) : Wrapper :=
  if w.wordColumns ≠ 0 then w
  else if limit < w.column + w.blanks then { w with column := 0, blanks := 0 }
  else { w with out := w.out ++ Bytes.spaces w.blanks, blanks := 0 }

/-- Adds a character to the word; the line ends when the word no longer fits on it. -/
def extend (limit size : Nat) (raw : Bytes) (w : Wrapper) : Wrapper :=
  let w := if limit < w.wordColumns + size then w.addWord else w
  let w := { w with word := w.word ++ raw, wordColumns := w.wordColumns + size }
  if limit < w.column + w.wordColumns + w.blanks then w.endLine else w

def add (limit : Nat) (w : Wrapper) (rune : Nat × Bytes) : Wrapper :=
  let (n, raw) := rune
  let size := columnsOf n
  if n = 0x0A then ((w.keepBlanks limit).addWord).endLine
  else if size = 0 then { w with word := w.word ++ raw }
  else if n = 0x20 then
    let w := w.addWord
    { w with blanks := w.blanks + 1 }
  else if n = 0x2D then
    let w := w.addBlanks
    if w.column + w.wordColumns + size ≤ limit then
      let w := w.addWord
      { w with out := w.out ++ raw, column := w.column + size }
    else w.extend limit size raw
  else w.extend limit size raw

end Wrapper

/-- A text without tabs in lines of at most `limit` columns; it is kept when there is no column. -/
def wrap (limit : Nat) (s : Bytes) : Bytes :=
  if limit = 0 then s
  else (((Utf8.runes s).foldl (Wrapper.add limit) {}).keepBlanks limit).addWord.out

end Flowsmith.Text
