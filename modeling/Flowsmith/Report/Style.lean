import Flowsmith.Text.Wrap

/-!
# Styles

How a piece of text is set on a terminal without colours. What is left of a style there is its width
and its indentation; that it is bold, slanted or coloured only decides whether the text is laid out
at all.

* `Style.render` : a text in a style;
* `Stylesheet.render` : a text in the style with a name;
* `Stylesheet.default` : the styles of reports.
-/

namespace Flowsmith

structure Style where
  bold : Bool := false
  slanted : Bool := false
  coloured : Bool := false
  /-- The least number of columns, zero when none is asked for. -/
  width : Nat := 0
  indent : Nat := 0
  deriving DecidableEq, Repr

namespace Style

def isPlain (s : Style) : Bool := s == {}

def expandTabs (text : Bytes) : Bytes := Bytes.replaceByte text 0x09 (Bytes.spaces 4)

/-- A line with spaces at its end, up to a width. -/
def padLine (width : Nat) (line : Bytes) : Bytes :=
  line ++ Bytes.spaces (width - Text.columns line)

/-- A text whose lines all have the width of the widest one, and `width` at least. -/
def square (width : Nat) (lines : List Bytes) : List Bytes :=
  let widest := (lines.map Text.columns).foldl max width
  lines.map (padLine widest)

def render (s : Style) (text : Bytes) : Bytes :=
  let text := expandTabs text
  if s.isPlain then text
  else
    let text := Bytes.replaceAll text "\r\n" [Bytes.newline]
    let text := if s.width = 0 then text else Text.wrap (s.width - s.indent) text
    let lines := (Bytes.lines text).map (Bytes.spaces s.indent ++ ·)
    let lines := if lines.length ≤ 1 && s.width = 0 then lines else square s.width lines
    Bytes.joinWith [Bytes.newline] lines

end Style

abbrev Stylesheet := List (Bytes × Style)

namespace Stylesheet

/-- The style with a name; an unknown name has the style that asks for nothing. -/
def get (t : Stylesheet) (name : Bytes) : Style := ((t.find? (·.1 == name)).map (·.2)).getD {}

def render (t : Stylesheet) (name text : Bytes) : Bytes := (t.get name).render text

/-- The styles of reports: those of their parts, and those of the actions. -/
def default : Stylesheet :=
  [("Header", { bold := true, coloured := true }),
   ("Root", { coloured := true }),
   ("DryRun", { bold := true, coloured := true }),
   ("generate", { coloured := true, width := 9 }),
   ("rewrite", { coloured := true, width := 9 }),
   ("remove", { coloured := true, width := 9 }),
   ("project", { coloured := true, width := 9 }),
   ("Path", { bold := true }),
   ("Detail", { coloured := true, slanted := true }),
   ("Warning", { coloured := true })]

end Stylesheet

end Flowsmith
