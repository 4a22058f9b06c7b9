import Flowsmith.Text.Match

/-!
# Names found by text search

The namespace of a source, and the name of a partial class with a base type, as a plain search finds
them: comments and literals count like any other text.

* `searchNamespace` : what follows the first `namespace ` up to a blank or an opening brace;
* `searchPartialClass` : what stands on one line between `partial class ` and ` :`.
-/

namespace Flowsmith.Source

def endsNamespace (c : UInt8) : Bool := Text.isSpace c || c == 0x7B

/-- The first namespace that a text search finds. -/
def searchNamespace (src : Bytes) : Option Bytes := do
  let (_, rest) ← src.cut? "namespace "
  let name := rest.takeWhile (!endsNamespace ·)
  if name.length < rest.length then some name else none

def partialClassAt? (s : Bytes) : Option Bytes := do
  let rest ← s.dropStart? "partial class "
  let (name, _) ← (Text.firstLine rest).cut? " :"
  return name

/-- The name of the first partial class with a base type that a text search finds. -/
def searchPartialClass (src : Bytes) : Option Bytes := Bytes.firstSome partialClassAt? src

end Flowsmith.Source
