import Flowsmith.Project.Items

/-!
# Registered workflows

A workflow configuration file registers workflows: elements `add` with a name and the type of the
class, written as its full name, a comma and the assembly.

* `Registry.ofBytes`, `Registry.load` : reading;
* `Registry.lookup?` : the registered name of a class.
-/

namespace Flowsmith

/-- The registered workflows, as pairs of name and type. -/
structure Registry where
  path : Bytes
  entries : List (Bytes × Bytes) := []
  deriving DecidableEq, Repr

namespace Registry

/-- The registration that an element makes: one with a type. -/
def entry? (e : Xml.Element) : Option (Bytes × Bytes) :=
  (e.attr? "type").map fun type => (e.attrD "name", type)

def ofBytes (path data : Bytes) : Except Fault Registry :=
  let body := if Project.byteOrderMark.isPrefixOf data then data.drop 3 else data
  match Xml.parse body with
  | .error f =>
    .error (f.wrap .markupParse (("failed to parse workflow configuration " : Bytes) ++ path)
      [("file", .text path)])
  | .ok nodes => .ok { path := path, entries := (Xml.elementsNamed "add" nodes).filterMap entry? }

/-- The registered name of a class: that of the first registration with a name whose type mentions
the full name of the class and a comma. -/
def lookup? (r : Registry) (space cls : Bytes) : Option Bytes :=
  let needle := space ++ ("." : Bytes) ++ cls ++ ("," : Bytes)
  (r.entries.find? fun e => Bytes.includes e.2 needle && !e.1.isEmpty).map (·.1)

variable {σ : Type} [FileStore σ]

def load (path : Bytes) : FileM σ Registry := do
  let data ← tryCatch (FileStore.read path) fun f =>
    throw (f.wrap .fileAccess (("failed to read workflow configuration " : Bytes) ++ path)
      [("file", .text path)])
  MonadExcept.ofExcept (ofBytes path data)

end Registry

end Flowsmith
