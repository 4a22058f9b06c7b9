import Flowsmith.Fault
import Flowsmith.Report.Style
import Flowsmith.Yaml.Read

/-!
# Reading stylesheets

A stylesheet is a YAML document with two mappings: `colors` names colours, each with a light and a
dark variant, and `styles` names styles. What is not known is passed over; what is known must be
well-formed.

* `Stylesheet.style?` : a style;
* `Stylesheet.read` : the styles of a document.
-/

namespace Flowsmith.Stylesheet

open Yaml (Node)

/-- What stands under a name, nothing when the name is missing. -/
def field (fields : List (Bytes × Node)) (name : Bytes) : Node :=
  ((fields.find? (·.1 == name)).map (·.2)).getD .null

/-- Whether a tree is a colour: texts for its two variants. -/
def isColour (n : Node) : Bool :=
  match n.fields? with
  | some fields => (field fields "light").text?.isSome && (field fields "dark").text?.isSome
  | none => false

def colours? (n : Node) : Option (List Bytes) := do
  let fields ← n.fields?
  if fields.all (fun c => isColour c.2) then some (fields.map (·.1)) else none

/-- The style that a tree is; a colour counts only when it has a name. -/
def style? (colours : List Bytes) (n : Node) : Option Style := do
  let fields ← n.fields?
  let bold ← (field fields "bold").truth?
  let slanted ← (field fields "italic").truth?
  let colour ← (field fields "foreground").text?
  let width ← (field fields "width").whole?
  let indent ← (field fields "paddingLeft").whole?
  return {
    bold := bold
    slanted := slanted
    coloured := !colour.isEmpty && colours.contains colour
    width := width.toNat
    indent := indent.toNat }

def ofNode? (n : Node) : Option Stylesheet := do
  let fields ← n.fields?
  let colours ← colours? (field fields "colors")
  let styles ← (field fields "styles").fields?
  styles.mapM fun s => (style? colours s.2).map (s.1, ·)

def read (s : Bytes) : Except Fault Stylesheet :=
  match (Yaml.read? s).bind ofNode? with
  | some t => .ok t
  | none => .error (.plain "failed to parse styles")

end Flowsmith.Stylesheet
