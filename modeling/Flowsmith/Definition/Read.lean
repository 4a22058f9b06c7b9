import Flowsmith.Definition.Node
import Flowsmith.Settings.Model
import Flowsmith.Xml.Reader

/-!
# Reading definitions

A definition is written as markup. The vocabulary names the elements that carry structure; they have
no prefix. An element with a point in its name describes its parent and is no activity, unless it is
a condition.

* `Vocabulary.classify?` : the kind of an element;
* `declarations` : the prefixes that elements declare, in document order;
* `convertNode` : an element as an activity;
* `read` : a definition from markup.
-/

namespace Flowsmith.Definition

/-- The names of the elements that carry structure. -/
structure Vocabulary where
  sequences : List Bytes
  conditional : Bytes
  branch : Bytes
  conditions : List Bytes
  deriving DecidableEq, Repr

namespace Vocabulary

def ofSettings (s : Settings.Flow) : Vocabulary :=
  ⟨s.sequenceElements, s.conditionalElement, s.branchElement, s.conditionElements⟩

/-- The kind of an element, none when it is no activity. -/
def classify? (v : Vocabulary) (n : Xml.Name) : Option Kind :=
  if n.space.isEmpty && v.conditions.contains n.tag then some .condition
  else if n.space.isEmpty && n.tag == v.conditional then some .conditional
  else if n.space.isEmpty && n.tag == v.branch then some .branch
  else if n.space.isEmpty && v.sequences.contains n.tag then some .sequence
  else if n.tag.contains '.'.toUInt8 then none
  else some .step

end Vocabulary

def declarationWord : Bytes := "xmlns"

def declaredBy (attrs : List Xml.Attribute) : Bindings :=
  (attrs.filter (·.name.space == declarationWord)).map fun a => (a.name.tag, a.value)

mutual

/-- The prefixes that a node and the nodes below it declare, in document order. -/
def nodeDeclarations : Xml.Node → Bindings
  | .element _ attrs children => declaredBy attrs ++ declarations children
  | _ => []

/-- The prefixes that nodes declare, in document order. -/
def declarations : List Xml.Node → Bindings
  | [] => []
  | n :: ns => nodeDeclarations n ++ declarations ns

end

/-- The attributes of an activity: all that declare no prefix. -/
def ownAttributes (attrs : List Xml.Attribute) : List (Bytes × Bytes) :=
  let declares := fun n : Xml.Name =>
    n.space == declarationWord || (n.space.isEmpty && n.tag == declarationWord)
  (attrs.filter fun a => !declares a.name).map fun a => (a.name.full, a.value)

mutual

/-- A node as an activity; a node that is no activity is left out with all that is below it. -/
def convertNode (v : Vocabulary) : Xml.Node → List Node
  | .element name attrs children =>
    match v.classify? name with
    | some kind => [.mk kind name.tag name.space (ownAttributes attrs) (convertAll v children)]
    | none => []
  | _ => []

def convertAll (v : Vocabulary) : List Xml.Node → List Node
  | [] => []
  | n :: ns => convertNode v n ++ convertAll v ns

end

def ofNodes (v : Vocabulary) (ns : List Xml.Node) : Except Fault Document :=
  match Xml.root? ns with
  | none => .error (.new .markupParse "definition markup has no root element")
  | some (name, attrs, children) =>
    if v.classify? name = some .sequence then
      .ok {
        root? := some
          (.mk .sequence name.tag name.space (ownAttributes attrs) (convertAll v children))
        bindings := declaredBy attrs ++ declarations children }
    else
      .error (.new .malformed
        (("root element " : Bytes) ++ name.full ++ (" is not a sequence container" : Bytes))
        [("element", .text name.full)])

def read (v : Vocabulary) (markup : Bytes) : Except Fault Document :=
  match Xml.parse markup with
  | .ok ns => ofNodes v ns
  | .error f => .error (f.wrap .markupParse "failed to read definition markup")

end Flowsmith.Definition
