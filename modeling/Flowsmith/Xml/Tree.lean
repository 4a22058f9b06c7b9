import Flowsmith.Xml.Name

/-!
# XML documents as trees

A document is a list of nodes. Elements are visited level by level; attributes are found by their
local name whatever their prefix.

* `Node.levels`, `breadthFirst` : the elements level by level;
* `elementsNamed` : those with a name;
* `pruneAll` : the nodes without the elements that match, at every depth;
* `appendTo?` : a child added to the first element with a name, level by level.
-/

namespace Flowsmith.Xml

structure Attribute where
  name : Name
  value : Bytes
  deriving DecidableEq, Repr

inductive Node where
  | element (name : Name) (attrs : List Attribute) (children : List Node)
  | text (s : Bytes)
  | comment (s : Bytes)
  | instruction (target content : Bytes)
  | directive (s : Bytes)
  deriving Repr, Inhabited

/-- An element without its children: a name and attributes. -/
structure Element where
  name : Name
  attrs : List Attribute
  deriving DecidableEq, Repr

namespace Element

/-- The value of the first attribute that a path step means. -/
def attr? (e : Element) (key : Bytes) : Option Bytes :=
  (e.attrs.find? fun a => a.name.isMeantBy (.ofPath key)).map (·.value)

/-- The value of an attribute, empty when it is missing. -/
def attrD (e : Element) (key : Bytes) : Bytes := (e.attr? key).getD []

end Element

def joinLevels {α : Type} : List (List α) → List (List α) → List (List α)
  | [], bs => bs
  | as, [] => as
  | a :: as, b :: bs => (a ++ b) :: joinLevels as bs

mutual

def Node.levels : Node → List (List Element)
  | .element name attrs children => [⟨name, attrs⟩] :: levels children
  | _ => []

def levels : List Node → List (List Element)
  | [] => []
  | n :: ns => joinLevels n.levels (levels ns)

end

def breadthFirst (ns : List Node) : List Element := (levels ns).flatten

/-- The elements that a path step means, level by level. -/
def elementsNamed (step : Bytes) (ns : List Node) : List Element :=
  (breadthFirst ns).filter fun e => e.name.isMeantBy (.ofPath step)

/-- The first element at the top of a document. -/
def root? (ns : List Node) : Option (Name × List Attribute × List Node) :=
  ns.findSome? fun
    | .element name attrs children => some (name, attrs, children)
    | _ => none

mutual

/-- What is left of a node without the elements that match: nothing, or the node without those below
it. -/
def Node.prune (p : Element → Bool) : Node → List Node
  | .element name attrs children =>
    if p ⟨name, attrs⟩ then [] else [.element name attrs (pruneAll p children)]
  | n => [n]

/-- The nodes without the elements that match, at every depth. -/
def pruneAll (p : Element → Bool) : List Node → List Node
  | [] => []
  | n :: ns => n.prune p ++ pruneAll p ns

end

mutual

/-- A child added below a node, `depth` levels down, to the first element there with a name. -/
def Node.appendAt? (step : Name) (child : Node) (depth : Nat) : Node → Option Node
  | .element name attrs children =>
    match depth with
    | 0 =>
      if name.isMeantBy step then some (.element name attrs (children ++ [child])) else none
    | depth + 1 => (appendAt? step child depth children).map (.element name attrs)
  | _ => none

/-- A child added to the first element with a name that stands `depth` levels down. -/
def appendAt? (step : Name) (child : Node) (depth : Nat) : List Node → Option (List Node)
  | [] => none
  | n :: ns =>
    match Node.appendAt? step child depth n with
    | some n' => some (n' :: ns)
    | none => (appendAt? step child depth ns).map (n :: ·)

end

/-- A child added to the first element with a name, level by level. -/
def appendTo? (step : Bytes) (child : Node) (ns : List Node) : Option (List Node) :=
  (List.range (levels ns).length).findSome? fun depth => appendAt? (.ofPath step) child depth ns

def appendToRoot (child : Node) : List Node → List Node
  | [] => []
  | .element name attrs children :: ns => .element name attrs (children ++ [child]) :: ns
  | n :: ns => n :: appendToRoot child ns

end Flowsmith.Xml
