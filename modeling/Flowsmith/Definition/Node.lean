import Flowsmith.Fault
import Flowsmith.Text.Blank
import Flowsmith.Text.Quoted

/-!
# Workflow definitions

A definition is a tree of activities. The structure of a workflow is made of sequences,
conditionals, the branches of a conditional and the conditions of a branch; everything else is a
step. A step with a prefix belongs to the code namespace that the definition declares for the
prefix.

* `Node`, `Document` : definitions;
* `Bindings.resolve` : the code namespace of a prefix.
-/

namespace Flowsmith.Definition

/-- What an activity is in the structure of a workflow. -/
inductive Kind where
  | step
  | sequence
  | conditional
  | branch
  | condition
  /-- Nothing a workflow is made of. -/
  | unknown
  deriving DecidableEq, Repr

namespace Kind

def name : Kind → String
  | step => "step"
  | sequence => "sequence"
  | conditional => "conditional"
  | branch => "branch"
  | condition => "condition"
  | unknown => "unknown"

end Kind

/-- An activity with the activities below it. Attributes are keyed by their full names. -/
inductive Node where
  | mk (kind : Kind) (tag space : Bytes) (attrs : List (Bytes × Bytes)) (children : List Node)
  deriving Repr

instance : Inhabited Node := ⟨.mk .step [] [] [] []⟩

namespace Node

def kind : Node → Kind
  | mk k _ _ _ _ => k

def tag : Node → Bytes
  | mk _ t _ _ _ => t

def space : Node → Bytes
  | mk _ _ s _ _ => s

def attrs : Node → List (Bytes × Bytes)
  | mk _ _ _ as _ => as

def children : Node → List Node
  | mk _ _ _ _ cs => cs

def name (n : Node) : Bytes :=
  if n.space.isEmpty then n.tag else n.space ++ [0x3A] ++ n.tag

def attr? (n : Node) (key : Bytes) : Option Bytes := (n.attrs.find? (·.1 == key)).map (·.2)

/-- What an activity is called in messages: its own name when it has one, or else its written
name. -/
def id (n : Node) : Bytes :=
  match n.attr? "x:Name" with
  | some v => if v.isEmpty then n.name else v
  | none => n.name

end Node

/-- The prefixes a definition declares, with their addresses; the first declaration of a prefix
counts. -/
abbrev Bindings := List (Bytes × Bytes)

structure Document where
  root? : Option Node := none
  bindings : Bindings := []
  deriving Repr

namespace Bindings

def address? (b : Bindings) (space : Bytes) : Option Bytes := (b.find? (·.1 == space)).map (·.2)

def entries : Bindings → Bindings
  | [] => []
  | d :: ds => d :: (entries ds).filter (·.1 != d.1)

/-- What stands in front of the code namespace in an address. -/
def marker : Bytes := "clr-namespace:"

def codeNamespace (s : Bytes) : Bytes := Bytes.trim (s.takeWhile (· != ';'.toUInt8))

/-- The fault that a prefix cannot be resolved. -/
def unresolved (space what : Bytes) (details : List (Bytes × Detail)) : Fault :=
  .new .namespaceLookup
    (("namespace prefix " : Bytes) ++ Text.quoted space ++ (" " : Bytes) ++ what)
    (("prefix", .text space) :: details)

/-- The code namespace that is bound to a prefix. -/
def resolve (b : Bindings) (space : Bytes) : Except Fault Bytes :=
  match b.address? space with
  | none => .error (unresolved space "is not declared" [])
  | some uri =>
    match Bytes.cut? uri marker with
    | none =>
      .error (unresolved space (("does not declare a " : Bytes) ++ marker) [("uri", .text uri)])
    | some (_, rest) =>
      let ns := codeNamespace rest
      if ns.isEmpty then
        .error (unresolved space (("declares an empty " : Bytes) ++ marker) [("uri", .text uri)])
      else .ok ns

end Bindings

end Flowsmith.Definition
