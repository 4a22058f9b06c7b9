import Flowsmith.Yaml.Scalar

/-!
# YAML trees

What a YAML document says: texts, lists and mappings. A mapping may take over entries of other
mappings, which are named under the key `<<`; its own entries go first.

* `Yaml.Node` : a tree;
* `Node.ofEntries` : a mapping with what it takes over;
* `Node.fields?` : the entries of a mapping by text;
* `Node.text?`, `Node.truth?`, `Node.whole?` : what a text stands for.
-/

namespace Flowsmith.Yaml

/-- A tree of a YAML document. -/
inductive Node where
  /-- A text; a plain one may stand for something else. -/
  | scalar (plain : Bool) (text : Bytes)
  | list (items : List Node)
  | map (entries : List (Node × Node))
  deriving Repr

namespace Node

def null : Node := .scalar true []

def isNull : Node → Bool
  | .scalar true s => resolve s == .null
  | _ => false

/-- The text of a key, as far as two keys are told apart by it. -/
def keyText : Node → Option Bytes
  | .scalar _ s => some s
  | _ => none

/-! ## Mappings -/

/-- Whether a key names mappings to take over. -/
def isMerge (k : Node) : Bool := k.keyText == some (Bytes.ofString "<<")

/-- The entries that are taken over from what stands under the key for that. -/
def inherited : Node → List (Node × Node)
  | .map es => es
  | .list items => items.flatMap fun i => match i with
    | .map es => es
    | _ => []
  | _ => []

/-- Adds the entries whose keys are not there yet. -/
def extend (own : List (Node × Node)) : List (Node × Node) → List (Node × Node)
  | [] => own
  | e :: es =>
    if own.any fun o => o.1.keyText == e.1.keyText then extend own es else extend (own ++ [e]) es

def ofEntries (entries : List (Node × Node)) : Node :=
  let own := entries.filter fun e => !e.1.isMerge
  let merged := entries.filter fun e => e.1.isMerge
  .map (extend own (merged.flatMap fun e => e.2.inherited))

def areDistinct : List (Option Bytes) → Bool
  | [] => true
  | k :: ks => !ks.contains k && areDistinct ks

/-- The entries of a mapping by their keys, which are texts and differ. Nothing has no entries. -/
def fields? : Node → Option (List (Bytes × Node))
  | .map es =>
    if areDistinct (es.map (·.1.keyText)) then
      (es.filter fun e => !e.1.isNull).mapM fun e => e.1.keyText.map (·, e.2)
    else none
  | n => if n.isNull then some [] else none

/-! ## Texts -/

/-- The text that a tree is; nothing is the empty text. -/
def text? (n : Node) : Option Bytes :=
  if n.isNull then some [] else n.keyText

/-- The words for truth values, which are understood also between quotes. -/
def truthWords : List (Bytes × Bool) :=
  [("y", true), ("Y", true), ("yes", true), ("on", true),
   ("n", false), ("N", false), ("no", false), ("off", false)]

/-- The truth value that a tree is; nothing is false. -/
def truth? (n : Node) : Option Bool :=
  match n with
  | .scalar plain s =>
    match if plain then resolve s else .text with
    | .null => some false
    | .truth b => some b
    | .text => (truthWords.find? (·.1 == s)).map (·.2)
    | _ => none
  | _ => none

/-- The 64-bit integer that a tree is; nothing is zero, and a fraction is cut off. -/
def whole? (n : Node) : Option Int :=
  match n with
  | .scalar true s =>
    match resolve s with
    | .null => some 0
    | .whole n => if n < twoTo 63 then some n else none
    | .real .invalid => none
    | .real (.infinite false) => none
    | .real (.finite false m q) =>
      if twoTo 63 < m * twoTo q.toNat then none else some (Double.finite false m q).truncate
    | .real x => some x.truncate
    | _ => none
  | _ => none

end Node

end Flowsmith.Yaml
