import Flowsmith.Text.Bytes

/-!
# Documents

What is written for machines: a tree of records, lists and scalars, the same for every format.
-/

namespace Flowsmith

/-- A tree of records, lists and scalars. -/
inductive Document where
  | text (s : Bytes)
  | number (n : Nat)
  | flag (b : Bool)
  | list (items : List Document)
  /-- A list that was never begun. -/
  | unset
  | record (fields : List (Bytes × Document))
  deriving Repr, Inhabited

namespace Document

def listOrUnset (items : List Document) : Document :=
  if items.isEmpty then .unset else .list items

def fieldWhen (condition : Bool) (name : Bytes) (value : Document) : List (Bytes × Document) :=
  if condition then [(name, value)] else []

def flagWord (b : Bool) : Bytes := if b then "true" else "false"

end Document

end Flowsmith
