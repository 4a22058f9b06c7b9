import Flowsmith.Toml.Token

/-!
# Trees of settings files

A settings file builds up a tree, heading by heading and key by key. A path that meets a list of
tables goes on in its last item. A table that was written in one line is fixed: nothing can be added
to it.

* `Toml.path?` : the parts of a key or of a heading;
* `Entries.getPath?` : what stands at a path;
* `Entries.grow?`, `Entries.put`, `Entries.assign?` : making tables, replacing and adding values;
* `Node.toValue` : the tree as values of settings.
-/

namespace Flowsmith.Toml

open Settings (Value)

/-! ## Paths -/

def parts? (cs : Runes) : Option (List Runes) :=
  match h : cs.dropWhile isSpace with
  | [] => some []
  | c :: rest =>
    have shorter : rest.length < cs.length := by
      have le := length_dropWhile_le isSpace cs
      rwa [h, List.length_cons] at le
    if isBare c then
      let word := c :: rest.takeWhile isBare
      let after := rest.dropWhile isBare
      match after.dropWhile isSpace with
      | [] => some [word]
      | d :: _ =>
        if d = '.'.toNat then
          have less : ((rest.dropWhile isBare).dropWhile isSpace).length < cs.length :=
            Nat.lt_of_le_of_lt
              (Nat.le_trans (length_dropWhile_le isSpace _) (length_dropWhile_le isBare rest))
              shorter
          (parts? ((rest.dropWhile isBare).dropWhile isSpace)).map (word :: ·)
        else none
    else if c = quote ∨ c = tick then
      match g : rest.dropWhile (· != c) with
      | [] => none
      | _ :: after =>
        have less : after.length < cs.length := by
          have le := length_dropWhile_le (· != c) rest
          rw [g] at le
          exact Nat.lt_trans le shorter
        (parts? after).map (rest.takeWhile (· != c) :: ·)
    else if c = '.'.toNat then
      match rest with
      | [] => none
      | d :: more =>
        if isBare d ∨ d = quote ∨ d = tick ∨ d = 0x20 then parts? (d :: more) else none
    else none
termination_by cs.length
decreasing_by
  · exact less
  · exact less
  · exact shorter

def path? (cs : Runes) : Option (List Bytes) :=
  match parts? cs with
  | some (part :: parts) => some ((part :: parts).map encode)
  | _ => none

/-! ## Nodes -/

/-- What stands at a path. -/
inductive Node where
  | leaf (v : Value)
  /-- A table; `fixed` says that it was written in one line. -/
  | table (fixed : Bool) (entries : List (Bytes × Node))
  /-- A list of tables, which is not empty. -/
  | tables (items : List Node)

abbrev Entries := List (Bytes × Node)

namespace Entries

def get? (es : Entries) (key : Bytes) : Option Node := (es.find? (·.1 == key)).map (·.2)

/-- Sets a key, in its place when it is there and at the end when it is not. -/
def set (es : Entries) (key : Bytes) (n : Node) : Entries :=
  match es with
  | [] => [(key, n)]
  | e :: rest => if e.1 == key then (key, n) :: rest else e :: set rest key n

/-- The table that a path goes on in at a key, with a way to put it back. -/
def table? (es : Entries) (key : Bytes) : Option (Bool × Entries × (Entries → Entries)) :=
  match es.get? key with
  | some (.table fixed sub) => some (fixed, sub, fun s => es.set key (.table fixed s))
  | some (.tables items) =>
    match items.getLast? with
    | some (.table fixed sub) =>
      some (fixed, sub, fun s => es.set key (.tables (items.dropLast ++ [.table fixed s])))
    | _ => none
  | _ => none

def getPath? (es : Entries) : List Bytes → Option Node
  | [] => some (.table false es)
  | [key] => es.get? key
  | key :: next :: path =>
    match es.table? key with
    | some (_, sub, _) => getPath? sub (next :: path)
    | none => none

/-- Makes the tables along a path that are missing; a new table is fixed when the one that holds it
is. -/
def grow? (fixed : Bool) (es : Entries) : List Bytes → Option Entries
  | [] => some es
  | key :: path =>
    match es.get? key with
    | none => (grow? fixed [] path).map fun sub => es.set key (.table fixed sub)
    | some _ =>
      match es.table? key with
      | some (fixed, sub, back) => (grow? fixed sub path).map back
      | none => none

/-- Puts a value at the end of a path; tables are made on the way, and a key that leads to something
else is passed over. -/
def put (es : Entries) (n : Node) : List Bytes → Entries
  | [] => es
  | [key] => es.set key n
  | key :: next :: path =>
    match es.get? key with
    | none => es.set key (.table false (put [] n (next :: path)))
    | some _ =>
      match es.table? key with
      | some (_, sub, back) => back (put sub n (next :: path))
      | none => put es n (next :: path)

/-- Adds a value under a key to the table at a path; nothing is added to a fixed table, and no key
is set twice. -/
def assign? (fixed : Bool) (es : Entries) (key : Bytes) (n : Node) : List Bytes → Option Entries
  | [] => if fixed || (es.get? key).isSome then none else some (es.set key n)
  | step :: path =>
    match es.get? step with
    | none => (assign? fixed [] key n path).map fun sub => es.set step (.table fixed sub)
    | some _ =>
      match es.table? step with
      | some (fixed, sub, back) => (assign? fixed sub key n path).map back
      | none => none

end Entries

namespace Node

def isFixed : Node → Bool
  | .table fixed _ => fixed
  | _ => false

def isTable : Node → Bool
  | .table _ _ => true
  | _ => false

mutual

def toValue : Node → Value
  | .leaf v => v
  | .table _ entries => .table (toTable entries)
  | .tables items => .list (toValues items)

/-- The entries of a table as values of settings. -/
def toTable : List (Bytes × Node) → List (Bytes × Value)
  | [] => []
  | (key, n) :: rest => (key, toValue n) :: toTable rest

def toValues : List Node → List Value
  | [] => []
  | n :: rest => toValue n :: toValues rest

end

/-- A list: a list of tables when all its items are, and a value otherwise. -/
def ofItems (items : List Node) : Node :=
  if !items.isEmpty && items.all isTable then .tables items else .leaf (.list (toValues items))

end Node

end Flowsmith.Toml
