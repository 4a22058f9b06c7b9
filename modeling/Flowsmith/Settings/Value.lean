import Flowsmith.Text.Double

/-!
# Values of settings

A layer of settings is a tree of values: what a file, the environment or a caller says, before it is
decoded. Layers are laid over one another: tables are merged, everything else is replaced.

* `Value.over` : a value laid over another one;
* `Table.expand` : a table with dotted keys as a tree.
-/

namespace Flowsmith.Settings

/-- A value as it is written in a layer. -/
inductive Value where
  | null
  | flag (b : Bool)
  | whole (n : Int)
  | real (x : Double)
  | text (s : Bytes)
  /-- A date or a time; `zoned` says that it is a point in time, with a time zone. -/
  | moment (zoned : Bool)
  | list (items : List Value)
  | table (entries : List (Bytes × Value))
  deriving Repr, Inhabited

abbrev Table := List (Bytes × Value)

namespace Table

def get? (t : Table) (key : Bytes) : Option Value := (t.find? (·.1 == key)).map (·.2)

/-- Sets a key, in its place when it is there and at the end when it is not. -/
def set (t : Table) (key : Bytes) (v : Value) : Table :=
  match t with
  | [] => [(key, v)]
  | entry :: rest => if entry.1 == key then (key, v) :: rest else entry :: set rest key v

end Table

mutual

/-- A value laid over another: tables are merged key by key, everything else is replaced. -/
def Value.over (base : Value) : Value → Value
  | .table new =>
    match base with
    | .table old => .table (Table.over old new)
    | _ => .table new
  | v => v

def Table.over (base : Table) : List (Bytes × Value) → Table
  | [] => base
  | (key, v) :: rest =>
    let merged := match Table.get? base key with
      | some old => Value.over old v
      | none => v
    Table.over (Table.set base key merged) rest

end

namespace Table

/-- Sets the value at the end of a path of keys; tables are made on the way, and a key that leads to
something else is passed over. -/
def setPath (t : Table) (v : Value) : List Bytes → Table
  | [] => t
  | [key] => t.set key v
  | key :: next :: path =>
    match t.get? key with
    | none => t.set key (.table (setPath [] v (next :: path)))
    | some (.table sub) => t.set key (.table (setPath sub v (next :: path)))
    | some _ => setPath t v (next :: path)

/-- A table whose keys are dotted paths as a tree. -/
def expand (t : Table) : Table :=
  t.foldl (fun acc entry => acc.setPath entry.2 (Bytes.splitOn '.'.toUInt8 entry.1)) []

end Table

end Flowsmith.Settings
