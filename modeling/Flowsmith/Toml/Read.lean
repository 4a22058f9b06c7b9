import Flowsmith.Toml.Tree

/-!
# Settings files

Reading a settings file: its tokens, and the tree that they build up.

* `Toml.value?` : a value of the tokens;
* `Toml.Draft` : the tree so far, with the table that keys are added to;
* `Toml.read?` : the settings of a file, none when it is malformed.
-/

namespace Flowsmith.Toml

open Settings (Value)

/-! ## Values -/

/-- The value of a date or a time, when its numbers are in range, and the tokens after it. -/
def moment? : List Token → Option (Value × List Token)
  | .day d :: .clock c :: .offset o :: ts =>
    if Text.day? (encode d) = some [] ∧ Text.clock? (encode c) = some []
        ∧ Text.offset? (encode o) = some [] then some (.moment true, ts)
    else none
  | .day d :: .clock c :: ts =>
    if Text.day? (encode d) = some [] ∧ Text.clock? (encode c) = some [] then
      some (.moment false, ts)
    else none
  | .day d :: ts => if Text.day? (encode d) = some [] then some (.moment false, ts) else none
  | .clock c :: ts => if Text.clock? (encode c) = some [] then some (.moment false, ts) else none
  | _ => none

mutual

/-- The value that tokens begin with, and the rest; values lie at most `depth` deep. -/
def value? (depth : Nat) (ts : List Token) : Option (Node × List Token) :=
  match depth with
  | 0 => none
  | depth + 1 =>
    match ts with
    | .scalar v :: ts => some (.leaf v, ts)
    | .openList :: ts => (items? depth ts).map fun (ns, ts) => (Node.ofItems ns, ts)
    | .openTable :: ts => (fields? depth none [] ts).map fun (es, ts) => (.table true es, ts)
    | ts => (moment? ts).map fun (v, ts) => (.leaf v, ts)

/-- The items of a list up to its end, and the rest. -/
def items? (depth : Nat) (ts : List Token) : Option (List Node × List Token) :=
  match depth with
  | 0 => none
  | depth + 1 =>
    match ts with
    | .closeList :: ts => some ([], ts)
    | ts =>
      match value? depth ts with
      | some (n, .comma :: ts) => (items? depth ts).map fun (ns, ts) => (n :: ns, ts)
      | some (n, .closeList :: ts) => some ([n], ts)
      | _ => none

/-- The fields of a table up to its end, and the rest; `comma` says whether a comma or a field is
just before. -/
def fields? (depth : Nat) (comma : Option Bool) (es : Entries) (ts : List Token) :
    Option (Entries × List Token) :=
  match depth with
  | 0 => none
  | depth + 1 =>
    match ts with
    | .closeTable :: ts => if comma = some true then none else some (es, ts)
    | .comma :: ts => if comma = some true then none else fields? depth (some true) es ts
    | .key text :: .equals :: ts =>
      if comma = some false then none
      else
        match path? text, value? depth ts with
        | some path, some (n, ts) => fields? depth (some false) (es.put n path) ts
        | _, _ => none
    | _ => none

end

/-! ## Files -/

/-- A tree under construction. -/
structure Draft where
  entries : Entries := []
  /-- The path of the table that keys are added to. -/
  current : List Bytes := []
  /-- The headings that cannot be used again. -/
  seen : List Runes := []

namespace Draft

/-- Goes on under the heading of a table. -/
def enter? (d : Draft) (text : Runes) : Option Draft :=
  if d.seen.contains text then none
  else do
    let path ← path? text
    let entries ← d.entries.grow? false path
    if (entries.getPath? path).any Node.isFixed then none
    else some ⟨entries, path, d.seen ++ [text]⟩

/-- The items of a list of tables, to which one can be added. -/
def itemsAt? (es : Entries) (path : List Bytes) : Option (List Node) :=
  match es.getPath? path with
  | none => some []
  | some (.tables items) => some items
  | some _ => none

/-- Goes on under the heading of a new item of a list of tables; the headings below the list can be
used again. -/
def enterItem? (d : Draft) (text : Runes) : Option Draft := do
  let path ← path? text
  let entries := (d.entries.grow? false path.dropLast).getD d.entries
  let items ← itemsAt? entries path
  let entries := entries.put (.tables (items ++ [.table false []])) path
  let kept := d.seen.filter fun s => !(text ++ ['.'.toNat]).isPrefixOf s
  return ⟨entries, path, if kept.contains text then kept else kept ++ [text]⟩

def assign? (d : Draft) (path : List Bytes) (n : Node) : Option Draft := do
  let key ← path.getLast?
  let entries ← d.entries.assign? false key n (d.current ++ path.dropLast)
  return { d with entries := entries }

end Draft

/-- The tree that tokens build up; every round uses one token at least. -/
def build? (rounds : Nat) (d : Draft) (ts : List Token) : Option Draft :=
  match rounds with
  | 0 => none
  | rounds + 1 =>
    match ts with
    | [] => some d
    | .heading text :: ts => (d.enter? text).bind fun d => build? rounds d ts
    | .itemHeading text :: ts => (d.enterItem? text).bind fun d => build? rounds d ts
    | .key text :: .equals :: ts =>
      match path? text, value? (2 * ts.length + 2) ts with
      | some path, some (n, ts) => (d.assign? path n).bind fun d => build? rounds d ts
      | _, _ => none
    | _ => none

def encodingMarks : List Bytes :=
  [[0x00, 0x00, 0xFE, 0xFF], [0xFF, 0xFE, 0x00, 0x00], [0xEF, 0xBB, 0xBF], [0xFE, 0xFF],
   [0xFF, 0xFE]]

def dropMark (s : Bytes) : Bytes :=
  match encodingMarks.find? (·.isPrefixOf s) with
  | some mark => s.drop mark.length
  | none => s

def read? (s : Bytes) : Option Settings.Table := do
  let ts ← tokens? ((Utf8.runes (dropMark s)).map (·.1))
  let d ← build? (ts.length + 1) {} ts
  return Node.toTable d.entries

end Flowsmith.Toml
