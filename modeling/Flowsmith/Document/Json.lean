import Flowsmith.Document.Tree
import Flowsmith.Text.Quoted

/-!
# Documents as JSON

Every item and every field stands on a line of its own, two spaces deeper than what holds it.
Characters that have a meaning in web pages or end a line in scripts are written by number.

* `Json.string` : a text between quotes;
* `Document.json` : a document, with a line feed at its end.
-/

namespace Flowsmith

namespace Json

/-- A code point inside quotes; `raw` are the bytes it was read from. -/
def character (n : Nat) (raw : Bytes) : Bytes :=
  if n = 0x22 || n = 0x5C then 0x5C :: raw
  else if n = 0x0A then "\\n"
  else if n = 0x0D then "\\r"
  else if n = 0x09 then "\\t"
  else if n = 0x08 then "\\b"
  else if n = 0x0C then "\\f"
  else if n < 0x20 || n = 0x3C || n = 0x3E || n = 0x26 || n = 0x2028 || n = 0x2029 then
    ("\\u" : Bytes) ++ Text.hex 4 n
  else if n = Utf8.replacement && raw.length = 1 then "\\ufffd"
  else raw

def string (s : Bytes) : Bytes :=
  [0x22] ++ (Utf8.runes s).flatMap (fun r => character r.1 r.2) ++ [0x22]

def line (depth : Nat) : Bytes := Bytes.newline :: Bytes.spaces (2 * depth)

end Json

namespace Document

mutual

/-- A document whose first line stands at a depth. -/
def jsonAt (depth : Nat) : Document → Bytes
  | .text s => Json.string s
  | .number n => Bytes.natural n
  | .flag b => flagWord b
  | .unset => "null"
  | .list [] => "[]"
  | .list (item :: items) =>
    ("[" : Bytes) ++ jsonItems (depth + 1) (item :: items) ++ Json.line depth ++ ("]" : Bytes)
  | .record [] => Bytes.leftBrace ++ Bytes.rightBrace
  | .record (field :: fields) =>
    Bytes.leftBrace ++ jsonFields (depth + 1) (field :: fields) ++ Json.line depth
      ++ Bytes.rightBrace

/-- The items of a list, each on a line, with commas between them. -/
def jsonItems (depth : Nat) : List Document → Bytes
  | [] => []
  | item :: items =>
    Json.line depth ++ jsonAt depth item
      ++ (if items.isEmpty then [] else ("," : Bytes)) ++ jsonItems depth items

/-- The fields of a record, each on a line, with commas between them. -/
def jsonFields (depth : Nat) : List (Bytes × Document) → Bytes
  | [] => []
  | (name, value) :: fields =>
    Json.line depth ++ Json.string name ++ (": " : Bytes) ++ jsonAt depth value
      ++ (if fields.isEmpty then [] else ("," : Bytes)) ++ jsonFields depth fields

end

def json (d : Document) : Bytes := jsonAt 0 d ++ [Bytes.newline]

end Document

end Flowsmith
