import Flowsmith.Document.Tree
import Flowsmith.Text.Quoted

/-!
# Documents as TOML

The plain values of a record come first, then its records under headings, and then its lists of
records with a heading for every item. A text stands between single quotes, in which nothing is
escaped, unless it holds what cannot stand there.

* `Toml.string` : a text between quotes;
* `Document.toml` : a record.
-/

namespace Flowsmith

namespace Toml

/-- A control character that no text can hold as it is. -/
def isControl (c : UInt8) : Bool := (c < 0x20 && c != 0x09) || c == 0x7F

def quotedByte (c : UInt8) : Bytes :=
  if c = 0x22 || c = 0x5C then [0x5C, c]
  else if c = 0x08 then "\\b"
  else if c = 0x0C then "\\f"
  else if c = 0x0A then "\\n"
  else if c = 0x0D then "\\r"
  else if c = 0x09 then "\\t"
  else if isControl c then ("\\u00" : Bytes) ++ (Text.hex 2 c.toNat).map Bytes.upperByte
  else [c]

/-- A text between single quotes, or between double quotes when it holds a single quote or a control
character. -/
def string (s : Bytes) : Bytes :=
  if s.any fun c => c == 0x27 || isControl c then [0x22] ++ s.flatMap quotedByte ++ [0x22]
  else [0x27] ++ s ++ [0x27]

end Toml

namespace Document

mutual

def tomlValue : Document → Bytes
  | .text s => Toml.string s
  | .number n => Bytes.natural n
  | .flag b => flagWord b
  | .unset => "[]"
  | .list items => ("[" : Bytes) ++ tomlValues items ++ ("]" : Bytes)
  | .record _ => Bytes.leftBrace ++ Bytes.rightBrace

def tomlValues : List Document → Bytes
  | [] => []
  | item :: items =>
    tomlValue item ++ (if items.isEmpty then [] else (", " : Bytes)) ++ tomlValues items

end

def isRecord : Document → Bool
  | .record _ => true
  | _ => false

def isRecordList : Document → Bool
  | .list items => !items.isEmpty && items.all isRecord
  | _ => false

def tomlPlain (fields : List (Bytes × Document)) : Bytes :=
  fields.flatMap fun (name, value) =>
    if isRecord value || isRecordList value then []
    else name ++ (" = " : Bytes) ++ tomlValue value ++ [Bytes.newline]

mutual

/-- What stands under headings: the records and the lists of records of a record at a path. -/
def tomlTables (path : Bytes) : List (Bytes × Document) → Bytes
  | [] => []
  | (name, value) :: fields => tomlTable (path ++ name) value ++ tomlTables path fields

def tomlTable (path : Bytes) : Document → Bytes
  | .record fields =>
    ("\n[" : Bytes) ++ path ++ ("]\n" : Bytes) ++ tomlPlain fields
      ++ tomlTables (path ++ ("." : Bytes)) fields
  | .list items => tomlItems path items
  | _ => []

def tomlItems (path : Bytes) : List Document → Bytes
  | [] => []
  | item :: items =>
    (match item with
      | .record fields =>
        ("\n[[" : Bytes) ++ path ++ ("]]\n" : Bytes) ++ tomlPlain fields
          ++ tomlTables (path ++ ("." : Bytes)) fields
      | _ => []) ++ tomlItems path items

end

def toml : Document → Bytes
  | .record fields => tomlPlain fields ++ tomlTables [] fields
  | d => tomlValue d

end Document

end Flowsmith
