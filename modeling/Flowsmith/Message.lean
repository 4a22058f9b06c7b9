import Flowsmith.Fault
import Flowsmith.Text.Quoted

/-!
# Messages with gaps

A template is a text with gaps, each a percent sign and a letter that says how its value is written.
The values fill the gaps in order. A gap without a value, a value without a gap, and a value that
cannot be written as asked are marked in the text and never fail.

* `Message.written` : a value as a letter asks for it;
* `Message.fill` : a template with its values.
-/

namespace Flowsmith.Message

def kindName : Detail → Bytes
  | .text _ => "string"
  | .number _ => "int"
  | .flag _ => "bool"
  | .list _ => "[]string"

def usual : Detail → Bytes
  | .text s => s
  | .number n => Bytes.integer n
  | .flag b => if b then "true" else "false"
  | .list items => ("[" : Bytes) ++ Bytes.joinWith " " items ++ ("]" : Bytes)

/-- The mark for a value that cannot be written as a letter asks. -/
def misfit (letter : Bytes) (value : Detail) : Bytes :=
  ("%!" : Bytes) ++ letter ++ ("(" : Bytes) ++ kindName value ++ ("=" : Bytes) ++ usual value
    ++ (")" : Bytes)

/-- The hexadecimal digits of an integer, with a sign when it is negative. -/
def hexInteger (n : Int) : Bytes :=
  (if n < 0 then ("-" : Bytes) else [])
    ++ Bytes.ofString (String.ofList (Nat.toDigits 16 n.natAbs))

/-- A code point between single quotes. -/
def quotedCharacter (n : Int) : Bytes :=
  let point := if n < 0 || 0x10FFFF < n then Utf8.replacement else n.toNat
  let inner : Bytes :=
    if point = 0x27 then "\\'" else if point = 0x22 then [0x22]
    else Text.quoteRune point (Utf8.encode point)
  [0x27] ++ inner ++ [0x27]

def writtenText (letter s : Bytes) : Bytes :=
  if letter == Bytes.ofString "s" || letter == Bytes.ofString "v" then s
  else if letter == Bytes.ofString "q" then Text.quoted s
  else if letter == Bytes.ofString "x" then s.flatMap fun c => Text.hex 2 c.toNat
  else misfit letter (.text s)

def written (letter : Bytes) : Detail → Bytes
  | .text s => writtenText letter s
  | .number n =>
    if letter == Bytes.ofString "d" || letter == Bytes.ofString "v" then Bytes.integer n
    else if letter == Bytes.ofString "q" then quotedCharacter n
    else if letter == Bytes.ofString "x" then hexInteger n
    else misfit letter (.number n)
  | .flag b =>
    if letter == Bytes.ofString "t" || letter == Bytes.ofString "v" then usual (.flag b)
    else misfit letter (.flag b)
  | .list items =>
    ("[" : Bytes) ++ Bytes.joinWith " " (items.map (writtenText letter)) ++ ("]" : Bytes)

def surplus (values : List Detail) : Bytes :=
  if values.isEmpty then []
  else
    ("%!(EXTRA " : Bytes)
      ++ Bytes.joinWith ", " (values.map fun v => kindName v ++ ("=" : Bytes) ++ usual v)
      ++ (")" : Bytes)

/-- The code points of a template with its values in the gaps. -/
def fillRunes : List Bytes → List Detail → Bytes
  | [], values => surplus values
  | [raw], values =>
    (if raw == Bytes.ofString "%" then ("%!(NOVERB)" : Bytes) else raw) ++ surplus values
  | raw :: letter :: rest, values =>
    if raw == Bytes.ofString "%" then
      if letter == Bytes.ofString "%" then raw ++ fillRunes rest values
      else match values with
        | [] => ("%!" : Bytes) ++ letter ++ ("(MISSING)" : Bytes) ++ fillRunes rest []
        | value :: values => written letter value ++ fillRunes rest values
    else raw ++ fillRunes (letter :: rest) values

def fill (template : Bytes) (values : List Detail) : Bytes :=
  fillRunes ((Utf8.runes template).map (·.2)) values

end Flowsmith.Message
