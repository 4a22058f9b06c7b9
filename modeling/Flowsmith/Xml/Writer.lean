import Flowsmith.Xml.Tree

/-!
# Writing XML

A document is laid out and written: blank texts are dropped, every node that is no text stands on a
line of its own, two spaces deeper than its parent.

* `layout` : a document with its blanks set;
* `renderAll` : a document as text;
* `save` : both.
-/

namespace Flowsmith.Xml

/-! ## Layout -/

def Node.isBlankText : Node → Bool
  | .text s => s.all isBlank
  | _ => false

def Node.isText : Node → Bool
  | .text _ => true
  | _ => false

def lineBreak (depth : Nat) : Node := .text (Bytes.newline :: Bytes.spaces (2 * depth))

mutual

/-- A node whose children are laid out at a depth. -/
def Node.layout (depth : Nat) : Node → Node
  | .element name attrs children => .element name attrs (layoutAll depth false children)
  | n => n

/-- Children laid out at a depth, with what ends them; `started` says that a node that is no text
stands before them. -/
def layoutAll (depth : Nat) (started : Bool) : List Node → List Node
  | [] => []
  | n :: ns =>
    if n.isBlankText then layoutAll depth started ns
    else
      let node := n.layout (depth + 1)
      let started' := started || !n.isText
      let front := if !n.isText && (started || 0 < depth) then [lineBreak depth] else []
      let back :=
        if ns.all Node.isBlankText && !n.isText then [lineBreak (depth - 1)] else []
      front ++ node :: back ++ layoutAll depth started' ns

end

def layout (ns : List Node) : List Node := layoutAll 0 false ns

/-! ## Text -/

/-- One code point of a text or value; `raw` are the bytes it was read from. -/
def escapeRune (n : Nat) (raw : Bytes) : Bytes :=
  if n = 0x26 then "&amp;"
  else if n = 0x3C then "&lt;"
  else if n = 0x3E then "&gt;"
  else if n = 0x27 then "&apos;"
  else if n = 0x22 then "&quot;"
  else if !isChar n || (n = Utf8.replacement && raw.length = 1) then [0xEF, 0xBF, 0xBD]
  else raw

/-- A text with its special characters escaped. -/
def escape (s : Bytes) : Bytes := (Utf8.runes s).flatMap fun r => escapeRune r.1 r.2

def Attribute.render (a : Attribute) : Bytes :=
  [0x20] ++ a.name.full ++ ("=\"" : Bytes) ++ escape a.value ++ ("\"" : Bytes)

mutual

def Node.render : Node → Bytes
  | .element name attrs children =>
    let head := ("<" : Bytes) ++ name.full ++ attrs.flatMap Attribute.render
    if children.isEmpty then head ++ ("/>" : Bytes)
    else head ++ (">" : Bytes) ++ renderAll children ++ ("</" : Bytes) ++ name.full ++ (">" : Bytes)
  | .text s => escape s
  | .comment s => ("<!--" : Bytes) ++ s ++ ("-->" : Bytes)
  | .instruction target content =>
    ("<?" : Bytes) ++ target ++ (if content.isEmpty then [] else [0x20] ++ content)
      ++ ("?>" : Bytes)
  | .directive s => ("<!" : Bytes) ++ s ++ (">" : Bytes)

def renderAll : List Node → Bytes
  | [] => []
  | n :: ns => n.render ++ renderAll ns

end

/-- A document laid out and written. -/
def save (ns : List Node) : Bytes := renderAll (layout ns)

end Flowsmith.Xml
