import Flowsmith.Proofs.Source.Types

/-!
# Sources as they are written

The sources of a small grammar, with what the scanner should find in them. The texts that are not of
the grammar (bodies, initializers and defaults) are nested code; how they end is left open here.

* `Code`, `Initializer`, `Default` : text between the marks of a declaration;
* `ParamText`, `AccessorText`, `MemberText`, `Listing` : declarations and whole sources;
* `Listing.text` : a source as it is written;
* `Listing.outline` : what it declares.
-/

namespace Flowsmith.Source

/-- The tokens of code at an offset, not at the beginning of a line. -/
def codeTokens (pos : Nat) (s : Bytes) : List Token := solid (tokensFrom pos false s)

/-- Text with nested brackets that ends as `ends` says. -/
structure Code (ends : Bytes → Prop) where
  text : Bytes
  nested : Nested (codeTokens 0 text)
  ends : ends text

/-- What is assigned to a field: no semicolon ends it early. -/
structure Initializer (ends : Bytes → Prop) extends Code ends where
  whole : TopFree ";" (codeTokens 0 text)

/-- The default of a parameter: tokens from end to end, of which no comma ends it early, and which are
no angle brackets. -/
structure Default (ends : Bytes → Prop) extends Code ends where
  whole : TopFree "," (codeTokens 0 text)
  plain : ∀ t ∈ codeTokens 0 text, t.is "<" = false ∧ t.is ">" = false
  spans : Spans 0 text.length (codeTokens 0 text)

abbrev WordOf (words : List Bytes) := { w : Bytes // w ∈ words }

structure Dotted where
  first : Name
  more : List Name

structure ParamText (ends : Bytes → Prop) where
  modifiers : List (WordOf paramWords)
  type : TypeText .type
  name : Name
  default : Option (Default ends)

structure AccessorText (ends : Bytes → Prop) where
  modifiers : List (WordOf ("readonly" :: accessWords))
  keyword : Name
  /-- Automatic accessors have none. -/
  body : Option (Code ends)

inductive MemberForm (ends : Bytes → Prop) where
  | field (type : TypeText .type) (name : Name) (init : Option (Initializer ends))
  | method (type : TypeText .type) (name : Name) (params : List (ParamText ends)) (body : Option (Code ends))
  | constructor (params : List (ParamText ends)) (body : Code ends)
  | property (type : TypeText .type) (name : Name) (accessors : List (AccessorText ends))

structure MemberText (ends : Bytes → Prop) where
  modifiers : List (WordOf modifierWords)
  form : MemberForm ends

/-- A source: using directives, a namespace, and a class in it. -/
structure Listing (ends : Bytes → Prop) where
  usings : List Dotted
  space : Option Dotted
  modifiers : List (WordOf modifierWords)
  name : Name
  bases : Option (TypeText .list)
  members : List (MemberText ends)

variable {ends : Bytes → Prop}

/-! ## How they are written -/

def wordChunks {words : List Bytes} (ws : List (WordOf words)) : List Chunk :=
  ws.flatMap fun w => [.word w.1, .gap " "]

def Dotted.chunks (d : Dotted) : List Chunk :=
  .word d.first.text :: d.more.flatMap fun w => [.mark ".", .word w.text]

def Dotted.text (d : Dotted) : Bytes := render d.chunks

/-- An equals sign with a text after it. -/
def valueChunks : Option Bytes → List Chunk
  | none => []
  | some s => [.gap " ", .value s]

def bodyChunks : Option (Code ends) → List Chunk
  | none => [.mark ";"]
  | some c => [.gap " ", .block c.text]

def ParamText.chunks (p : ParamText ends) : List Chunk :=
  wordChunks p.modifiers ++ (p.type.chunks ++
    (.gap " " :: .word p.name.text :: valueChunks (p.default.map (·.text))))

def paramChunks : List (ParamText ends) → List Chunk
  | [] => []
  | [p] => p.chunks
  | p :: q :: ps => p.chunks ++ (.mark "," :: .gap " " :: paramChunks (q :: ps))

def AccessorText.chunks (a : AccessorText ends) : List Chunk :=
  wordChunks a.modifiers ++ (.word a.keyword.text :: bodyChunks a.body)

def accessorChunks (as : List (AccessorText ends)) : List Chunk :=
  as.flatMap fun a => .gap " " :: a.chunks

/-- A declaration of the class `owner` without its modifiers. -/
def MemberForm.chunks (owner : Name) : MemberForm ends → List Chunk
  | field type name init => type.chunks ++
      (.gap " " :: .word name.text :: (valueChunks (init.map (·.text)) ++ [.mark ";"]))
  | method type name params body => type.chunks ++
      (.gap " " :: .word name.text :: .mark "(" :: (paramChunks params ++ (.mark ")" :: bodyChunks body)))
  | constructor params body =>
      .word owner.text :: .mark "(" :: (paramChunks params ++ (.mark ")" :: bodyChunks (some body)))
  | property type name accessors => type.chunks ++
      (.gap " " :: .word name.text :: .gap " " :: .mark Bytes.leftBrace ::
        (accessorChunks accessors ++ [.gap " ", .mark Bytes.rightBrace]))

def MemberText.chunks (owner : Name) (m : MemberText ends) : List Chunk :=
  wordChunks m.modifiers ++ m.form.chunks owner

def memberChunks (owner : Name) (ms : List (MemberText ends)) : List Chunk :=
  ms.flatMap fun m => .gap "\n        " :: m.chunks owner

def usingChunks (ds : List Dotted) : List Chunk :=
  ds.flatMap fun d => .word "using" :: .gap " " :: (d.chunks ++ [.mark ";", .gap "\n"])

def spaceChunks : Option Dotted → List Chunk
  | none => []
  | some d => .word "namespace" :: .gap " " :: (d.chunks ++ [.gap "\n", .mark Bytes.leftBrace, .gap "\n    "])

def baseChunks : Option (TypeText .list) → List Chunk
  | none => []
  | some bs => .gap " " :: .mark ":" :: .gap " " :: bs.chunks

namespace Listing

/-- What stands in front of the modifiers of the class. -/
def headChunks (l : Listing ends) : List Chunk := usingChunks l.usings ++ spaceChunks l.space

/-- What stands after the members of the class. -/
def tailChunks (l : Listing ends) : List Chunk :=
  .gap "\n    " :: .mark Bytes.rightBrace :: .gap "\n" ::
    (if l.space.isSome then [.mark Bytes.rightBrace, .gap "\n"] else [])

def chunks (l : Listing ends) : List Chunk :=
  l.headChunks ++ (wordChunks l.modifiers ++ (.word "class" :: .gap " " :: .word l.name.text ::
    (baseChunks l.bases ++ (.gap "\n    " :: .mark Bytes.leftBrace ::
      (memberChunks l.name l.members ++ l.tailChunks)))))

def text (l : Listing ends) : Bytes := render l.chunks

end Listing

/-! ## What they declare -/

def ParamText.param (p : ParamText ends) : Parameter where
  modifiers := p.modifiers.map (·.1)
  type := p.type.text
  name := p.name.text
  default := (p.default.map (·.text)).getD []

def AccessorText.accessor (a : AccessorText ends) : Accessor where
  keyword := a.keyword.text
  modifiers := a.modifiers.map (·.1)
  auto := a.body.isNone
  body := (a.body.map (·.text)).getD []

def Code.body : Option (Code ends) → Body
  | none => .absent
  | some c => .block c.text

namespace MemberForm

def shape : MemberForm ends → Shape
  | field _ _ _ => .field
  | method _ _ params body => .method (params.map (·.param)) (Code.body body)
  | constructor params body => .constructor (params.map (·.param)) (.block body.text)
  | property _ _ accessors => .property (accessors.map (·.accessor))

def name (owner : Name) : MemberForm ends → Bytes
  | field _ name _ => name.text
  | method _ name _ _ => name.text
  | constructor _ _ => owner.text
  | property _ name _ => name.text

def type : MemberForm ends → Bytes
  | field type _ _ => type.text
  | method type _ _ _ => type.text
  | constructor _ _ => []
  | property type _ _ => type.text

end MemberForm

/-- A member of the class `owner`. -/
def MemberText.member (owner : Name) (m : MemberText ends) : Member where
  shape := m.form.shape
  name := m.form.name owner
  type := m.form.type
  modifiers := m.modifiers.map (·.1)
  text := render (m.chunks owner)
  column := 8

namespace Listing

def cls (l : Listing ends) : Class where
  name := l.name.text
  modifiers := l.modifiers.map (·.1)
  bases := (l.bases.map (·.text)).getD []
  start := (render l.headChunks).length
  keywordStart := (render l.headChunks).length + (render (wordChunks l.modifiers)).length
  members := l.members.map (·.member l.name)

def outline (l : Listing ends) : Outline where
  usings := l.usings.map (·.text)
  space := (l.space.map (·.text)).getD []
  class? := some l.cls

end Listing

end Flowsmith.Source
