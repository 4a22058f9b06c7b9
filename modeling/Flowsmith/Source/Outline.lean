import Flowsmith.Text.Bytes

/-!
# The outline of a source

What a source declares, as far as a migration needs to know: its using directives, its namespace,
and its first class with the members at the top level of that class. A member keeps the text of its
whole declaration, so that it can be carried over as it stands.
-/

namespace Flowsmith.Source

structure Parameter where
  modifiers : List Bytes := []
  type : Bytes := []
  name : Bytes := []
  /-- The text after the equals sign. -/
  default : Bytes := []
  deriving DecidableEq, Repr

structure Accessor where
  keyword : Bytes
  modifiers : List Bytes := []
  /-- Written with a semicolon in place of a body. -/
  auto : Bool := false
  /-- The text between the braces, or the expression after the arrow. -/
  body : Bytes := []
  deriving DecidableEq, Repr

/-- The body of a method or constructor. -/
inductive Body where
  | absent
  /-- The text between the braces. -/
  | block (text : Bytes)
  /-- The text between the arrow and the semicolon. -/
  | expression (text : Bytes)
  deriving DecidableEq, Repr

namespace Body

def text : Body → Bytes
  | absent => []
  | block s => s
  | expression s => s

def isPresent : Body → Bool
  | absent => false
  | _ => true

def isExpression : Body → Bool
  | expression _ => true
  | _ => false

end Body

/-- What kind of member a declaration is, with what only that kind has. -/
inductive Shape where
  | other
  | field
  | method (params : List Parameter) (body : Body)
  | constructor (params : List Parameter) (body : Body)
  | property (accessors : List Accessor)
  deriving DecidableEq, Repr

def accessWords : List Bytes := ["public", "private", "protected", "internal"]

structure Member where
  shape : Shape := .other
  name : Bytes := []
  type : Bytes := []
  modifiers : List Bytes := []
  /-- The attribute sections, with their brackets. -/
  attributes : List Bytes := []
  /-- The declaration with the comments and attributes in front of it. -/
  text : Bytes := []
  /-- The column at which `text` starts. -/
  column : Nat := 0
  deriving DecidableEq, Repr

namespace Member

def params (m : Member) : List Parameter :=
  match m.shape with
  | .method ps _ => ps
  | .constructor ps _ => ps
  | _ => []

def accessors (m : Member) : List Accessor :=
  match m.shape with
  | .property as => as
  | _ => []

def body (m : Member) : Body :=
  match m.shape with
  | .method _ b => b
  | .constructor _ b => b
  | _ => .absent

def isMethod (m : Member) : Bool :=
  match m.shape with
  | .method _ _ => true
  | _ => false

/-- The access words of the member with a space between them. -/
def visibility (m : Member) : Bytes :=
  Bytes.joinWith [0x20] (m.modifiers.filter accessWords.contains)

end Member

structure Class where
  name : Bytes
  modifiers : List Bytes
  /-- What follows the colon, without constraints. -/
  bases : Bytes := []
  /-- The offset of the first modifier, or of the keyword when there is none. -/
  start : Nat
  /-- The offset of the keyword. -/
  keywordStart : Nat
  members : List Member := []
  deriving DecidableEq, Repr

namespace Class

def hasModifier (c : Class) (m : Bytes) : Bool := c.modifiers.contains m

def methodIndex? (c : Class) (name : Bytes) : Option Nat :=
  c.members.findIdx? fun m => m.isMethod && m.name == name

def method? (c : Class) (name : Bytes) : Option Member :=
  c.members.find? fun m => m.isMethod && m.name == name

end Class

structure Outline where
  /-- The targets of the using directives, in order. -/
  usings : List Bytes := []
  /-- The first namespace, empty when there is none. -/
  space : Bytes := []
  /-- The first class. -/
  class? : Option Class := none
  deriving DecidableEq, Repr

end Flowsmith.Source
