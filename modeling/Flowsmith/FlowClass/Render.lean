import Flowsmith.FlowClass.Layout
import Flowsmith.FlowClass.Member
import Flowsmith.Text.Quoted

/-!
# Flow classes as sources

The class that replaces a workflow, and its text: a file with a header, one namespace, the using
directives and the class. Braces stand on lines of their own and each level is four spaces deep.

* `ClassOptions`, `build` : the class for a workflow name;
* `configureMethod` : the method that returns the flow expression;
* `File.render` : the source.
-/

namespace Flowsmith.FlowClass

/-! ## The class -/

/-- A named argument of an attribute; the value is a literal. -/
structure Argument where
  name : Bytes
  value : Bytes
  deriving DecidableEq, Repr

structure Attribute where
  type : Bytes
  args : List Argument := []
  deriving DecidableEq, Repr

namespace Attribute

/-- The value of the first argument with a name. -/
def arg? (a : Attribute) (name : Bytes) : Option Bytes :=
  (a.args.find? (·.name == name)).map (·.value)

end Attribute

/-- A parameter of a generated method. -/
structure Parameter where
  type : Bytes
  name : Bytes
  deriving DecidableEq, Repr

structure Method where
  modifiers : Bytes
  returnType : Bytes
  name : Bytes
  params : List Parameter := []
  body : Bytes
  deriving DecidableEq, Repr

structure Class where
  name : Bytes
  visibility : Bytes := []
  baseType : Bytes := []
  attributes : List Attribute := []
  configure? : Option Method := none
  members : List Member := []
  /-- The attribute of every property. -/
  propertyAttribute : Bytes := []
  /-- The type of condition arguments. -/
  eventArgsType : Bytes := []
  deriving DecidableEq, Repr

structure File where
  space : Bytes := []
  usings : List Bytes := []
  class? : Option Class := none
  deriving DecidableEq, Repr

/-- The type names and naming rules for a class. -/
structure ClassOptions where
  flowBase : Bytes
  configurationAttribute : Bytes
  propertyAttribute : Bytes
  eventArgsType : Bytes
  legacyStart : Bytes
  names : List (Bytes × Bytes)
  deriving DecidableEq, Repr

namespace ClassOptions

def ofSettings (s : Settings) : ClassOptions :=
  ⟨s.types.flowBase, s.types.configurationAttribute, s.types.contextPropertyAttribute,
   s.types.conditionalEventArgs, s.legacy.start, s.names⟩

end ClassOptions

/-- The flow name of a workflow: the one that is configured for it, or its own. -/
def configuredName (names : List (Bytes × Bytes)) (name : Bytes) : Bytes :=
  match names.find? (·.1 == name) with
  | some entry => if entry.2.isEmpty then name else entry.2
  | none => name

def isLegacy (start name : Bytes) : Bool := !start.isEmpty && start.isPrefixOf name

/-- The flow class for a workflow name, without members. -/
def build (o : ClassOptions) (name : Bytes) : Class :=
  let nameArg : Argument := ⟨"Name", Text.quoted (configuredName o.names name)⟩
  let legacyArgs : List Argument :=
    if isLegacy o.legacyStart name then [⟨"LegacyMode", "true"⟩] else []
  { name := name, visibility := "public", baseType := o.flowBase,
    attributes := [⟨o.configurationAttribute, nameArg :: legacyArgs⟩],
    propertyAttribute := o.propertyAttribute, eventArgsType := o.eventArgsType }

/-- The method that returns a flow expression over its parameter `receiver`. -/
def configureMethod (expression runner receiver : Bytes) : Method where
  modifiers := "public override"
  returnType := runner
  name := "Configure"
  params := [⟨runner, receiver⟩]
  body := ("return " : Bytes) ++ expression ++ (";" : Bytes)

/-! ## Its text -/

def pad (level : Nat) : Bytes := Bytes.spaces (4 * level)

def lineAt (level : Nat) (s : Bytes) : Bytes := pad level ++ s ++ [Bytes.newline]

def rawLines (lines : List Bytes) : Bytes := lines.flatMap fun l => l ++ [Bytes.newline]

def braced (level : Nat) (inner : Bytes) : Bytes :=
  lineAt level Bytes.leftBrace ++ inner ++ lineAt level Bytes.rightBrace

def fileHeader : Bytes :=
  rawLines
    ["//------------------------------------------------------------------------------",
     "// <auto-generated>",
     "//     This code was generated by wfmigrate.",
     "//",
     "//     Changes to this file may cause incorrect behavior and will be lost if",
     "//     the code is regenerated.",
     "// </auto-generated>",
     "//------------------------------------------------------------------------------",
     ""]

namespace Attribute

def render (a : Attribute) : Bytes :=
  ("[" : Bytes) ++ a.type ++ ("(" : Bytes)
    ++ Bytes.joinWith ", " (a.args.map fun arg => arg.name ++ ("=" : Bytes) ++ arg.value)
    ++ (")]" : Bytes)

end Attribute

namespace Method

/-- A generated method at a level. The lines of its body after the first keep their own
indentation. -/
def render (level : Nat) (m : Method) : Bytes :=
  lineAt level
    (m.modifiers ++ (" " : Bytes) ++ m.returnType ++ (" " : Bytes) ++ m.name ++ ("(" : Bytes)
      ++ Bytes.joinWith ", " (m.params.map fun p => p.type ++ (" " : Bytes) ++ p.name)
      ++ (")" : Bytes))
    ++ braced level (lineAt (level + 1) m.body)

end Method

namespace Member

/-- The modifiers of a property: what is fixed or private is not virtual. -/
def propertyModifiers (visibility : Bytes) (fixed : Bool) : Bytes :=
  if fixed || visibility == Bytes.ofString "private" then visibility
  else visibility ++ (" virtual" : Bytes)

def callbackBody (level : Nat) (eventArgs argument body : Bytes) : Bytes :=
  lineAt level
    (eventArgs ++ (" " : Bytes) ++ argument ++ (" = new " : Bytes) ++ eventArgs ++ ("();" : Bytes))
    ++ rawLines (blockLines body (pad level))
    ++ lineAt level (("return " : Bytes) ++ argument ++ (".Result;" : Bytes))

/-- A member of the class `c` at a level. -/
def render (level : Nat) (c : Class) : Member → Bytes
  | .method _ text column => rawLines (reindent text column (pad level))
  | .property name type visibility fixed _ =>
    lineAt level (("[" : Bytes) ++ c.propertyAttribute ++ ("()]" : Bytes))
      ++ lineAt level
        (propertyModifiers visibility fixed ++ (" " : Bytes) ++ type ++ (" " : Bytes) ++ name
          ++ (" \x7b get; set; \x7d" : Bytes))
  | .callback name visibility argument body =>
    lineAt level (visibility ++ (" bool " : Bytes) ++ name ++ ("()" : Bytes))
      ++ braced level (callbackBody (level + 1) c.eventArgsType argument body)

end Member

namespace Class

def declaration (c : Class) : Bytes :=
  (if c.visibility.isEmpty then [] else c.visibility ++ (" " : Bytes))
    ++ ("class " : Bytes) ++ c.name
    ++ (if c.baseType.isEmpty then [] else (" : " : Bytes) ++ c.baseType)

/-- A class at a level; every member has a blank line in front of it. -/
def render (level : Nat) (c : Class) : Bytes :=
  c.attributes.flatMap (fun a => lineAt level a.render)
    ++ lineAt level c.declaration
    ++ braced level
      ((match c.configure? with
        | some m => [Bytes.newline] ++ m.render (level + 1)
        | none => [])
        ++ c.members.flatMap fun m => [Bytes.newline] ++ m.render (level + 1) c)

end Class

namespace File

/-- The using directives and the class at a level. -/
def renderBody (level : Nat) (f : File) : Bytes :=
  f.usings.flatMap (fun u => lineAt level (("using " : Bytes) ++ u ++ (";" : Bytes)))
    ++ (if f.usings.isEmpty then [] else ("\n\n" : Bytes))
    ++ (match f.class? with
      | some c => c.render level
      | none => [])

def render (f : File) : Bytes :=
  fileHeader
    ++ (if f.space.isEmpty then f.renderBody 0
      else lineAt 0 (("namespace " : Bytes) ++ f.space) ++ braced 0 (f.renderBody 1))

end File

end Flowsmith.FlowClass
