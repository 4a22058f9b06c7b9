import Flowsmith.Source.Scan
import Flowsmith.Text.Match

/-!
# Passes over activity sources

An activity is kept as a source and edited in place by four passes, in this order:

* `dropValidationOptions` : attribute lines that mention validation options go;
* `dropWorkflowUsings` : using directives for workflow namespaces go;
* `addUsings` : using directives for the new namespaces come in front of the first one;
* `settleClass` : the first class loses `partial`, and becomes abstract when it does not execute.

`migrate` runs all four.
-/

namespace Flowsmith.Activity

/-! ## Attributes and usings -/

/-- The size of an attribute that mentions validation options and ends its line, with the line feeds
after it. -/
def validationOption? : Bytes → Option Nat
  | 0x5B :: s => do
    let mention : Bytes := "ValidationOption"
    let i ← Bytes.indexOf? mention (Text.firstLine s)
    let start := i + mention.length
    let k ← Text.closedLine? ']'.toUInt8 (s.drop start)
    return 1 + start + k
  | _ => none

def dropValidationOptions (text : Bytes) : Bytes := Bytes.eraseMatches validationOption? text

/-- The size of the beginning of a using directive for a workflow namespace. -/
def workflowUsingHead? (s : Bytes) : Option Nat := do
  let rest ← s.dropStart? "using System"
  let k ← Text.anyCharacter? rest
  let _ ← Bytes.dropStart? (rest.drop k) "Workflow"
  return ("using System" : Bytes).length + k + ("Workflow" : Bytes).length

/-- The size of a using directive for a workflow namespace that ends its line, with the line feeds
after it. -/
def workflowUsingLine? (s : Bytes) : Option Nat := do
  let head ← workflowUsingHead? s
  let k ← Text.closedLine? ';'.toUInt8 (s.drop head)
  return head + k

/-- Drops the lines of using directives for workflow namespaces. -/
def dropWorkflowUsings (text : Bytes) : Bytes := Bytes.eraseMatches workflowUsingLine? text

/-- The size of a using directive for a workflow namespace. -/
def workflowUsing? (s : Bytes) : Option Nat := do
  let head ← workflowUsingHead? s
  let k ← Text.throughMark? ';'.toUInt8 (s.drop head)
  return head + k

/-- Drops using directives for workflow namespaces and leaves what stands around them. -/
def stripWorkflowUsings (text : Bytes) : Bytes := Bytes.eraseMatches workflowUsing? text

/-- Whether a line that begins here imports the namespace. -/
def importsAt (space : Bytes) (s : Bytes) : Bool :=
  match Bytes.dropStart? (s.dropWhile Text.isSpace) "using" with
  | none => false
  | some rest =>
    Text.holdsAfterSpaces (fun s =>
      match s.dropStart? space with
      | none => false
      | some rest => (rest.dropWhile Text.isSpace).head? == some ';'.toUInt8) rest

/-- Whether some line after a line feed imports the namespace. -/
def importsLater (space : Bytes) : Bytes → Bool
  | [] => false
  | c :: s => (c == Bytes.newline && importsAt space s) || importsLater space s

def imports (text space : Bytes) : Bool := importsAt space text || importsLater space text

/-- The using directive for a namespace, on a line of its own. -/
def usingLine (space : Bytes) : Bytes := ("using " : Bytes) ++ space ++ (";\n" : Bytes)

/-- Adds using directives for the namespaces that the text does not import, in front of its first
one or at its beginning. -/
def addUsings (spaces : List Bytes) (text : Bytes) : Bytes :=
  let added := (spaces.filter fun s => !imports text s).flatMap usingLine
  let pos := (Bytes.indexOf? "using " text).getD 0
  text.take pos ++ added ++ text.drop pos

/-! ## The class -/

/-- Whether a member is the method that runs an activity. -/
def isExecute (context : Bytes) (m : Source.Member) : Bool :=
  m.isMethod && m.name == Bytes.ofString "Execute"
    && (m.params.head?.any fun p => p.type == context)

/-- The words of a list of modifiers without one of them, each followed by a space. -/
def removeWord (header word : Bytes) : Bytes :=
  let kept := header.words.filter (· != word)
  if kept.isEmpty then [] else Bytes.joinWith [0x20] kept ++ [0x20]

/-- What stands in front of the keyword of a class that is not abstract, after the pass. -/
def settledHeader (cls : Source.Class) (context header : Bytes) : Bytes :=
  let header :=
    if cls.members.any (isExecute context) then header else header ++ ("abstract " : Bytes)
  if cls.hasModifier "partial" then removeWord header "partial" else header

/-- Drops `partial` from the first class, and makes it abstract when no method executes in
`context`. An abstract class is kept. -/
def settleClass (context text : Bytes) : Except Fault Bytes := do
  let found ← Source.outline text
  match found.class? with
  | none => .error (.new .noTypeDeclaration "source declares no class")
  | some cls =>
    if cls.hasModifier "abstract" then return text
    else
      let header := settledHeader cls context (text.slice cls.start cls.keywordStart)
      return text.take cls.start ++ header ++ text.drop cls.keywordStart

/-! ## All passes -/

abbrev Pass := Bytes → Except Fault Bytes

def passes (usings : List Bytes) (context : Bytes) : List Pass :=
  [fun s => .ok (dropValidationOptions s), fun s => .ok (dropWorkflowUsings s),
   fun s => .ok (addUsings usings s), settleClass context]

/-- Runs passes in order, up to the first fault. -/
def apply (ps : List Pass) (text : Bytes) : Except Fault Bytes :=
  ps.foldlM (fun s pass => pass s) text

def migrate (usings : List Bytes) (context text : Bytes) : Except Fault Bytes :=
  apply (passes usings context) text

end Flowsmith.Activity
