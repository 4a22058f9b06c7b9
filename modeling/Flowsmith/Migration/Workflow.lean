import Flowsmith.FlowClass.Render
import Flowsmith.Flow.Expression
import Flowsmith.Project.Registry
import Flowsmith.Source.Heading

/-!
# Workflows

A workflow is a code-behind source and the definition beside it. It becomes one flow class: the flow
expression of the definition in a method, and the members of the code-behind class after it.

* `Workflow.load` : a workflow from its code-behind file;
* `Workflow.find` : the code-behind files below a directory;
* `Workflow.transpile` : the flow class of a workflow.
-/

namespace Flowsmith

/-- A workflow that is ready to be transpiled. -/
structure Workflow where
  /-- The directory of the code-behind file. -/
  dir : Bytes := []
  codeBehindPath : Bytes := []
  markupPath : Bytes := []
  codeBehind : Bytes := []
  markup : Bytes := []
  space : Bytes := []
  className : Bytes := []
  /-- The name under which the class is registered, or else the name of the class. -/
  name : Bytes := []
  deriving DecidableEq, Repr

/-- The flow class of a workflow. -/
structure Transpiled where
  name : Bytes
  expression : Bytes
  source : Bytes
  warnings : List Bytes
  skipped : List Bytes
  deriving DecidableEq, Repr

namespace Workflow

/-! ## Transpiling -/

def legacyNamespace : Bytes := "System.Workflow"

def keptUsings (usings : List Bytes) : List Bytes :=
  usings.filter fun u => !legacyNamespace.isPrefixOf u

def blame {α : Type} (file : Bytes) : Except Fault α → Except Fault α
  | .ok a => .ok a
  | .error f => .error (f.withDetail "file" (.text file))

def transpile (s : Settings) (w : Workflow) : Except Fault Transpiled := do
  let flow ← blame w.markupPath (Flow.ofMarkup s.flow w.markup)
  let source ← Source.outline w.codeBehind
  let carried ← blame w.codeBehindPath (FlowClass.carry (.ofSettings s) source.class?)
  let base := FlowClass.build (.ofSettings s) w.name
  let cls : FlowClass.Class :=
    { base with
      configure? := some (FlowClass.configureMethod flow.text s.types.flowRunner s.flow.receiver)
      members := carried.members }
  let file : FlowClass.File :=
    { space := w.space, usings := keptUsings source.usings, class? := some cls }
  return {
    name := w.name
    expression := flow.text
    source := file.render
    warnings := flow.warnings ++ carried.warnings
    skipped := carried.skipped }

/-! ## Loading -/

/-- The name of the definition beside a code-behind file. -/
def markupName (codeBehindPath : Bytes) : Bytes := Path.trimEnd (Path.base codeBehindPath) ".cs"

/-- The namespace that a code-behind source declares, or else the default one. -/
def spaceOf (s : Settings) (codeBehind : Bytes) : Bytes :=
  (Source.searchNamespace codeBehind).getD s.legacy.defaultNamespace

/-- The class that a code-behind source declares, or else the name of its file. -/
def classNameOf (codeBehindPath codeBehind : Bytes) : Bytes :=
  let file := markupName codeBehindPath
  (Source.searchPartialClass codeBehind).getD (Path.trimEnd file (Path.extension file))

variable {σ : Type} [FileStore σ]

/-- Reads the code-behind file at a path and the one definition with its name below its
directory. -/
def load (s : Settings) (registry : Option Registry) (path : Bytes) : FileM σ Workflow := do
  let codeBehind ← tryCatch (FileStore.read path) fun f =>
    throw (f.wrap .fileAccess (("failed to read code-behind " : Bytes) ++ path)
      [("file", .text path)])
  let dir := Path.directory path
  let file := markupName path
  let space := spaceOf s codeBehind
  let className := classNameOf path codeBehind
  let name := (registry.bind (·.lookup? space className)).getD className
  let found ← tryCatch (Files.find dir file) fun f =>
    throw (f.wrap .fileAccess
      (("failed to search " : Bytes) ++ dir ++ (" for " : Bytes) ++ file))
  match found with
  | [markupPath] =>
    let markup ← tryCatch (FileStore.read markupPath) fun f =>
      throw (f.wrap .fileAccess (("failed to read definition " : Bytes) ++ markupPath)
        [("file", .text markupPath)])
    return {
      dir := dir, codeBehindPath := path, markupPath := markupPath, codeBehind := codeBehind,
      markup := markup, space := space, className := className, name := name }
  | _ =>
    throw (.new .notFound
      (("expected one definition file " : Bytes) ++ file ++ (" below " : Bytes) ++ dir
        ++ (", found " : Bytes) ++ Bytes.natural found.length)
      [("file", .text path), ("count", .number found.length)])

/-- The code-behind files below a directory. -/
def find (dir : Bytes) : FileM σ (List Bytes) :=
  tryCatch (Files.find dir "*.xoml.cs") fun f =>
    throw (f.wrap .fileAccess
      (("failed to search " : Bytes) ++ dir ++ (" for workflows" : Bytes)))

end Workflow

end Flowsmith
