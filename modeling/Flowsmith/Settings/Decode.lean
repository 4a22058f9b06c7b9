import Flowsmith.Fault
import Flowsmith.Settings.Model
import Flowsmith.Text.Numeral

/-!
# Decoding settings

A tree of values is decoded leniently: a number is taken for a text, a text for a number or a list,
and a missing or null value is the empty one. A key is found by its exact spelling, or else by one
that differs in case only.

* `Settings.encode` : settings as a tree of values;
* `Settings.decode` : settings from a tree of values;
* `Settings.check` : what must hold of settings before they are used.
-/

namespace Flowsmith.Settings

/-! ## Values -/

namespace Value

def text? : Value → Option Bytes
  | .null => some []
  | .flag b => some (if b then "1" else "0")
  | .whole n => some (Bytes.integer n)
  | .real x => some x.positional
  | .text s => some s
  | _ => none

def integer? : Value → Option Int
  | .null => some 0
  | .flag b => some (if b then 1 else 0)
  | .whole n => some (Int.bmod n (twoTo 64))
  | .real x => some x.truncate
  | .text s => if s.isEmpty then some 0 else Text.integer? s
  | _ => none

def truth? : Value → Option Bool
  | .null => some false
  | .flag b => some b
  | .whole n => some (n != 0)
  | .real x => some !x.isZero
  | .text s => if s.isEmpty then some false else Text.truth? s
  | _ => none

def texts? : Value → Option (List Bytes)
  | .null => some []
  | .text s => some (if s.isEmpty then [] else Bytes.splitOn ','.toUInt8 s)
  | .list items => items.mapM text?
  | .table [] => some []
  | v => v.text?.map ([·])

def table? : Value → Option Table
  | .null => some []
  | .table entries => some entries
  | .moment _ => some []
  | _ => none

mutual

/-- A value as a table of texts; a list counts as the union of its items. -/
def textTable? : Value → Option Table
  | .null => some []
  | .table entries => entries.mapM fun entry => entry.2.text?.map fun s => (entry.1, .text s)
  | .list items => textTables? items
  | .moment zoned => if zoned then some [] else none
  | _ => none

def textTables? : List Value → Option Table
  | [] => some []
  | v :: vs => do
    let first ← textTable? v
    return Table.over first (← textTables? vs)

end

def textsByName? (v : Value) : Option (List (Bytes × Bytes)) := do
  (← v.textTable?).mapM fun entry => entry.2.text?.map (entry.1, ·)

end Value

/-- The value of a key: by its exact spelling, or else by one that differs in case only; null when
there is neither. -/
def lookup (t : Table) (key : Bytes) : Value :=
  match t.get? key with
  | some v => v
  | none =>
    ((t.find? fun entry => entry.1.map Bytes.lowerByte == key).map (·.2)).getD .null

/-! ## Settings -/

def Flow.decode (t : Table) : Option Flow := do
  return {
    receiver := ← (lookup t "receiver").text?
    baseDepth := ← (lookup t "base_depth").integer?
    indentWidth := ← (lookup t "indent_width").integer?
    sequenceElements := ← (lookup t "sequence_elements").texts?
    conditionalElement := ← (lookup t "conditional_element").text?
    branchElement := ← (lookup t "branch_element").text?
    conditionElements := ← (lookup t "condition_elements").texts?
    conditionAttribute := ← (lookup t "condition_attribute").text?
    faultHandlers := ← (lookup t "fault_handlers").texts?
    strictConditions := ← (lookup t "strict_conditions").truth? }

def Types.decode (t : Table) : Option Types := do
  return {
    flowBase := ← (lookup t "flow_base").text?
    flowRunner := ← (lookup t "flow_runner").text?
    configurationAttribute := ← (lookup t "configuration_attribute").text?
    contextPropertyAttribute := ← (lookup t "context_property_attribute").text?
    conditionalEventArgs := ← (lookup t "conditional_event_args").text?
    executionContext := ← (lookup t "execution_context").text? }

def Legacy.decode (t : Table) : Option Legacy := do
  return {
    start := ← (lookup t "prefix").text?
    defaultNamespace := ← (lookup t "default_namespace").text? }

def Activities.decode (t : Table) : Option Activities := do
  return {
    filePattern := ← (lookup t "file_pattern").text?
    designerPattern := ← (lookup t "designer_pattern").text?
    usings := ← (lookup t "usings").texts? }

def Project.decode (t : Table) : Option Project := do
  return {
    workflowTargets := ← (lookup t "workflow_targets").text?
    legacyReferences := ← (lookup t "legacy_references").texts?
    assemblyInfo := ← (lookup t "assembly_info").text? }

/-- Settings from a tree of values, when every value can be taken for what is asked for. -/
def decode? (t : Table) : Option Settings := do
  return {
    flow := ← Flow.decode (← (lookup t "flow").table?)
    types := ← Types.decode (← (lookup t "types").table?)
    legacy := ← Legacy.decode (← (lookup t "legacy").table?)
    strictAccessors := ← (lookup (← (lookup t "migration").table?) "strict_accessors").truth?
    activities := ← Activities.decode (← (lookup t "activities").table?)
    project := ← Project.decode (← (lookup t "project").table?)
    names := ← (lookup t "names").textsByName? }

def encode (s : Settings) : Table :=
  let text := Value.text
  let texts := fun xs : List Bytes => Value.list (xs.map .text)
  [("flow", .table
      [("receiver", text s.flow.receiver), ("base_depth", .whole s.flow.baseDepth),
       ("indent_width", .whole s.flow.indentWidth),
       ("sequence_elements", texts s.flow.sequenceElements),
       ("conditional_element", text s.flow.conditionalElement),
       ("branch_element", text s.flow.branchElement),
       ("condition_elements", texts s.flow.conditionElements),
       ("condition_attribute", text s.flow.conditionAttribute),
       ("fault_handlers", texts s.flow.faultHandlers),
       ("strict_conditions", .flag s.flow.strictConditions)]),
   ("types", .table
      [("flow_base", text s.types.flowBase), ("flow_runner", text s.types.flowRunner),
       ("configuration_attribute", text s.types.configurationAttribute),
       ("context_property_attribute", text s.types.contextPropertyAttribute),
       ("conditional_event_args", text s.types.conditionalEventArgs),
       ("execution_context", text s.types.executionContext)]),
   ("legacy", .table
      [("prefix", text s.legacy.start), ("default_namespace", text s.legacy.defaultNamespace)]),
   ("migration", .table [("strict_accessors", .flag s.strictAccessors)]),
   ("activities", .table
      [("file_pattern", text s.activities.filePattern),
       ("designer_pattern", text s.activities.designerPattern),
       ("usings", texts s.activities.usings)]),
   ("project", .table
      [("workflow_targets", text s.project.workflowTargets),
       ("legacy_references", texts s.project.legacyReferences),
       ("assembly_info", text s.project.assemblyInfo)]),
   ("names", .table (s.names.map fun n => (n.1, text n.2)))]

/-- What must hold of settings before they are used. -/
def check (s : Settings) : Except Fault Settings :=
  let fail := fun m : Bytes => Except.error (Fault.new .configParse m)
  if s.flow.receiver.isEmpty then fail "flow.receiver must not be empty"
  else if s.flow.baseDepth < 0 then
    fail (("flow.base_depth must be >= 0, got " : Bytes) ++ Bytes.integer s.flow.baseDepth)
  else if s.flow.indentWidth < 0 then
    fail (("flow.indent_width must be >= 0, got " : Bytes) ++ Bytes.integer s.flow.indentWidth)
  else if s.flow.sequenceElements.isEmpty then
    fail "flow.sequence_elements must name the root element"
  else if s.flow.conditionalElement.isEmpty || s.flow.branchElement.isEmpty then
    fail "flow.conditional_element and flow.branch_element are required"
  else .ok s

def decode (t : Table) : Except Fault Settings :=
  match decode? t with
  | some s => check s
  | none =>
    .error (Fault.wrap (.plain "a value has the wrong type") .configParse
      "failed to unmarshal configuration")

/-- The default settings with layers laid over them, the last one on top. -/
def ofLayers (layers : List Table) : Except Fault Settings :=
  decode (layers.foldl Table.over (encode default))

end Flowsmith.Settings
