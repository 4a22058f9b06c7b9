import Flowsmith.Text.Bytes

/-!
# Reports

A report says what a command did: sections for the parts of the command, and in each section an
entry for every file that was changed, in the order of the changes.

* `Report.summary` : how many entries of each action there are;
* `Report.warnings` : all warnings in order.
-/

namespace Flowsmith

/-- What happened to a file. -/
inductive Action where
  | generate
  | edit
  | remove
  | project
  | other (name : Bytes)
  deriving DecidableEq, Repr

namespace Action

def name : Action → Bytes
  | generate => "generate"
  | edit => "rewrite"
  | remove => "remove"
  | project => "project"
  | other s => s

def ofName (s : Bytes) : Action :=
  if s == Bytes.ofString "generate" then .generate
  else if s == Bytes.ofString "rewrite" then .edit
  else if s == Bytes.ofString "remove" then .remove
  else if s == Bytes.ofString "project" then .project
  else .other s

end Action

/-- A change of one file. -/
structure Entry where
  action : Action
  path : Bytes
  source : Bytes := []
  detail : Bytes := []
  warnings : List Bytes := []
  deriving DecidableEq, Repr

/-- The changes of one part of a command. -/
structure Section where
  name : Bytes
  root : Bytes
  entries : List Entry := []
  deriving DecidableEq, Repr

/-- What a command did. -/
structure Report where
  command : Bytes
  dryRun : Bool := false
  sections : List Section := []
  deriving DecidableEq, Repr

/-- How many entries there are. -/
structure Summary where
  generated : Nat := 0
  edited : Nat := 0
  removed : Nat := 0
  projectEdits : Nat := 0
  warnings : Nat := 0
  deriving DecidableEq, Repr

namespace Report

def entries (r : Report) : List Entry := r.sections.flatMap (·.entries)

def warnings (r : Report) : List Bytes := r.entries.flatMap (·.warnings)

def count (r : Report) (a : Action) : Nat := (r.entries.filter (·.action == a)).length

/-- How many entries of each action there are, and how many warnings. -/
def summary (r : Report) : Summary :=
  ⟨r.count .generate, r.count .edit, r.count .remove, r.count .project, r.warnings.length⟩

end Report

end Flowsmith
