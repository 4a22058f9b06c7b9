import Flowsmith.Activity.Pass
import Flowsmith.Migration.Workflow
import Flowsmith.Report.Model

/-!
# Migrating one project

A session is the state of the migration of one project directory: the store of files, the loaded
project file and the section of the report so far. A step that fails leaves the session as far as it
got, so that the section accounts for every change that was made.

* `Session.removeFiles` : removes files with their project items;
* `Session.editFile` : edits a source in place;
* `Session.dropLegacyReferences` : removes references, saves the project, cleans the assembly
  information;
* `migrateWorkflows`, `migrateActivities` : the two migrations of a project.
-/

namespace Flowsmith

/-- The state of the migration of one project directory. -/
structure Session (σ : Type) where
  files : σ
  root : Bytes
  project : Project
  entries : List Entry := []

abbrev SessionM (σ : Type) : Type → Type := ExceptT Fault (StateM (Session σ))

namespace Session

variable {σ : Type}

def onFiles {α : Type} (f : FileM σ α) : SessionM σ α := do
  let s ← get
  let (result, files) := f.run s.files
  set { s with files := files }
  MonadExcept.ofExcept result

def report (e : Entry) : SessionM σ Unit := modify fun s => { s with entries := s.entries ++ [e] }

def onProject {α : Type} (f : Project → α × Project) : SessionM σ α := do
  let s ← get
  let (a, p) := f s.project
  set { s with project := p }
  return a

/-- A path as reports write it: seen from the root of the project. -/
def shown (root path : Bytes) : Bytes := (Path.relative? root path).getD path

variable [FileStore σ]

def removeFile (path : Bytes) : SessionM σ Unit := do
  onFiles (tryCatch (FileStore.remove path) fun f =>
    throw (f.wrap .fileWrite (("failed to remove " : Bytes) ++ path) [("file", .text path)]))
  let root := (← get).root
  let item ← MonadExcept.ofExcept (Project.relativePath root path)
  let count ← onProject (·.removeItems item)
  let detail : Bytes :=
    if count = 0 then [] else Bytes.natural count ++ (" project items" : Bytes)
  report { action := .remove, path := shown root path, detail := detail }

/-- Removes every file below the root whose name matches a pattern. -/
def removeFiles (pattern : Bytes) : SessionM σ Unit := do
  let root := (← get).root
  let paths ← onFiles (tryCatch (Files.find root pattern) fun f =>
    throw (f.wrap .fileAccess
      (("failed to search " : Bytes) ++ root ++ (" for " : Bytes) ++ pattern)))
  paths.forM removeFile

def editFile (path : Bytes) (edit : Bytes → Except Fault Bytes) : SessionM σ Unit := do
  let text ← onFiles (tryCatch (FileStore.read path) fun f =>
    throw (f.wrap .fileAccess (("failed to read " : Bytes) ++ path) [("file", .text path)]))
  let edited ← MonadExcept.ofExcept (Workflow.blame path (edit text))
  if edited ≠ text then
    onFiles (tryCatch (FileStore.write path edited) fun f =>
      throw (f.wrap .fileWrite (("failed to write " : Bytes) ++ path) [("file", .text path)]))
    report { action := .edit, path := shown (← get).root path }

/-- Writes the project file when it was edited. -/
def saveProject (detail : Bytes) : SessionM σ Unit := do
  let s ← get
  if s.project.modified then
    let saved ← onFiles s.project.save
    modify fun s => { s with project := saved }
    report { action := .project, path := shown s.root s.project.path, detail := detail }

/-- Removes the references and the import of the legacy engine, saves the project, and strips
workflow usings from the assembly information. -/
def dropLegacyReferences (o : Settings.Project) : SessionM σ Unit := do
  let refs ← onProject (·.removeReferences o.legacyReferences)
  let imports ← onProject (·.removeImport o.workflowTargets)
  saveProject
    (("removed " : Bytes) ++ Bytes.natural refs ++ (" legacy references and " : Bytes)
      ++ Bytes.natural imports ++ (" imports" : Bytes))
  let root := (← get).root
  let info ← onFiles (tryCatch (Files.findFirst? root o.assemblyInfo) fun f =>
    throw (f.wrap .fileAccess
      (("failed to search " : Bytes) ++ root ++ (" for " : Bytes) ++ o.assemblyInfo)))
  match info with
  | none => pure ()
  | some path => editFile path fun text => .ok (Activity.stripWorkflowUsings text)

def cancelledFault : Fault := .plain "context canceled"

def checkpoint (cancelled : Bool) : SessionM σ Unit :=
  if cancelled then throw cancelledFault else pure ()

/-! ## Workflows -/

/-- Writes the flow class of the workflow at a path and adds it to the project. -/
def migrateWorkflow (s : Settings) (registry : Option Registry) (path : Bytes) :
    SessionM σ Unit := do
  let w ← onFiles (Workflow.load s registry path)
  let out ← MonadExcept.ofExcept (w.transpile s)
  let dest := Path.join w.dir (out.name ++ (".cs" : Bytes))
  onFiles (tryCatch (FileStore.write dest out.source) fun f =>
    throw (f.wrap .fileWrite (("failed to write " : Bytes) ++ dest) [("file", .text dest)]))
  let root := (← get).root
  let item ← MonadExcept.ofExcept (Project.relativePath root dest)
  onProject fun p => ((), p.addCompile item)
  report
    { action := .generate, path := shown root dest, source := shown root path,
      warnings := out.warnings }

/-- Migrates the workflows at paths, unless the run is cancelled before one of them. -/
def migrateUnits (s : Settings) (registry : Option Registry) (cancelled : List Bytes → Bool) :
    List Bytes → SessionM σ Unit
  | [] => pure ()
  | path :: paths => do
    checkpoint (cancelled (path :: paths))
    migrateWorkflow s registry path
    migrateUnits s registry cancelled paths

/-- Writes a flow class for each workflow, then removes the legacy files and references. -/
def migrateWorkflows (s : Settings) (registry : Option Registry) (cancelled : List Bytes → Bool)
    (units : List Bytes) : SessionM σ Unit := do
  migrateUnits s registry cancelled units
  removeFiles "*.xoml*"
  dropLegacyReferences s.project

/-! ## Activities -/

/-- Edits the activities at paths, unless the run is cancelled before one of them. -/
def migrateSources (s : Settings) (cancelled : List Bytes → Bool) : List Bytes → SessionM σ Unit
  | [] => pure ()
  | path :: paths => do
    checkpoint (cancelled (path :: paths))
    editFile path (Activity.migrate s.activities.usings s.types.executionContext)
    migrateSources s cancelled paths

/-- Removes the designer files, edits the activities, and removes the legacy references. -/
def migrateActivities (s : Settings) (cancelled : List Bytes → Bool) : SessionM σ Unit := do
  removeFiles s.activities.designerPattern
  let root := (← get).root
  let paths ← onFiles (tryCatch (Files.find root s.activities.filePattern) fun f =>
    throw (f.wrap .fileAccess
      (("failed to search " : Bytes) ++ root ++ (" for activities" : Bytes))))
  migrateSources s cancelled paths
  dropLegacyReferences s.project

end Session

end Flowsmith
