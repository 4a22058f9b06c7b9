import Flowsmith.Files.Overlay
import Flowsmith.Migration.Session

/-!
# Runs

A run migrates the workflow project, the activity project or both, and gives a report. The report is
there also when the run fails, and then says how far it got. A dry run works on an overlay of the
store and reports the same.

* `Run.workflows`, `Run.activities` : one project;
* `Run.perform` : a command.
-/

namespace Flowsmith.Run

inductive Command where
  | all
  | workflows
  | activities
  deriving DecidableEq, Repr

namespace Command

def name : Command → Bytes
  | all => "migrate"
  | workflows => "workflows"
  | activities => "activities"

end Command

/-- Whether a run turns out to be cancelled when it comes to the first of the workflows that are left, and
to the first of the activity sources that are left. -/
structure Cancellation where
  workflows : List Bytes → Bool
  activities : List Bytes → Bool

namespace Cancellation

/-- A run that is cancelled before it begins, or never. -/
def const (cancelled : Bool) : Cancellation := ⟨fun _ => cancelled, fun _ => cancelled⟩

instance : Coe Bool Cancellation := ⟨const⟩

end Cancellation

/-- How a command is run. -/
structure Options where
  workflowDir : Bytes := []
  registryPath : Bytes := []
  /-- The workflow directory when it is empty. -/
  activityDir : Bytes := []
  dryRun : Bool := false
  cancelled : Cancellation := .const false

namespace Options

def activities (o : Options) : Bytes :=
  if o.activityDir.isEmpty then o.workflowDir else o.activityDir

end Options

/-- The sections of a report as far as a run got, the fault that ended it, and the files
afterwards. -/
structure Outcome (σ : Type) where
  sections : List Section := []
  fault? : Option Fault := none
  files : σ

variable {σ : Type} [FileStore σ]

def requireDirectory (dir : Bytes) : FileM σ Unit := do
  if !(← Files.isDirectory dir) then
    throw (.new .notFound
      (("the following directory could not be found: " : Bytes) ++ dir) [("dir", .text dir)])

def openProject (dir : Bytes) : FileM σ Project := do
  Project.load (← Project.findFile dir)

/-- Runs a migration on a loaded project, with a section of the report. -/
def inSession (name dir : Bytes) (project : Project) (files : σ) (migrate : SessionM σ Unit) :
    Outcome σ :=
  let (result, s) := migrate.run { files := files, root := dir, project := project }
  { sections := [⟨name, dir, s.entries⟩]
    fault? := match result with
      | .ok _ => none
      | .error f => some f
    files := s.files }

/-- What is read before workflows are migrated. -/
def prepareWorkflows (o : Options) : FileM σ (Option Registry × Project × List Bytes) := do
  requireDirectory o.workflowDir
  let registry ← if o.registryPath.isEmpty then pure none else some <$> Registry.load o.registryPath
  let project ← openProject o.workflowDir
  let units ← Workflow.find o.workflowDir
  return (registry, project, units)

def workflows (s : Settings) (o : Options) (files : σ) : Outcome σ :=
  match (prepareWorkflows o).run files with
  | (.error f, files) => { fault? := some f, files := files }
  | (.ok (registry, project, units), files) =>
    inSession "workflows" o.workflowDir project files
      (Session.migrateWorkflows s registry o.cancelled.workflows units)

/-- What is read before activities are migrated. -/
def prepareActivities (o : Options) : FileM σ Project := do
  requireDirectory o.activities
  openProject o.activities

def activities (s : Settings) (o : Options) (files : σ) : Outcome σ :=
  match (prepareActivities o).run files with
  | (.error f, files) => { fault? := some f, files := files }
  | (.ok project, files) =>
    inSession "activities" o.activities project files (Session.migrateActivities s o.cancelled.activities)

/-- The second run after the first, unless the first failed. -/
def andThen (first : Outcome σ) (second : σ → Outcome σ) : Outcome σ :=
  match first.fault? with
  | some _ => first
  | none =>
    let next := second first.files
    { next with sections := first.sections ++ next.sections }

def onStore (s : Settings) (c : Command) (o : Options) (files : σ) : Outcome σ :=
  match c with
  | .workflows => workflows s o files
  | .activities => activities s o files
  | .all => andThen (workflows s o files) (activities s o)

/-- Runs a command; a dry run leaves the files of the store as they are. -/
def perform (s : Settings) (c : Command) (o : Options) (files : σ) :
    Report × Option Fault × σ :=
  let report := fun sections => { command := c.name, dryRun := o.dryRun, sections : Report }
  if o.dryRun then
    let out := onStore s c o ({ base := files } : Overlay σ)
    (report out.sections, out.fault?, out.files.base)
  else
    let out := onStore s c o files
    (report out.sections, out.fault?, out.files)

end Flowsmith.Run
