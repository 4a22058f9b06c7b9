import Flowsmith.Proofs.Migration.Session

/-!
# One migration of a project directory

A run checks that its directory is there and reads the registry, and then migrates the project below the
directory. The migration can be made again without the first part.

* `Session.migrateWorkflows_iff`, `Session.migrateActivities_iff` : the steps of a migration;
* `Run.workflowsIn`, `Run.activitiesIn` : the migrations of the project below a directory;
* `Run.workflows_eq_in` : a run of workflows makes them;
* `Run.workflowsIn_eq`, `Run.exists_workflowsIn` and the like : the parts of a migration without a fault.
-/

namespace Flowsmith

namespace Session

variable {σ : Type} [FileStore σ] {S S' : Session σ} {s : Settings} {cancelled : List Bytes → Bool} {u : Unit}

theorem migrateWorkflows_iff {registry : Option Registry} {units : List Bytes} :
    Ends (migrateWorkflows s registry cancelled units) S u S' ↔
      ∃ S₁ S₂, Ends (migrateUnits s registry cancelled units) S () S₁ ∧
        Ends (removeFiles "*.xoml*") S₁ () S₂ ∧ Ends (dropLegacyReferences s.project) S₂ u S' := by
  simp only [migrateWorkflows, Ends.bind_iff]
  constructor
  · rintro ⟨_, S₁, hmigrate, _, S₂, hremove, hdrop⟩
    exact ⟨S₁, S₂, hmigrate, hremove, hdrop⟩
  · rintro ⟨S₁, S₂, hmigrate, hremove, hdrop⟩
    exact ⟨(), S₁, hmigrate, (), S₂, hremove, hdrop⟩

theorem migrateActivities_iff :
    Ends (migrateActivities s cancelled) S u S' ↔
      ∃ S₁ paths t S₂, Ends (removeFiles s.activities.designerPattern) S () S₁ ∧
        Ends (Files.find S₁.root s.activities.filePattern) S₁.files paths t ∧
        Ends (migrateSources s cancelled paths) { S₁ with files := t } () S₂ ∧
        Ends (dropLegacyReferences s.project) S₂ u S' := by
  simp only [migrateActivities, Ends.bind_iff, Ends.get_iff, onFiles_iff, Ends.tryCatch_iff]
  constructor
  · rintro ⟨_, S₁, hremove, _, _, ⟨rfl, rfl⟩, paths, _, ⟨t, hfind, rfl⟩, _, S₂, hedit, hdrop⟩
    exact ⟨S₁, paths, t, S₂, hremove, hfind, hedit, hdrop⟩
  · rintro ⟨S₁, paths, t, S₂, hremove, hfind, hedit, hdrop⟩
    exact ⟨(), S₁, hremove, _, _, ⟨rfl, rfl⟩, paths, _, ⟨t, hfind, rfl⟩, (), S₂, hedit, hdrop⟩

end Session

namespace Run

variable {σ : Type} [FileStore σ]

def openWorkflows (dir : Bytes) : FileM σ (Project × List Bytes) := do
  let project ← openProject dir
  let units ← Workflow.find dir
  return (project, units)

/-- The migration of the workflow project below a directory, for a registry that was read. -/
def workflowsIn (s : Settings) (dir : Bytes) (registry : Option Registry) (cancelled : List Bytes → Bool)
    (files : σ) : Outcome σ :=
  match (openWorkflows dir).run files with
  | (.error f, files) => { fault? := some f, files := files }
  | (.ok (project, units), files) =>
    inSession "workflows" dir project files (Session.migrateWorkflows s registry cancelled units)

/-- The migration of the activity project below a directory. -/
def activitiesIn (s : Settings) (dir : Bytes) (cancelled : List Bytes → Bool) (files : σ) : Outcome σ :=
  match (openProject dir).run files with
  | (.error f, files) => { fault? := some f, files := files }
  | (.ok project, files) =>
    inSession "activities" dir project files (Session.migrateActivities s cancelled)

variable {s : Settings} {o : Options} {dir name : Bytes} {registry : Option Registry}
    {cancelled : List Bytes → Bool}
  {files t : σ}

/-! ## Runs -/

/-- A run of workflows is a migration once it has its directory and its registry. -/
theorem workflows_eq_in {t' : σ} (hdir : Ends (requireDirectory o.workflowDir) files () t)
    (hregistry : Ends (openRegistry o) t registry t') :
    workflows s o files = workflowsIn s o.workflowDir registry o.cancelled.workflows t' := by
  have hprepare : ran (prepareWorkflows o) files =
      ran (do
        let (project, units) ← openWorkflows o.workflowDir
        return (registry, project, units)) t' := by
    rw [prepareWorkflows_eq, ran_bind, show ran (requireDirectory o.workflowDir) files = _ from hdir]
    show ran (openRegistry o >>= _) t = _
    rw [ran_bind, show ran (openRegistry o) t = _ from hregistry]
    simp only [openWorkflows, bind_assoc, pure_bind]
  unfold workflows workflowsIn
  rw [show (prepareWorkflows o).run files = _ from hprepare, ran_bind,
    show (openWorkflows o.workflowDir).run t' = ran (openWorkflows o.workflowDir) t' from rfl]
  match ran (openWorkflows o.workflowDir) t' with
  | (.error f, t₁) => rfl
  | (.ok (project, units), t₁) => rfl

/-! ## Migrations without a fault -/

omit [FileStore σ] in
/-- A session that ends without a fault gives its section and its files. -/
theorem inSession_eq {project : Project} {migrate : SessionM σ Unit} {S : Session σ}
    (h : Ends migrate { files := files, root := dir, project := project } () S) :
    inSession name dir project files migrate =
      { sections := [⟨name, dir, S.entries⟩], files := S.files } := by
  unfold inSession
  rw [show migrate.run _ = _ from h]

omit [FileStore σ] in
theorem exists_inSession {project : Project} {migrate : SessionM σ Unit}
    (h : (inSession name dir project files migrate).fault? = none) :
    ∃ S, Ends migrate { files := files, root := dir, project := project } () S := by
  obtain ⟨r, S, hran⟩ : ∃ r S, ran migrate { files := files, root := dir, project := project } = (r, S) :=
    ⟨_, _, rfl⟩
  unfold inSession at h
  rw [show migrate.run _ = _ from hran] at h
  cases r with
  | error f => cases h
  | ok u => exact ⟨S, hran⟩

theorem keeps_openWorkflows {I : σ → Prop} (h : Quiet I) (dir : Bytes) :
    Keeps I (openWorkflows dir) :=
  (keeps_openProject h dir).bind fun _ => (Workflow.keeps_find h dir).bind fun _ => .pure _

theorem openWorkflows_iff {project : Project} {units : List Bytes} {t' : σ} :
    Ends (openWorkflows dir) files (project, units) t' ↔
      ∃ t, Ends (openProject dir) files project t ∧ Ends (Files.find dir "*.xoml.cs") t units t' := by
  simp only [openWorkflows, Ends.bind_iff, Ends.pure_iff, Workflow.find, Ends.tryCatch_iff,
    Prod.mk.injEq]
  constructor
  · rintro ⟨_, t, hopen, _, _, hfind, ⟨rfl, rfl⟩, rfl⟩
    exact ⟨t, hopen, hfind⟩
  · rintro ⟨t, hopen, hfind⟩
    exact ⟨_, t, hopen, _, _, hfind, ⟨rfl, rfl⟩, rfl⟩

theorem workflowsIn_eq {project : Project} {units : List Bytes} {S : Session σ}
    (hopen : Ends (openWorkflows dir) files (project, units) t)
    (h : Ends (Session.migrateWorkflows s registry cancelled units)
      { files := t, root := dir, project := project } () S) :
    workflowsIn s dir registry cancelled files =
      { sections := [⟨"workflows", dir, S.entries⟩], files := S.files } := by
  unfold workflowsIn
  rw [show (openWorkflows dir).run files = _ from hopen]
  exact inSession_eq h

theorem exists_workflowsIn (h : (workflowsIn s dir registry cancelled files).fault? = none) :
    ∃ project units t S, Ends (openWorkflows dir) files (project, units) t ∧
      Ends (Session.migrateWorkflows s registry cancelled units)
        { files := t, root := dir, project := project } () S ∧
      workflowsIn s dir registry cancelled files =
        { sections := [⟨"workflows", dir, S.entries⟩], files := S.files } := by
  obtain ⟨r, t, hopen⟩ : ∃ r t, ran (openWorkflows dir) files = (r, t) := ⟨_, _, rfl⟩
  unfold workflowsIn at h
  rw [show (openWorkflows dir).run files = _ from hopen] at h
  match r, hopen with
  | .error f, _ => cases h
  | .ok (project, units), hopen =>
    obtain ⟨S, hend⟩ := exists_inSession h
    exact ⟨project, units, t, S, hopen, hend, workflowsIn_eq hopen hend⟩

theorem activitiesIn_eq {project : Project} {S : Session σ}
    (hopen : Ends (openProject dir) files project t)
    (h : Ends (Session.migrateActivities s cancelled)
      { files := t, root := dir, project := project } () S) :
    activitiesIn s dir cancelled files =
      { sections := [⟨"activities", dir, S.entries⟩], files := S.files } := by
  unfold activitiesIn
  rw [show (openProject dir).run files = _ from hopen]
  exact inSession_eq h

theorem exists_activitiesIn (h : (activitiesIn s dir cancelled files).fault? = none) :
    ∃ project t S, Ends (openProject dir) files project t ∧
      Ends (Session.migrateActivities s cancelled)
        { files := t, root := dir, project := project } () S ∧
      activitiesIn s dir cancelled files =
        { sections := [⟨"activities", dir, S.entries⟩], files := S.files } := by
  obtain ⟨r, t, hopen⟩ : ∃ r t, ran (openProject dir) files = (r, t) := ⟨_, _, rfl⟩
  unfold activitiesIn at h
  rw [show (openProject dir).run files = _ from hopen] at h
  match r, hopen with
  | .error f, _ => cases h
  | .ok project, hopen =>
    obtain ⟨S, hend⟩ := exists_inSession h
    exact ⟨project, t, S, hopen, hend, activitiesIn_eq hopen hend⟩

end Run

end Flowsmith
