import Flowsmith.Proofs.Files.Logged
import Flowsmith.Proofs.Migration.Session

/-!
# Runs on stores that give the same answers

A run sees the files only through the answers of its store. On two stores that give the same answers
it writes the same report and ends in the same way.

* `Session.Beside R` : sessions that differ only in their stores, and those are related;
* `meets_removeFile`, `meets_editFile`, `meets_saveProject`, `meets_migrateWorkflow` : what changes files
  goes alike where the operations on the files do;
* `Run.workflows_meets`, `Run.activities_meets` : runs that begin and go alike;
* `Run.onStore_mirrors` : runs on related stores.
-/

namespace Flowsmith

variable {σ τ : Type} [FileStore σ] [FileStore τ] {R : σ → τ → Prop}

/-! ## Loading -/

theorem Workflow.agree_find (h : Shows R) (dir : Bytes) :
    Agree R (Workflow.find dir) (Workflow.find dir) :=
  (Files.agree_find h _ _).tryCatch fun _ => .throw _

theorem Workflow.agree_load (h : Shows R) (s : Settings) (registry : Option Registry)
    (path : Bytes) : Agree R (Workflow.load s registry path) (Workflow.load s registry path) := by
  unfold Workflow.load
  refine ((h.read path).tryCatch fun _ => .throw _).bind fun codeBehind => ?_
  refine ((Files.agree_find h _ _).tryCatch fun _ => .throw _).bind fun found => ?_
  split
  · exact ((h.read _).tryCatch fun _ => .throw _).bind fun _ => .pure _
  · exact .throw _

theorem Registry.agree_load (h : Shows R) (path : Bytes) :
    Agree R (Registry.load path) (Registry.load path) :=
  ((h.read path).tryCatch fun _ => .throw _).bind fun _ => .ofExcept _

theorem Project.agree_findFile (h : Shows R) (dir : Bytes) :
    Agree R (Project.findFile dir) (Project.findFile dir) := by
  unfold Project.findFile
  refine ((Files.agree_findFirst? h _ _).tryCatch fun _ => .throw _).bind fun found => ?_
  split
  · exact .pure _
  · exact .throw _

theorem Project.agree_load (h : Shows R) (path : Bytes) :
    Agree R (Project.load path) (Project.load path) :=
  ((h.read path).tryCatch fun _ => .throw _).bind fun _ => .ofExcept _

namespace Run

theorem agree_openProject (h : Shows R) (dir : Bytes) :
    Agree R (openProject dir) (openProject dir) :=
  (Project.agree_findFile h dir).bind fun _ => Project.agree_load h _

theorem agree_requireDirectory (h : Shows R) (dir : Bytes) :
    Agree R (requireDirectory dir) (requireDirectory dir) :=
  (Files.agree_isDirectory h dir).bind fun _ => .ite (.throw _) (.pure _)

theorem agree_openRegistry (h : Shows R) (o : Options) :
    Agree R (openRegistry o) (openRegistry o) :=
  .ite (.pure _) ((Registry.agree_load h _).bind fun r => .pure (some r))

theorem agree_prepareWorkflows (h : Shows R) (o : Options) :
    Agree R (prepareWorkflows o) (prepareWorkflows o) := by
  rw [prepareWorkflows_eq, prepareWorkflows_eq]
  exact (agree_requireDirectory h _).bind fun _ => (agree_openRegistry h o).bind fun _ =>
    (agree_openProject h _).bind fun _ => (Workflow.agree_find h _).bind fun _ => .pure _

theorem agree_prepareActivities (h : Shows R) (o : Options) :
    Agree R (prepareActivities o) (prepareActivities o) :=
  (agree_requireDirectory h _).bind fun _ => agree_openProject h _

end Run

/-! ## Sessions -/

namespace Session

/-- Sessions that differ only in their stores, and those are related. -/
structure Beside (R : σ → τ → Prop) (S : Session σ) (T : Session τ) : Prop where
  files : R S.files T.files
  root : S.root = T.root
  project : S.project = T.project
  entries : S.entries = T.entries

variable {α : Type}

omit [FileStore σ] [FileStore τ] in
theorem meets_onFiles {S : Session σ} {T : Session τ} (hST : Beside R S T) {f : FileM σ α}
    {g : FileM τ α} (h : Meets R f g S.files T.files) :
    Meets (Beside R) (onFiles f) (onFiles g) S T := by
  refine ⟨?_, ?_⟩ <;> rw [ran_onFiles, ran_onFiles]
  · exact h.result
  · exact ⟨h.state, hST.root, hST.project, hST.entries⟩

omit [FileStore σ] [FileStore τ] in
theorem agree_onFiles {f : FileM σ α} {g : FileM τ α} (h : Agree R f g) :
    Agree (Beside R) (onFiles f) (onFiles g) :=
  .of_meets fun _ _ hST => meets_onFiles hST (h.meets hST.files)

omit [FileStore σ] [FileStore τ] in
theorem agree_report (e : Entry) : Agree (Beside R) (report e) (report e) :=
  .modify fun S T hST => ⟨hST.files, hST.root, hST.project, by rw [hST.entries]⟩

omit [FileStore σ] [FileStore τ] in
theorem agree_onProject (f : Project → α × Project) :
    Agree (Beside R) (onProject f) (onProject f) := by
  intro S T hST
  rw [ran_onProject, ran_onProject, hST.project]
  exact ⟨rfl, hST.files, hST.root, rfl, hST.entries⟩

omit [FileStore σ] [FileStore τ] in
theorem agree_checkpoint (cancelled : Bool) :
    Agree (Beside R) (checkpoint cancelled) (checkpoint cancelled) :=
  .ite (.throw _) (.pure _)

/-- A file is removed alike where both stores remove it alike. -/
theorem meets_removeFile {S : Session σ} {T : Session τ} (hST : Beside R S T) {path : Bytes}
    (h : Meets R (FileStore.remove path) (FileStore.remove path) S.files T.files) :
    Meets (Beside R) (removeFile path) (removeFile path) S T := by
  refine (meets_onFiles hST h.tryCatch).bind fun _ S T _ _ hST => ?_
  refine (Agree.get_bind fun S T hST => ?_).meets hST
  simp only [hST.root]
  exact (Agree.ofExcept _).bind fun _ => (agree_onProject _).bind fun _ => agree_report _

theorem agree_removeFile (h : Mirrors R) (path : Bytes) :
    Agree (Beside R) (removeFile path) (removeFile path) :=
  .of_meets fun _ _ hST => meets_removeFile hST ((h.remove path).meets hST.files)

theorem agree_removeFiles (h : Mirrors R) (pattern : Bytes) :
    Agree (Beside R) (removeFiles pattern) (removeFiles pattern) := by
  refine .get_bind fun S T hST => ?_
  simp only [hST.root]
  exact (agree_onFiles ((Files.agree_find h.toShows _ _).tryCatch fun _ => .throw _)).bind fun _ =>
    .forM (agree_removeFile h)

/-- A file is edited alike where both stores read and write it alike. -/
theorem meets_editFile {S : Session σ} {T : Session τ} (hST : Beside R S T) {path : Bytes}
    (hread : Meets R (FileStore.read path) (FileStore.read path) S.files T.files)
    (hwrite : ∀ s t c, R s t → Meets R (FileStore.write path c) (FileStore.write path c) s t)
    (edit : Bytes → Except Fault Bytes) :
    Meets (Beside R) (editFile path edit) (editFile path edit) S T := by
  refine (meets_onFiles hST hread.tryCatch).bind fun text S T _ _ hST => ?_
  refine ((Agree.ofExcept _).bind fun edited => .ite (.of_meets fun S T hST => ?_) (.pure _)).meets hST
  refine (meets_onFiles hST (hwrite _ _ edited hST.files).tryCatch).bind fun _ S T _ _ hST => ?_
  refine (Agree.get_bind fun S T hST => ?_).meets hST
  simp only [hST.root]
  exact agree_report _

theorem agree_editFile (h : Mirrors R) (path : Bytes) (edit : Bytes → Except Fault Bytes) :
    Agree (Beside R) (editFile path edit) (editFile path edit) :=
  .of_meets fun _ _ hST => meets_editFile hST ((h.read path).meets hST.files)
    (fun _ _ c hst => (h.write path c).meets hst) edit

/-- The project is saved alike where both stores write it alike. -/
theorem meets_saveProject {S : Session σ} {T : Session τ} (hST : Beside R S T)
    (hwrite : ∀ c, Meets R (FileStore.write T.project.path c) (FileStore.write T.project.path c)
      S.files T.files) (detail : Bytes) :
    Meets (Beside R) (saveProject detail) (saveProject detail) S T := by
  have hsave : Meets R T.project.save T.project.save S.files T.files :=
    (hwrite T.project.toBytes).tryCatch.bind fun _ _ _ _ _ hst => (Agree.pure _).meets hst
  refine .get_bind ?_
  rw [hST.project, hST.root]
  split
  · refine (meets_onFiles hST hsave).bind fun saved S T _ _ hST => ?_
    exact ((Agree.modify fun S T hST => ⟨hST.files, hST.root, rfl, hST.entries⟩).bind fun _ =>
      agree_report _).meets hST
  · exact (Agree.pure _).meets hST

theorem agree_saveProject (h : Mirrors R) (detail : Bytes) :
    Agree (Beside R) (saveProject detail) (saveProject detail) :=
  .of_meets fun _ _ hST => meets_saveProject hST (fun c => (h.write _ c).meets hST.files) detail

theorem agree_dropLegacyReferences (h : Mirrors R) (o : Settings.Project) :
    Agree (Beside R) (dropLegacyReferences o) (dropLegacyReferences o) := by
  refine (agree_onProject _).bind fun refs => (agree_onProject _).bind fun imports => ?_
  refine (agree_saveProject h _).bind fun _ => .get_bind fun S T hST => ?_
  simp only [hST.root]
  refine (agree_onFiles ((Files.agree_findFirst? h.toShows _ _).tryCatch fun _ => .throw _)).bind
    fun info => ?_
  cases info with
  | none => exact .pure _
  | some path => exact agree_editFile h _ _

/-- A workflow is migrated alike where both stores load it and write its flow class alike. -/
theorem meets_migrateWorkflow {S : Session σ} {T : Session τ} (hST : Beside R S T) (s : Settings)
    (registry : Option Registry) {path : Bytes}
    (hload : Meets R (Workflow.load s registry path) (Workflow.load s registry path) S.files T.files)
    (hwrite : ∀ w out t t', Ends (Workflow.load s registry path) T.files w t' →
      w.transpile s = .ok out → R t t' →
      Meets R (FileStore.write (Path.join w.dir (out.name ++ (".cs" : Bytes))) out.source)
        (FileStore.write (Path.join w.dir (out.name ++ (".cs" : Bytes))) out.source) t t') :
    Meets (Beside R) (migrateWorkflow s registry path) (migrateWorkflow s registry path) S T := by
  refine (meets_onFiles hST hload).bind fun w S' T' _ hstep hST => ?_
  obtain ⟨t', hends, rfl⟩ := onFiles_iff.1 hstep
  refine ((Agree.ofExcept _).meets hST).bind fun out S'' T'' _ hstep hST => ?_
  obtain ⟨hout, rfl⟩ := Ends.ofExcept_iff.1 hstep
  refine (meets_onFiles hST (hwrite w out _ _ hends hout hST.files).tryCatch).bind fun _ S T _ _ hST => ?_
  refine (Agree.get_bind fun S T hST => ?_).meets hST
  simp only [hST.root]
  exact (Agree.ofExcept _).bind fun item => (agree_onProject _).bind fun _ => agree_report _

theorem agree_migrateWorkflow (h : Mirrors R) (s : Settings) (registry : Option Registry)
    (path : Bytes) :
    Agree (Beside R) (migrateWorkflow s registry path) (migrateWorkflow s registry path) :=
  .of_meets fun _ _ hST => meets_migrateWorkflow hST s registry
    ((Workflow.agree_load h.toShows s registry path).meets hST.files)
    fun _ _ _ _ _ _ hst => (h.write _ _).meets hst

theorem agree_migrateUnits (h : Mirrors R) (s : Settings) (registry : Option Registry)
    (cancelled : List Bytes → Bool) (units : List Bytes) :
    Agree (Beside R) (migrateUnits s registry cancelled units)
      (migrateUnits s registry cancelled units) := by
  induction units with
  | nil => exact .pure _
  | cons path units ih =>
    exact (agree_checkpoint _).bind fun _ =>
      (agree_migrateWorkflow h s registry path).bind fun _ => ih

theorem agree_migrateWorkflows (h : Mirrors R) (s : Settings) (registry : Option Registry)
    (cancelled : List Bytes → Bool) (units : List Bytes) :
    Agree (Beside R) (migrateWorkflows s registry cancelled units)
      (migrateWorkflows s registry cancelled units) :=
  (agree_migrateUnits h s registry cancelled units).bind fun _ =>
    (agree_removeFiles h _).bind fun _ => agree_dropLegacyReferences h _

theorem agree_migrateSources (h : Mirrors R) (s : Settings) (cancelled : List Bytes → Bool) (paths : List Bytes) :
    Agree (Beside R) (migrateSources s cancelled paths) (migrateSources s cancelled paths) := by
  induction paths with
  | nil => exact .pure _
  | cons path paths ih =>
    exact (agree_checkpoint _).bind fun _ => (agree_editFile h path _).bind fun _ => ih

theorem agree_migrateActivities (h : Mirrors R) (s : Settings) (cancelled : List Bytes → Bool) :
    Agree (Beside R) (migrateActivities s cancelled) (migrateActivities s cancelled) := by
  refine (agree_removeFiles h _).bind fun _ => .get_bind fun S T hST => ?_
  simp only [hST.root]
  refine (agree_onFiles ((Files.agree_find h.toShows _ _).tryCatch fun _ => .throw _)).bind fun paths => ?_
  exact (agree_migrateSources h s cancelled paths).bind fun _ => agree_dropLegacyReferences h _

end Session

/-! ## Runs -/

namespace Run

/-- Runs with the same report and the same end, on related stores. -/
structure Alike (R : σ → τ → Prop) (out : Outcome σ) (out' : Outcome τ) : Prop where
  sections : out.sections = out'.sections
  fault? : out.fault? = out'.fault?
  files : R out.files out'.files

variable {s : σ} {t : τ}

omit [FileStore σ] [FileStore τ] in
theorem inSession_meets {name dir : Bytes} {project : Project} {x : SessionM σ Unit}
    {y : SessionM τ Unit}
    (h : Meets (Session.Beside R) x y { files := s, root := dir, project := project }
      { files := t, root := dir, project := project }) :
    Alike R (inSession name dir project s x) (inSession name dir project t y) where
  sections := congrArg (fun es => [Section.mk name dir es]) h.state.entries
  fault? := by
    unfold inSession
    have hresult := h.result
    generalize hx : ran x _ = out at hresult
    generalize hy : ran y _ = out' at hresult
    obtain ⟨r, S⟩ := out
    obtain ⟨r', T⟩ := out'
    obtain rfl : r = r' := hresult
    rw [show x.run _ = _ from hx, show y.run _ = _ from hy]
  files := h.state.files

/-- Two runs are alike when they begin alike and the migrations after that go alike. -/
theorem workflows_meets {settings : Settings} {o : Options}
    (hprepare : Meets R (prepareWorkflows o) (prepareWorkflows o) s t)
    (hmigrate : ∀ registry project units s' t',
      Ends (prepareWorkflows o) t (registry, project, units) t' → R s' t' →
      Meets (Session.Beside R) (Session.migrateWorkflows settings registry o.cancelled.workflows units)
        (Session.migrateWorkflows settings registry o.cancelled.workflows units)
        { files := s', root := o.workflowDir, project := project }
        { files := t', root := o.workflowDir, project := project }) :
    Alike R (workflows settings o s) (workflows settings o t) := by
  have hres := hprepare.result
  have hnext := hprepare.state
  unfold workflows
  change Alike R
    (match ran (prepareWorkflows o) s with
      | (.error f, files) => { fault? := some f, files := files }
      | (.ok (registry, project, units), files) => _)
    (match ran (prepareWorkflows o) t with
      | (.error f, files) => { fault? := some f, files := files }
      | (.ok (registry, project, units), files) => _)
  obtain ⟨r', t', hran⟩ : ∃ r t', ran (prepareWorkflows o) t = (r, t') := ⟨_, _, rfl⟩
  rw [hran] at hres hnext ⊢
  generalize ran (prepareWorkflows o) s = out at hres hnext ⊢
  obtain ⟨r, s'⟩ := out
  obtain rfl : r = r' := hres
  cases r with
  | error f => exact ⟨rfl, rfl, hnext⟩
  | ok loaded => exact inSession_meets (hmigrate _ _ _ _ _ hran hnext)

theorem activities_meets {settings : Settings} {o : Options}
    (hprepare : Meets R (prepareActivities o) (prepareActivities o) s t)
    (hmigrate : ∀ project s' t', Ends (prepareActivities o) t project t' → R s' t' →
      Meets (Session.Beside R) (Session.migrateActivities settings o.cancelled.activities)
        (Session.migrateActivities settings o.cancelled.activities)
        { files := s', root := o.activities, project := project }
        { files := t', root := o.activities, project := project }) :
    Alike R (activities settings o s) (activities settings o t) := by
  have hres := hprepare.result
  have hnext := hprepare.state
  unfold activities
  change Alike R
    (match ran (prepareActivities o) s with
      | (.error f, files) => { fault? := some f, files := files }
      | (.ok project, files) => _)
    (match ran (prepareActivities o) t with
      | (.error f, files) => { fault? := some f, files := files }
      | (.ok project, files) => _)
  obtain ⟨r', t', hran⟩ : ∃ r t', ran (prepareActivities o) t = (r, t') := ⟨_, _, rfl⟩
  rw [hran] at hres hnext ⊢
  generalize ran (prepareActivities o) s = out at hres hnext ⊢
  obtain ⟨r, s'⟩ := out
  obtain rfl : r = r' := hres
  cases r with
  | error f => exact ⟨rfl, rfl, hnext⟩
  | ok project => exact inSession_meets (hmigrate _ _ _ hran hnext)

theorem workflows_mirrors (h : Mirrors R) (hst : R s t) (settings : Settings) (o : Options) :
    Alike R (workflows settings o s) (workflows settings o t) :=
  workflows_meets ((agree_prepareWorkflows h.toShows o).meets hst) fun _ _ _ _ _ _ hst' =>
    (Session.agree_migrateWorkflows h ..).meets ⟨hst', rfl, rfl, rfl⟩

theorem activities_mirrors (h : Mirrors R) (hst : R s t) (settings : Settings) (o : Options) :
    Alike R (activities settings o s) (activities settings o t) :=
  activities_meets ((agree_prepareActivities h.toShows o).meets hst) fun _ _ _ _ hst' =>
    (Session.agree_migrateActivities h ..).meets ⟨hst', rfl, rfl, rfl⟩

omit [FileStore σ] [FileStore τ] in
/-- One run after another goes alike when the second does, in case it is run. -/
theorem Alike.andThen {out : Outcome σ} {out' : Outcome τ} {next : σ → Outcome σ}
    {next' : τ → Outcome τ} (h : Alike R out out')
    (hnext : out'.fault? = none → Alike R (next out.files) (next' out'.files)) :
    Alike R (andThen out next) (andThen out' next') := by
  simp only [Run.andThen, h.fault?]
  split
  · exact h
  · rename_i hnone
    have halike := hnext hnone
    exact ⟨by rw [h.sections, halike.sections], halike.fault?, halike.files⟩

/-- Runs on stores that give the same answers write the same report and end in the same way. -/
theorem onStore_mirrors (h : Mirrors R) (hst : R s t) (settings : Settings) (c : Command)
    (o : Options) : Alike R (onStore settings c o s) (onStore settings c o t) := by
  cases c with
  | workflows => exact workflows_mirrors h hst settings o
  | activities => exact activities_mirrors h hst settings o
  | all =>
    have hfirst := workflows_mirrors h hst settings o
    exact hfirst.andThen fun _ => activities_mirrors h hfirst.files settings o

end Run

end Flowsmith
