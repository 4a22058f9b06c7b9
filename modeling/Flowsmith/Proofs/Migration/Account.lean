import Flowsmith.Proofs.Migration.Mirror
import Mathlib

/-!
# What the report accounts for

Every step that changes a file reports it right after, and nothing can fail in between. So on a store
that keeps a record the entries of the report match the record, one by one and in order, wherever a run
stops. Entries that say that a flow class was written stand for the workflows that the run migrated.

* `Entry.Reports` : an entry that says what was done;
* `Session.Accounted` : the entries so far match the record so far, and every step keeps that;
* `Session.migrateUnits_entries` : the entries for flow classes;
* `Run.perform_accounts` : the report of a run accounts for every file that it changed.
-/

namespace Flowsmith

theorem exists_of_forall₂ {α β : Type} {r : α → β → Prop} {xs : List α} {ys : List β}
    (h : List.Forall₂ r xs ys) {y : β} (hy : y ∈ ys) : ∃ x ∈ xs, r x y := by
  induction h with
  | nil => cases hy
  | cons hfirst _ ih =>
    rcases List.mem_cons.1 hy with rfl | hy
    · exact ⟨_, List.mem_cons_self, hfirst⟩
    · obtain ⟨x, hx, hxy⟩ := ih hy
      exact ⟨x, List.mem_cons_of_mem _ hx, hxy⟩

def Entry.Reports (root : Bytes) (e : Entry) (d : Deed) : Prop :=
  Memory.normalize (Path.join root e.path) = Memory.normalize d.path ∧
    match d with
    | .write .. => e.action = .generate ∨ e.action = .edit ∨ e.action = .project
    | .remove _ => e.action = .remove

namespace Session

/-! ## Entries match the record -/

section Accounted

variable {σ : Type} [FileStore σ] [LawfulStore σ]

/-- The entries of a session that began with the record `before` match what was recorded since. -/
structure Accounted (files : Bytes → Option Bytes) (before : List Deed) (root : Bytes)
    (S : Session (Logged σ)) : Prop where
  root_eq : S.root = root
  below : Path.Below root S.project.path
  since : ∃ since, Logged.Recorded files (before ++ since) S.files ∧
    List.Forall₂ (Entry.Reports root) S.entries since

variable {α : Type} {files : Bytes → Option Bytes} {before : List Deed} {root : Bytes}
  {S : Session (Logged σ)}

theorem Accounted.sound (h : Accounted files before root S) : LawfulStore.Sound S.files := by
  obtain ⟨since, hrecorded, -⟩ := h.since
  exact hrecorded.sound

theorem keeps_accounted_onFiles {f : FileM (Logged σ) α}
    (h : ∀ log, Keeps (Logged.Recorded files log) f) :
    Keeps (Accounted files before root) (onFiles f) := by
  intro S hS
  obtain ⟨since, hrecorded, hentries⟩ := hS.since
  rw [ran_onFiles]
  exact ⟨hS.root_eq, hS.below, since, h _ hrecorded, hentries⟩

theorem keeps_accounted_onProject {f : Project → α × Project} (h : ∀ p, (f p).2.path = p.path) :
    Keeps (Accounted files before root) (onProject (σ := Logged σ) f) := by
  intro S hS
  rw [ran_onProject]
  refine ⟨hS.root_eq, ?_, hS.since⟩
  rw [h]
  exact hS.below

/-- A change of a file and the entry for it, with no failure in between. -/
theorem keeps_accounted_change {d : Deed} {f : FileM (Logged σ) α} {a : α} (hf : Logged.Does d f a)
    {rest : α → SessionM (Logged σ) Unit}
    (hrest : ∀ S : Session (Logged σ), S.root = root →
      ∃ p e, ran (rest a) S = (.ok (), { S with project := p, entries := S.entries ++ [e] }) ∧
        (Path.Below root S.project.path → Path.Below root p.path) ∧ e.Reports root d) :
    Keeps (Accounted files before root) (onFiles f >>= rest) := by
  intro S hS
  obtain ⟨since, hrecorded, hentries⟩ := hS.since
  rw [ran_bind, ran_onFiles]
  rcases hf hrecorded with ⟨l, hran, hl⟩ | ⟨e, l, hran, hl⟩
  · rw [hran]
    obtain ⟨p, e, hrest, hbelow, hreports⟩ := hrest { S with files := l } hS.root_eq
    show Accounted files before root (ran (rest a) { S with files := l }).2
    rw [hrest]
    refine ⟨hS.root_eq, hbelow hS.below, since ++ [d], ?_, ?_⟩
    · rwa [← List.append_assoc]
    · exact List.rel_append hentries (.cons hreports .nil)
  · rw [hran]
    exact ⟨hS.root_eq, hS.below, since, hl, hentries⟩

theorem keeps_accounted_removeFile {path : Bytes} (hpath : Seen root path) :
    Keeps (Accounted files before root) (removeFile (σ := Logged σ) path) := by
  refine keeps_accounted_change ((Logged.does_remove path).tryCatch _) fun S hS => ?_
  subst hS
  obtain ⟨item, hitem⟩ := hpath.exists_relativePath
  refine ⟨(S.project.removeItems item).2, removalEntry S.root path (S.project.removeItems item).1, ?_,
    id, hpath.normalize_shown, rfl⟩
  simp only [ran_get_bind, hitem]
  rfl

theorem keeps_accounted_removeFiles (hroot : root ≠ []) (pattern : Bytes) :
    Keeps (Accounted files before root) (removeFiles (σ := Logged σ) pattern) := by
  intro S hS
  unfold removeFiles
  rw [ran_get_bind, hS.root_eq]
  refine keeps_onFiles_bind (keeps_accounted_onFiles fun log =>
    (Files.keeps_find Logged.quiet_recorded _ _).tryCatch fun _ => .throw _) ?_ hS
  intro S found l hS hfind hnext
  have hbelow := LawfulStore.below_of_find hS.sound hroot (Ends.tryCatch_iff.1 hfind)
  exact Keeps.forM (fun path hpath =>
    keeps_accounted_removeFile (.of_below (hbelow path hpath) hroot)) hnext

theorem keeps_accounted_editFile {path : Bytes} (hpath : Seen root path)
    (edit : Bytes → Except Fault Bytes) :
    Keeps (Accounted files before root) (editFile (σ := Logged σ) path edit) := by
  refine (keeps_accounted_onFiles fun log =>
    (Logged.quiet_recorded.read path).tryCatch fun _ => .throw _).bind fun text => ?_
  refine (Keeps.ofExcept _).bind fun edited => .ite ?_ (.pure _)
  refine keeps_accounted_change ((Logged.does_write path edited).tryCatch _) fun S hS => ?_
  subst hS
  exact ⟨S.project, { action := .edit, path := shown S.root path }, rfl, id, hpath.normalize_shown,
    .inr (.inl rfl)⟩

theorem keeps_accounted_saveProject (hroot : root ≠ []) (detail : Bytes) :
    Keeps (Accounted files before root) (saveProject (σ := Logged σ) detail) := by
  intro S hS
  unfold saveProject
  rw [ran_get_bind]
  refine Keeps.ite (keeps_accounted_change (((Logged.does_write _ _).tryCatch _).bind_pure _)
    fun T hT => ?_) (.pure _) hS
  refine ⟨{ S.project with modified := false },
    { action := .project, path := shown S.root S.project.path, detail := detail }, rfl,
    fun _ => hS.below, ?_, .inr (.inr rfl)⟩
  rw [hS.root_eq]
  exact (Seen.of_below hS.below hroot).normalize_shown

theorem keeps_accounted_dropLegacyReferences (hroot : root ≠ []) (o : Settings.Project) :
    Keeps (Accounted files before root) (dropLegacyReferences (σ := Logged σ) o) := by
  refine (keeps_accounted_onProject fun _ => rfl).bind fun refs =>
    (keeps_accounted_onProject fun _ => rfl).bind fun imports =>
    (keeps_accounted_saveProject hroot _).bind fun _ => ?_
  intro S hS
  rw [ran_get_bind, hS.root_eq]
  refine keeps_onFiles_bind (keeps_accounted_onFiles fun log =>
    (Files.keeps_findFirst? Logged.quiet_recorded _ _).tryCatch fun _ => .throw _) ?_ hS
  intro S info l hS hfind hnext
  cases info with
  | none => exact hnext
  | some path =>
    have hbelow := LawfulStore.below_of_findFirst? hS.sound hroot (Ends.tryCatch_iff.1 hfind)
    exact keeps_accounted_editFile (.of_below hbelow hroot) _ hnext

theorem keeps_accounted_migrateWorkflow (hroot : root ≠ []) (s : Settings)
    (registry : Option Registry) {path : Bytes} (hpath : Path.Below root path) :
    Keeps (Accounted files before root) (migrateWorkflow (σ := Logged σ) s registry path) := by
  refine keeps_onFiles_bind (keeps_accounted_onFiles fun log =>
    Workflow.keeps_load Logged.quiet_recorded s registry path) fun S w l hS hload hnext => ?_
  refine (Keeps.ofExcept _).bind (fun out => ?_) hnext
  have hseen := seen_destination hpath hroot hload out
  obtain ⟨item, hitem⟩ := hseen.exists_relativePath
  refine keeps_accounted_change ((Logged.does_write _ _).tryCatch _) fun S hS => ?_
  subst hS
  refine ⟨S.project.addCompile item, generateEntry S.root path w out, ?_, fun h => ?_,
    hseen.normalize_shown, .inl rfl⟩
  · rw [ran_get_bind]
    show ran (MonadExcept.ofExcept (Project.relativePath S.root (destination w out)) >>= _) S = _
    rw [hitem]
    rfl
  · rwa [Project.addCompile_path]

theorem keeps_accounted_migrateUnits (hroot : root ≠ []) (s : Settings) (registry : Option Registry)
    (cancelled : List Bytes → Bool) {units : List Bytes} (hunits : ∀ path ∈ units, Path.Below root path) :
    Keeps (Accounted files before root)
      (migrateUnits (σ := Logged σ) s registry cancelled units) := by
  induction units with
  | nil => exact .pure _
  | cons path units ih =>
    refine (Keeps.ite (.throw _) (.pure _)).bind fun _ => Keeps.bind ?_ fun _ => ih ?_
    · exact keeps_accounted_migrateWorkflow hroot s registry (hunits path List.mem_cons_self)
    · exact fun p hp => hunits p (List.mem_cons_of_mem _ hp)

theorem keeps_accounted_migrateWorkflows (hroot : root ≠ []) (s : Settings)
    (registry : Option Registry) (cancelled : List Bytes → Bool) {units : List Bytes}
    (hunits : ∀ path ∈ units, Path.Below root path) :
    Keeps (Accounted files before root)
      (migrateWorkflows (σ := Logged σ) s registry cancelled units) :=
  (keeps_accounted_migrateUnits hroot s registry cancelled hunits).bind fun _ =>
    (keeps_accounted_removeFiles hroot _).bind fun _ => keeps_accounted_dropLegacyReferences hroot _

theorem keeps_accounted_migrateSources (s : Settings) (cancelled : List Bytes → Bool) {paths : List Bytes}
    (hpaths : ∀ path ∈ paths, Seen root path) :
    Keeps (Accounted files before root) (migrateSources (σ := Logged σ) s cancelled paths) := by
  induction paths with
  | nil => exact .pure _
  | cons path paths ih =>
    refine (Keeps.ite (.throw _) (.pure _)).bind fun _ => Keeps.bind ?_ fun _ => ih ?_
    · exact keeps_accounted_editFile (hpaths path List.mem_cons_self) _
    · exact fun p hp => hpaths p (List.mem_cons_of_mem _ hp)

theorem keeps_accounted_migrateActivities (hroot : root ≠ []) (s : Settings) (cancelled : List Bytes → Bool) :
    Keeps (Accounted files before root) (migrateActivities (σ := Logged σ) s cancelled) := by
  refine (keeps_accounted_removeFiles hroot _).bind fun _ S hS => ?_
  rw [ran_get_bind, hS.root_eq]
  refine keeps_onFiles_bind (keeps_accounted_onFiles fun log =>
    (Files.keeps_find Logged.quiet_recorded _ _).tryCatch fun _ => .throw _) ?_ hS
  intro S paths l hS hfind hnext
  have hbelow := LawfulStore.below_of_find hS.sound hroot (Ends.tryCatch_iff.1 hfind)
  exact (keeps_accounted_migrateSources s cancelled fun path hpath =>
    .of_below (hbelow path hpath) hroot).bind
      (fun _ => keeps_accounted_dropLegacyReferences hroot _) hnext

end Accounted

/-! ## Entries for flow classes -/

section Generated

variable {σ α : Type} {P : List Entry → Prop}

/-- The entries so far have the property `P`. -/
def Listed (P : List Entry → Prop) (S : Session σ) : Prop := P S.entries

theorem keeps_listed_onFiles (f : FileM σ α) : Keeps (Listed P) (onFiles f) := by
  intro S hS
  rw [ran_onFiles]
  exact hS

theorem keeps_listed_onProject (f : Project → α × Project) :
    Keeps (Listed (σ := σ) P) (onProject f) := fun _ hS => hS

def generated (es : List Entry) : List Entry := es.filter (·.action == .generate)

theorem mem_generated {es : List Entry} {e : Entry} :
    e ∈ generated es ↔ e ∈ es ∧ e.action = .generate := by
  simp [generated]

/-- Entries with one of the actions leave the property. -/
def Bears (actions : List Action) (P : List Entry → Prop) : Prop :=
  ∀ es e, e.action ∈ actions → P es → P (es ++ [e])

theorem Bears.mono {as bs : List Action} (hP : Bears bs P) (h : as ⊆ bs) : Bears as P :=
  fun es e he => hP es e (h he)

/-- The actions of entries that are for no flow class. -/
def tidying : List Action := [.remove, .edit, .project]

theorem bears_generated (gs : List Entry) : Bears tidying (generated · = gs) := by
  intro es e he h
  have hother : e.action ≠ .generate := fun heq => by
    rw [heq] at he
    revert he
    decide
  simpa [generated, hother] using h

theorem bears_extension (as : List Action) (es : List Entry) : Bears as (es <+: ·) := fun _ _ _ h =>
  h.trans (List.prefix_append _ _)

theorem keeps_listed_report {as : List Action} (hP : Bears as P) {e : Entry} (h : e.action ∈ as) :
    Keeps (Listed (σ := σ) P) (report e) := .modify fun S hS => hP S.entries e h hS

variable [FileStore σ]

theorem keeps_listed_removeFiles (hP : Bears [.remove] P) (pattern : Bytes) :
    Keeps (Listed (σ := σ) P) (removeFiles pattern) := by
  refine .get_bind fun S => (keeps_listed_onFiles _).bind fun paths => .forM fun path _ => ?_
  refine (keeps_listed_onFiles _).bind fun _ => .get_bind fun S => (Keeps.ofExcept _).bind fun item => ?_
  exact (keeps_listed_onProject _).bind fun count => keeps_listed_report hP List.mem_cons_self

theorem keeps_listed_editFile (hP : Bears [.edit] P) (path : Bytes) (edit : Bytes → Except Fault Bytes) :
    Keeps (Listed (σ := σ) P) (editFile path edit) := by
  refine (keeps_listed_onFiles _).bind fun text => (Keeps.ofExcept _).bind fun edited => ?_
  refine .ite ((keeps_listed_onFiles _).bind fun _ => .get_bind fun S => ?_) (.pure _)
  exact keeps_listed_report hP List.mem_cons_self

theorem keeps_listed_dropLegacyReferences (hP : Bears [.edit, .project] P) (o : Settings.Project) :
    Keeps (Listed (σ := σ) P) (dropLegacyReferences o) := by
  refine (keeps_listed_onProject _).bind fun refs => (keeps_listed_onProject _).bind fun imports => ?_
  refine Keeps.bind ?_ fun _ => .get_bind fun S => (keeps_listed_onFiles _).bind fun info => ?_
  · refine .get_bind fun S => .ite ((keeps_listed_onFiles _).bind fun saved => ?_) (.pure _)
    exact (Keeps.modify fun S hS => hS).bind fun _ => keeps_listed_report hP (by simp)
  · cases info with
    | none => exact .pure _
    | some path => exact keeps_listed_editFile (hP.mono (by simp)) _ _

theorem keeps_listed_migrateUnits (hP : Bears [.generate] P) (s : Settings) (registry : Option Registry)
    (cancelled : List Bytes → Bool) (units : List Bytes) :
    Keeps (Listed (σ := σ) P) (migrateUnits s registry cancelled units) := by
  induction units with
  | nil => exact .pure _
  | cons path units ih =>
    refine (Keeps.ite (.throw _) (.pure _)).bind fun _ => Keeps.bind ?_ fun _ => ih
    refine (keeps_listed_onFiles _).bind fun w => (Keeps.ofExcept _).bind fun out => ?_
    refine (keeps_listed_onFiles _).bind fun _ => .get_bind fun S => (Keeps.ofExcept _).bind fun item => ?_
    exact (keeps_listed_onProject _).bind fun _ => keeps_listed_report hP List.mem_cons_self

theorem keeps_listed_migrateSources (hP : Bears [.edit] P) (s : Settings) (cancelled : List Bytes → Bool)
    (paths : List Bytes) : Keeps (Listed (σ := σ) P) (migrateSources s cancelled paths) := by
  induction paths with
  | nil => exact .pure _
  | cons path paths ih =>
    exact (Keeps.ite (.throw _) (.pure _)).bind fun _ =>
      (keeps_listed_editFile hP path _).bind fun _ => ih

theorem keeps_listed_migrateActivities (hP : Bears tidying P) (s : Settings) (cancelled : List Bytes → Bool) :
    Keeps (Listed (σ := σ) P) (migrateActivities s cancelled) :=
  (keeps_listed_removeFiles (hP.mono (by decide)) _).bind fun _ => .get_bind fun _ =>
    (keeps_listed_onFiles _).bind fun _ =>
      (keeps_listed_migrateSources (hP.mono (by decide)) s cancelled _).bind fun _ =>
        keeps_listed_dropLegacyReferences (hP.mono (by decide)) _

theorem extends_migrateActivities {s : Settings} (cancelled : List Bytes → Bool) {S T : Session σ} {u : Unit}
    (h : Ends (removeFiles s.activities.designerPattern) S u T) :
    T.entries <+: (ran (migrateActivities s cancelled) S).2.entries := by
  rw [migrateActivities, ran_bind, show ran _ S = _ from h]
  exact Keeps.get_bind (fun _ => (keeps_listed_onFiles _).bind fun _ =>
    (keeps_listed_migrateSources (bears_extension _ T.entries) s cancelled _).bind fun _ =>
      keeps_listed_dropLegacyReferences (bears_extension _ T.entries) _) (List.prefix_refl T.entries)

variable (s : Settings) (registry : Option Registry) (cancelled : List Bytes → Bool) {S : Session σ}

/-- Only the last thing that is done for a workflow adds an entry, and that does not fail. -/
theorem spares_listed_migrateWorkflow (path : Bytes) :
    Spares (Listed (σ := σ) P) (migrateWorkflow s registry path) :=
  .bind (keeps_listed_onFiles _) fun _ => .bind (Keeps.ofExcept _) fun _ =>
    .bind (keeps_listed_onFiles _) fun _ => .get_bind fun _ => .bind (Keeps.ofExcept _) fun _ =>
    .bind (keeps_listed_onProject _) fun _ _ _ _ _ h => nomatch h

/-- The entries that a run through workflows adds are those of the workflows it migrated. -/
theorem migrateUnits_entries {units : List Bytes} (hroot : S.root ≠ [])
    (hunits : ∀ path ∈ units, Path.Below S.root path) :
    ∃ es, (ran (migrateUnits s registry cancelled units) S).2.entries = S.entries ++ es ∧
      ∀ e, e ∈ es ↔ ∃ path w out, Migrated s registry cancelled units S path w out ∧
        e = generateEntry S.root path w out := by
  induction units generalizing S with
  | nil =>
    refine ⟨[], (List.append_nil _).symm, fun e => ⟨(nomatch ·), ?_⟩⟩
    rintro ⟨path, w, out, ⟨before, after, T, hunits, -⟩, -⟩
    cases before <;> cases hunits
  | cons first units ih =>
    have hnone : ∀ {out' : Except Fault Unit × Session σ},
        (∀ path w out, ¬ Migrated s registry cancelled (first :: units) S path w out) →
        out'.2.entries = S.entries → ∃ es, out'.2.entries = S.entries ++ es ∧
          ∀ e, e ∈ es ↔ ∃ path w out, Migrated s registry cancelled (first :: units) S path w out ∧
            e = generateEntry S.root path w out := by
      intro out' hno hentries
      refine ⟨[], by rw [hentries, List.append_nil], fun e => ⟨(nomatch ·), ?_⟩⟩
      rintro ⟨path, w, out, hmigrated, -⟩
      exact absurd hmigrated (hno path w out)
    cases hc : cancelled (first :: units) with
    | true =>
      refine hnone (fun path w out hmigrated => ?_) (by rw [migrateUnits_cancelled hc])
      exact absurd ((migrated_cons_iff.1 hmigrated).1.symm.trans hc) (by decide)
    | false =>
      rw [migrateUnits_goes hc, ran_bind]
      obtain ⟨r, T, hfirst⟩ : ∃ r T, ran (migrateWorkflow s registry first) S = (r, T) := ⟨_, _, rfl⟩
      rw [hfirst]
      cases r with
      | error f =>
        refine hnone (fun path w out hmigrated => ?_)
          (spares_listed_migrateWorkflow s registry (P := (· = S.entries)) first rfl hfirst)
        -- a workflow that was written would have made the step end
        obtain ⟨-, ⟨rfl, t, t', hload, hout, hwrite⟩ | ⟨T', hends, -⟩⟩ := migrated_cons_iff.1 hmigrated
        · obtain ⟨item, hitem⟩ := (seen_destination (hunits path List.mem_cons_self) hroot hload
            out).exists_relativePath
          have hends : Ends (migrateWorkflow s registry path) S () _ :=
            migrateWorkflow_iff.2 ⟨w, out, t, t', item, hload, hout, hwrite, hitem, rfl⟩
          rw [Ends, hfirst] at hends
          cases hends
        · rw [Ends, hfirst] at hends
          cases hends
      | ok u =>
        obtain ⟨w, out, t, t', item, hload, hout, hwrite, hitem, rfl⟩ := migrateWorkflow_iff.1 hfirst
        obtain ⟨es, hentries, hes⟩ := ih (S := { S with
          files := t'
          project := S.project.addCompile item
          entries := S.entries ++ [generateEntry S.root first w out] }) hroot
            fun p hp => hunits p (List.mem_cons_of_mem _ hp)
        refine ⟨generateEntry S.root first w out :: es, ?_, fun e => ?_⟩
        · show (ran (migrateUnits s registry cancelled units) _).2.entries = _
          rw [hentries]
          simp
        · rw [List.mem_cons, hes]
          constructor
          · rintro (rfl | ⟨path, w', out', hmigrated, rfl⟩)
            · exact ⟨first, w, out,
                migrated_cons_iff.2 ⟨hc, .inl ⟨rfl, t, t', hload, hout, hwrite⟩⟩, rfl⟩
            · exact ⟨path, w', out', migrated_cons_iff.2 ⟨hc, .inr ⟨_, hfirst, hmigrated⟩⟩, rfl⟩
          · rintro ⟨path, w', out', hmigrated, rfl⟩
            obtain ⟨-, ⟨rfl, t₁, t₂, hload', hout', -⟩ | ⟨T', hends, hmigrated⟩⟩ :=
              migrated_cons_iff.1 hmigrated
            · obtain ⟨rfl, -⟩ := hload.det hload'
              rw [hout] at hout'
              cases hout'
              exact .inl rfl
            · obtain ⟨-, rfl⟩ := Ends.det hfirst hends
              exact .inr ⟨path, w', out', hmigrated, rfl⟩

/-- The entries for flow classes in a migration of workflows are those of the workflows it migrated. -/
theorem generated_migrateWorkflows {units : List Bytes} (hroot : S.root ≠ []) (hnil : S.entries = [])
    (hunits : ∀ path ∈ units, Path.Below S.root path) (e : Entry) :
    e ∈ generated (ran (migrateWorkflows s registry cancelled units) S).2.entries ↔
      ∃ path w out, Migrated s registry cancelled units S path w out ∧
        e = generateEntry S.root path w out := by
  obtain ⟨es, hentries, hes⟩ := migrateUnits_entries s registry cancelled hroot hunits
  have hrest : generated (ran (migrateWorkflows s registry cancelled units) S).2.entries =
      generated (ran (migrateUnits s registry cancelled units) S).2.entries := by
    rw [migrateWorkflows, ran_bind]
    rcases ran (migrateUnits s registry cancelled units) S with ⟨r, T⟩
    cases r with
    | error f => rfl
    | ok u =>
      exact ((keeps_listed_removeFiles ((bears_generated _).mono (by decide)) _).bind fun _ =>
        keeps_listed_dropLegacyReferences ((bears_generated _).mono (by decide)) s.project) rfl
  rw [hrest, hentries, hnil, List.nil_append, mem_generated, hes]
  constructor
  · exact fun h => h.1
  · rintro ⟨path, w, out, hmigrated, rfl⟩
    exact ⟨⟨path, w, out, hmigrated, rfl⟩, rfl⟩

end Generated

end Session

/-! ## Runs -/

namespace Run

/-- The entries of sections, each with the root of its section. -/
def placed (sections : List Section) : List (Bytes × Entry) :=
  sections.flatMap fun sec => sec.entries.map (Prod.mk sec.root)

theorem placed_append (first second : List Section) :
    placed (first ++ second) = placed first ++ placed second := List.flatMap_append

theorem placed_one (name root : Bytes) (es : List Entry) :
    placed [⟨name, root, es⟩] = es.map (Prod.mk root) := by
  simp [placed]

/-- Some entry of the sections with one of the actions leads to a path. -/
def Lists (sections : List Section) (actions : List Action) (path : Bytes) : Prop :=
  ∃ e ∈ placed sections, e.2.action ∈ actions ∧ Memory.normalize (Path.join e.1 e.2.path) = path

theorem sections_inSession {σ : Type} (name dir : Bytes) (project : Project) (files : σ)
    (migrate : SessionM σ Unit) :
    (inSession name dir project files migrate).sections =
      [⟨name, dir, (ran migrate { files := files, root := dir, project := project }).2.entries⟩] := rfl

section Accounts

variable {σ : Type} [FileStore σ] [LawfulStore σ]

/-- The sections of a run account for what was recorded since `before`. -/
def Accounts (files : Bytes → Option Bytes) (before : List Deed) (out : Outcome (Logged σ)) : Prop :=
  ∃ since, Logged.Recorded files (before ++ since) out.files ∧
    List.Forall₂ (fun placed d => placed.2.Reports placed.1 d) (placed out.sections) since

variable {files : Bytes → Option Bytes} {before : List Deed} {l : Logged σ}

theorem accounts_of_fault (hl : Logged.Recorded files before l) (f : Fault) :
    Accounts files before { fault? := some f, files := l } :=
  ⟨[], by rwa [List.append_nil], .nil⟩

theorem accounts_inSession (hl : Logged.Recorded files before l) (name : Bytes) {dir : Bytes}
    {project : Project} (hproject : Path.Below dir project.path) {migrate : SessionM (Logged σ) Unit}
    (hmigrate : Keeps (Session.Accounted files before dir) migrate) :
    Accounts files before (inSession name dir project l migrate) := by
  have hbegin : Session.Accounted files before dir
      ({ files := l, root := dir, project := project } : Session (Logged σ)) :=
    ⟨rfl, hproject, [], by rwa [List.append_nil], .nil⟩
  obtain ⟨since, hrecorded, hentries⟩ := (hmigrate hbegin).since
  refine ⟨since, hrecorded, ?_⟩
  rw [sections_inSession, placed_one, List.forall₂_map_left_iff]
  exact hentries

theorem accounts_workflows (hl : Logged.Recorded files before l) (s : Settings) (o : Options) :
    Accounts files before (workflows s o l) := by
  have hnext := keeps_prepareWorkflows Logged.quiet_recorded o hl
  unfold workflows
  obtain ⟨r, l', hran⟩ : ∃ r l', ran (prepareWorkflows o) l = (r, l') := ⟨_, _, rfl⟩
  rw [show (prepareWorkflows o).run l = _ from hran]
  rw [hran] at hnext
  match r, hran with
  | .error f, _ => exact accounts_of_fault hnext f
  | .ok (registry, project, units), hran =>
    obtain ⟨hne, hproject, hunits⟩ := below_prepareWorkflows hl.sound hran
    exact accounts_inSession hnext _ hproject
      (Session.keeps_accounted_migrateWorkflows hne s registry o.cancelled.workflows hunits)

theorem accounts_activities (hl : Logged.Recorded files before l) (s : Settings) (o : Options) :
    Accounts files before (activities s o l) := by
  have hnext := keeps_prepareActivities Logged.quiet_recorded o hl
  unfold activities
  obtain ⟨r, l', hran⟩ : ∃ r l', ran (prepareActivities o) l = (r, l') := ⟨_, _, rfl⟩
  rw [show (prepareActivities o).run l = _ from hran]
  rw [hran] at hnext
  match r, hran with
  | .error f, _ => exact accounts_of_fault hnext f
  | .ok project, hran =>
    obtain ⟨_, t₁, hdir, hopen⟩ := Ends.bind_iff.1 hran
    have hne := ne_nil_of_requireDirectory hdir
    have h₁ := (keeps_requireDirectory LawfulStore.quiet_sound _).ends hl.sound hdir
    exact accounts_inSession hnext _ (below_openProject h₁ hne hopen)
      (Session.keeps_accounted_migrateActivities hne s o.cancelled.activities)

/-- The sections of a run account for what was recorded in it, wherever it stopped. -/
theorem accounts_onStore (hl : Logged.Recorded files before l) (s : Settings) (c : Command)
    (o : Options) : Accounts files before (onStore s c o l) := by
  cases c with
  | workflows => exact accounts_workflows hl s o
  | activities => exact accounts_activities hl s o
  | all =>
    obtain ⟨since, hrecorded, hsections⟩ := accounts_workflows hl s o
    simp only [onStore, andThen]
    split
    · exact ⟨since, hrecorded, hsections⟩
    · obtain ⟨since', hrecorded', hsections'⟩ := accounts_activities hrecorded s o
      refine ⟨since ++ since', by rwa [← List.append_assoc], ?_⟩
      rw [placed_append]
      exact List.rel_append hsections hsections'

end Accounts

section Generated

variable {σ : Type} [FileStore σ] {s : Settings} {c : Command} {o : Options} {files : σ} {path : Bytes}

/-- A run writes the flow class of some workflow to a path. -/
def Wrote (s : Settings) (c : Command) (o : Options) (files : σ) (path : Bytes) : Prop :=
  c ≠ .activities ∧ ∃ codeBehind w out, Migrated s o files codeBehind w out ∧
    Memory.normalize (Session.destination w out) = path

theorem not_lists_activities (files : σ) : ¬ Lists (activities s o files).sections [.generate] path := by
  rintro ⟨e, he, haction, -⟩
  unfold activities at he
  obtain ⟨r, t, hran⟩ : ∃ r t, ran (prepareActivities o) files = (r, t) := ⟨_, _, rfl⟩
  rw [show (prepareActivities o).run files = _ from hran] at he
  cases r with
  | error f => cases he
  | ok project =>
    have hnone : Session.Listed (Session.generated · = [])
        (ran (Session.migrateActivities s o.cancelled.activities)
          { files := t, root := o.activities, project := project }).2 :=
      Session.keeps_listed_migrateActivities (Session.bears_generated _) s o.cancelled.activities rfl
    rw [sections_inSession, placed_one] at he
    obtain ⟨e', he', rfl⟩ := List.mem_map.1 he
    have hmem := Session.mem_generated.2 ⟨he', List.mem_singleton.1 haction⟩
    rw [show Session.generated _ = [] from hnone] at hmem
    cases hmem

theorem lists_workflows_iff [LawfulStore σ] (hs : LawfulStore.Sound files) (hc : c ≠ .activities) :
    Lists (workflows s o files).sections [.generate] path ↔ Wrote s c o files path := by
  unfold workflows
  obtain ⟨r, t, hran⟩ : ∃ r t, ran (prepareWorkflows o) files = (r, t) := ⟨_, _, rfl⟩
  rw [show (prepareWorkflows o).run files = _ from hran]
  match r, hran with
  | .error f, hran =>
    refine iff_of_false (fun ⟨e, he, _⟩ => nomatch he) ?_
    rintro ⟨-, codeBehind, w, out, ⟨registry, project, units, t, hprepare, -⟩, -⟩
    rw [Ends, hran] at hprepare
    cases hprepare
  | .ok (registry, project, units), hran =>
    obtain ⟨hne, -, hunits⟩ := below_prepareWorkflows hs hran
    have hmem := Session.generated_migrateWorkflows s registry o.cancelled.workflows
      (S := { files := t, root := o.workflowDir, project := project }) hne rfl hunits
    have hplace : ∀ {p w out}, Session.Migrated s registry o.cancelled.workflows units
        { files := t, root := o.workflowDir, project := project } p w out →
        Memory.normalize (Path.join o.workflowDir (Session.generateEntry o.workflowDir p w out).path) =
          Memory.normalize (Session.destination w out) := by
      rintro p w out ⟨before, after, T, rfl, -, -, t₁, t₂, hload, -, -⟩
      exact (Session.seen_destination (hunits p (by simp)) hne hload out).normalize_shown
    rw [Lists, sections_inSession, placed_one]
    constructor
    · rintro ⟨e, he, haction, hpath⟩
      obtain ⟨e', he', rfl⟩ := List.mem_map.1 he
      obtain ⟨p, w, out, hmigrated, rfl⟩ := (hmem e').1
        (Session.mem_generated.2 ⟨he', List.mem_singleton.1 haction⟩)
      exact ⟨hc, p, w, out, ⟨registry, project, units, t, hran, hmigrated⟩,
        (hplace hmigrated).symm.trans hpath⟩
    · rintro ⟨-, p, w, out, ⟨registry', project', units', t', hprepare, hmigrated⟩, hpath⟩
      obtain ⟨heq, rfl⟩ := Ends.det hran hprepare
      obtain ⟨rfl, rfl, rfl⟩ : registry = registry' ∧ project = project' ∧ units = units' := by
        simpa using heq
      obtain ⟨he, haction⟩ := Session.mem_generated.1 ((hmem _).2 ⟨p, w, out, hmigrated, rfl⟩)
      exact ⟨_, List.mem_map.2 ⟨_, he, rfl⟩, List.mem_singleton.2 haction,
        (hplace hmigrated).trans hpath⟩

/-- The entries for flow classes in the report of a run stand for the flow classes it wrote. -/
theorem lists_onStore_iff [LawfulStore σ] (hs : LawfulStore.Sound files) :
    Lists (onStore s c o files).sections [.generate] path ↔ Wrote s c o files path := by
  cases c with
  | workflows => exact lists_workflows_iff hs nofun
  | activities => exact iff_of_false (not_lists_activities files) fun h => h.1 rfl
  | all =>
    rw [← lists_workflows_iff hs (by nofun : Command.all ≠ .activities)]
    simp only [onStore, andThen]
    split
    · exact Iff.rfl
    · have hno : ¬ Lists (activities s o (workflows s o files).files).sections [.generate] path :=
        not_lists_activities _
      simp only [Lists, placed_append, List.mem_append] at hno ⊢
      constructor
      · rintro ⟨e, he | he, h⟩
        · exact ⟨e, he, h⟩
        · exact absurd ⟨e, he, h⟩ hno
      · rintro ⟨e, he, h⟩
        exact ⟨e, .inl he, h⟩

end Generated

/-- The report of a run accounts for every file that the run changed, wherever it stopped: a file that
is gone is listed as removed, one that a flow class was written to as generated, and any other one as
edited. Every entry says what was done to a file, and in that order; what fails has no entry. -/
theorem perform_accounts (s : Settings) (c : Command) (o : Options) (files : Refusing Memory)
    (hmade : Memory.Made files.base) (hreal : o.dryRun = false) :
    let run := perform s c o files
    let recorded := perform s c o ({ base := files } : Logged (Refusing Memory))
    (recorded.1 = run.1 ∧ recorded.2.1 = run.2.1 ∧ recorded.2.2.base = run.2.2) ∧
    List.Forall₂ (fun e d => e.2.Reports e.1 d) (placed run.1.sections) recorded.2.2.log ∧
    ∀ path, run.2.2.base.fileAt? path ≠ files.base.fileAt? path →
      (run.2.2.base.fileAt? path = none → Lists run.1.sections [.remove] path) ∧
      (run.2.2.base.fileAt? path ≠ none → Wrote s c o files path →
        Lists run.1.sections [.generate] path) ∧
      (run.2.2.base.fileAt? path ≠ none → ¬ Wrote s c o files path →
        Lists run.1.sections [.project, .edit] path) := by
  have hsound : LawfulStore.Sound files := hmade.sound
  have halike := onStore_mirrors Logged.mirrors (rfl : ({ base := files } : Logged _).base = files) s c o
  have hbegin : Logged.Recorded (LawfulStore.fileAt? files) [] ({ base := files } : Logged _) :=
    ⟨hsound, rfl, rfl⟩
  obtain ⟨log, hrecorded, haccounts⟩ := accounts_onStore hbegin s c o
  have hlog : (onStore s c o ({ base := files } : Logged (Refusing Memory))).files.log = log :=
    hrecorded.log_eq
  rw [halike.sections] at haccounts
  simp only [perform, hreal, Bool.false_eq_true, if_false]
  refine ⟨⟨by rw [halike.sections], halike.fault?, halike.files⟩, by rwa [hlog], fun path hchanged => ?_⟩
  -- the last deed at the path tells what became of it
  have hfiles : (onStore s c o files).files.base.fileAt? path =
      Deed.replay (LawfulStore.fileAt? files) log path := by
    rw [← halike.files]
    exact congrFun hrecorded.files_eq path
  rcases Deed.replay_cases (LawfulStore.fileAt? files) log path with hsame | ⟨d, hd, hpath, hresult⟩
  · exact absurd (hfiles.trans hsame) hchanged
  rw [← hfiles] at hresult
  obtain ⟨e, he, hplace, haction⟩ := exists_of_forall₂ haccounts hd
  rw [hpath] at hplace
  refine ⟨fun hgone => ?_, fun _ hwrote => (lists_onStore_iff hsound).2 hwrote, fun hstays hwrote => ?_⟩
  · cases d with
    | write p content =>
      rw [hgone] at hresult
      cases hresult
    | remove p => exact ⟨e, he, List.mem_singleton.2 haction, hplace⟩
  · cases d with
    | remove p => exact absurd hresult hstays
    | write p content =>
      rcases haction with haction | haction | haction
      · exact absurd ((lists_onStore_iff hsound).1 ⟨e, he, List.mem_singleton.2 haction, hplace⟩) hwrote
      · exact ⟨e, he, by simp [haction], hplace⟩
      · exact ⟨e, he, by simp [haction], hplace⟩

/-- A project with two definitions, of which the second cannot be removed. -/
def locked : Refusing Memory where
  base :=
    let empty := (ran (Memory.write "/p/p.csproj" "<Project></Project>") .empty).2
    (ran (Memory.write "/p/B.xoml" []) (ran (Memory.write "/p/A.xoml" []) empty).2).2
  removals := [("/p/B.xoml", "locked")]

set_option maxRecDepth 20000 in
/-- The run fails on the second definition, and its report lists the first. -/
theorem perform_accounts_locked :
    let run := perform {} .workflows { workflowDir := "/p" } locked
    (run.2.1.isSome, run.2.2.base.fileAt? "/p/A.xoml") = (true, none) ∧
      Lists run.1.sections [.remove] "/p/A.xoml" := by
  intro run
  have hmade : Memory.Made locked.base := .write _ _ (.write _ _ (.write _ _ .empty))
  have hbefore : locked.base.fileAt? "/p/A.xoml" = some [] := by decide
  have hrun : (run.2.1.isSome, run.2.2.base.fileAt? "/p/A.xoml") = (true, none) := by
    change ((perform {} .workflows { workflowDir := "/p" } locked).2.1.isSome,
      (perform {} .workflows { workflowDir := "/p" } locked).2.2.base.fileAt? "/p/A.xoml") = _
    rw [locked]
    repeat rw [Bytes.ofString_ofList]
    cbv
  have hgone := (Prod.mk.inj hrun).2
  refine ⟨hrun, ((perform_accounts {} .workflows { workflowDir := "/p" } locked hmade rfl).2.2
    "/p/A.xoml" fun hsame => ?_).1 hgone⟩
  rw [hbefore, show (perform {} .workflows { workflowDir := "/p" } locked).2.2.base.fileAt? "/p/A.xoml" =
    none from hgone] at hsame
  cases hsame

end Run

end Flowsmith
