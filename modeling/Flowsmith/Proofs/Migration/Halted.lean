import Flowsmith.Proofs.Migration.Account
import Flowsmith.Proofs.Migration.Success

/-!
# Runs that halt at a workflow

While workflows are migrated nothing is removed, and the project is edited in memory only. So a run
that halts there, at a workflow that cannot be migrated or because it was cancelled before one, leaves
the project as it was, with the flow classes of the workflows before.

* `Session.migrateWorkflow_error`, `Session.migrateWorkflow_files` : what migrating one workflow does to
  the files;
* `Session.HaltsAt`, `Session.Stands` : where a run halts, and what the report says of what came before;
* `Session.migrateUnits_error` : what is left where the run halts;
* `Run.halted_intact` : the report lists what was written, and nothing else changed.
-/

namespace Flowsmith

open Flowsmith.Path Memory

section Halting

variable {σ : Type} [FileStore σ] (s : Settings) (registry : Option Registry)

omit [FileStore σ] in
theorem Run.inSession_error {name dir : Bytes} {project : Project} {files : σ}
    {migrate : SessionM σ Unit} {f : Fault} {T : Session σ}
    (h : ran migrate { files := files, root := dir, project := project } = (.error f, T)) :
    inSession name dir project files migrate =
      { sections := [⟨name, dir, T.entries⟩], fault? := some f, files := T.files } := by
  unfold inSession
  rw [show migrate.run _ = _ from h]

/-- A run that halts while workflows are migrated reports what it did until then. -/
theorem Run.workflows_error {o : Options} {files t : σ} {project : Project} {units : List Bytes}
    {f : Fault} {T : Session σ} (hprepare : Ends (prepareWorkflows o) files (registry, project, units) t)
    (hhalt : ran (Session.migrateUnits s registry o.cancelled.workflows units)
      { files := t, root := o.workflowDir, project := project } = (.error f, T)) :
    workflows s o files =
      { sections := [⟨"workflows", o.workflowDir, T.entries⟩], fault? := some f, files := T.files } := by
  have hran : ran (Session.migrateWorkflows s registry o.cancelled.workflows units)
      { files := t, root := o.workflowDir, project := project } = (.error f, T) :=
    ran_bind_error_iff.2 (.inl hhalt)
  unfold workflows
  rw [show (prepareWorkflows o).run files = _ from hprepare]
  exact inSession_error hran

end Halting

namespace Session

section Lawful

variable {σ : Type} [FileStore σ] [LawfulStore σ] {s : Settings} {registry : Option Registry}
  {cancelled : List Bytes → Bool} {S T : Session σ} {path : Bytes} {f : Fault}

/-! ## One workflow -/

/-- The files of the session have their content, and these are its entries. -/
structure Still (files : Bytes → Option Bytes) (es : List Entry) (S : Session σ) : Prop where
  sound : LawfulStore.Sound S.files
  files_eq : LawfulStore.fileAt? S.files = files
  entries_eq : S.entries = es

theorem keeps_still_load (s : Settings) (registry : Option Registry) (path : Bytes)
    {files : Bytes → Option Bytes} {es : List Entry} :
    Keeps (Still (σ := σ) files es) (onFiles (Workflow.load s registry path)) := by
  intro S hS
  have hnext := Workflow.keeps_load (LawfulStore.quiet files) s registry path
    (show LawfulStore.Sound S.files ∧ _ from ⟨hS.sound, hS.files_eq⟩)
  rw [ran_onFiles]
  exact ⟨hnext.1, hnext.2, hS.entries_eq⟩

theorem Still.write_error {files : Bytes → Option Bytes} {es : List Entry} {g : Fault → Fault}
    {p c : Bytes} (hS : Still files es S)
    (h : ran (onFiles (tryCatch (FileStore.write p c) fun f => throw (g f))) S = (.error f, T)) :
    Still files es T := by
  obtain ⟨r, t, hwrite, ht, hfiles⟩ := LawfulStore.write_wrapped g p c hS.sound
  rw [ran_onFiles, hwrite] at h
  obtain ⟨rfl, rfl⟩ := Prod.mk.inj h
  refine ⟨ht, funext fun q => ?_, hS.entries_eq⟩
  rw [← hS.files_eq]
  simpa using hfiles q

/-- A workflow that cannot be migrated leaves all files and the report. -/
theorem migrateWorkflow_error (hS : LawfulStore.Sound S.files) (hroot : S.root ≠ [])
    (hpath : Below S.root path) (h : ran (migrateWorkflow s registry path) S = (.error f, T)) :
    Still (LawfulStore.fileAt? S.files) S.entries T := by
  have hloaded := keeps_still_load s registry path
    (⟨hS, rfl, rfl⟩ : Still (LawfulStore.fileAt? S.files) S.entries S)
  rcases ran_bind_error_iff.1 h with h | ⟨w, S', hload, h⟩
  · rwa [h] at hloaded
  rw [hload] at hloaded
  rcases ran_bind_error_iff.1 h with h | ⟨out, S'', hout, h⟩
  · rw [ran_ofExcept] at h
    rwa [← (Prod.mk.inj h).2]
  rw [ran_ofExcept] at hout
  obtain ⟨-, rfl⟩ := Prod.mk.inj hout
  obtain ⟨t, hends, rfl⟩ := onFiles_iff.1 hload
  rcases ran_bind_error_iff.1 h with h | ⟨u, S'', hwrite, h⟩
  · exact hloaded.write_error h
  · -- what follows a write does not fail
    obtain ⟨t', -, rfl⟩ := onFiles_iff.1 hwrite
    obtain ⟨item, hitem⟩ := (seen_destination hpath hroot hends out).exists_relativePath
    rw [ran_get_bind] at h
    change ran (MonadExcept.ofExcept (Project.relativePath S.root (destination w out)) >>= _) _ = _ at h
    rw [hitem] at h
    cases h

/-- A workflow that is migrated changes the file at its destination only, and is reported. -/
theorem migrateWorkflow_files {u : Unit} (hS : LawfulStore.Sound S.files)
    (h : Ends (migrateWorkflow s registry path) S u T) :
    ∃ w out, Writes s registry S.files path w out ∧ LawfulStore.Sound T.files ∧ T.root = S.root ∧
      T.entries = S.entries ++ [generateEntry S.root path w out] ∧
      ∀ q, LawfulStore.fileAt? T.files q =
        if q = normalize (destination w out) then some out.source else LawfulStore.fileAt? S.files q := by
  obtain ⟨w, out, t, t', item, hload, hout, hwrite, -, rfl⟩ := migrateWorkflow_iff.1 h
  have ht := (Workflow.keeps_load (LawfulStore.quiet (LawfulStore.fileAt? S.files)) s registry path).ends
    ⟨hS, rfl⟩ hload
  obtain ⟨r, s', hran, hs', hfiles⟩ := LawfulStore.write (destination w out) out.source ht.1
  obtain ⟨rfl, rfl⟩ := Prod.mk.inj (hran.symm.trans hwrite)
  refine ⟨w, out, ⟨t, _, hload, hout, hwrite⟩, hs', rfl, rfl, fun q => ?_⟩
  rw [hfiles, ht.2]
  simp

/-! ## All workflows -/

/-- The entry stands for the flow class of the workflow at a path, which a run through workflows
wrote, and leads to it. -/
def Stands (s : Settings) (registry : Option Registry) (cancelled : List Bytes → Bool)
    (units : List Bytes) (S : Session σ) (path : Bytes) (e : Entry) : Prop :=
  ∃ w out, Migrated s registry cancelled units S path w out ∧ e = generateEntry S.root path w out ∧
    normalize (join S.root e.path) = normalize (destination w out)

omit [LawfulStore σ] in
theorem stands_cons {first : Bytes} {units : List Bytes} {e : Entry} {u : Unit}
    (hgoes : cancelled (first :: units) = false) (hstep : Ends (migrateWorkflow s registry first) S u T)
    (hroot : T.root = S.root) (h : Stands s registry cancelled units T path e) :
    Stands s registry cancelled (first :: units) S path e := by
  obtain ⟨w, out, hmigrated, rfl, hplace⟩ := h
  rw [hroot] at hplace ⊢
  exact ⟨w, out, migrated_cons_iff.2 ⟨hgoes, .inr ⟨T, hstep, hmigrated⟩⟩, rfl, hplace⟩

/-- After the workflows `before` the run halts at the one at `path`: it was cancelled, or this one
cannot be migrated. -/
def HaltsAt (s : Settings) (registry : Option Registry) (cancelled : List Bytes → Bool) (S : Session σ)
    (before : List Bytes) (path : Bytes) (after : List Bytes) (f : Fault) : Prop :=
  ∃ T, Ends (migrateUnits s registry (fun left => cancelled (left ++ path :: after)) before) S () T ∧
    (cancelled (path :: after) = true ∧ f = cancelledFault ∨
      ∃ T', ran (migrateWorkflow s registry path) T = (.error f, T'))

/-- **Where a run through workflows halts, the report stands for the workflows before.** No file is
gone, and only files that an entry leads to have changed. -/
theorem migrateUnits_error {units : List Bytes} (hS : LawfulStore.Sound S.files)
    (hroot : S.root ≠ []) (hunits : ∀ path ∈ units, Below S.root path)
    (h : ran (migrateUnits s registry cancelled units) S = (.error f, T)) :
    ∃ before path after es, units = before ++ path :: after ∧
      HaltsAt s registry cancelled S before path after f ∧ T.entries = S.entries ++ es ∧
      List.Forall₂ (Stands s registry cancelled units S) before es ∧
      ∀ q, LawfulStore.fileAt? T.files q = LawfulStore.fileAt? S.files q ∨
        (∃ c, LawfulStore.fileAt? T.files q = some c) ∧ ∃ e ∈ es, normalize (join S.root e.path) = q := by
  induction units generalizing S with
  | nil => cases h
  | cons path units ih =>
    have hpath := hunits path List.mem_cons_self
    cases hc : cancelled (path :: units) with
    | true =>
      rw [migrateUnits_cancelled hc] at h
      cases h
      exact ⟨[], path, units, [], rfl, ⟨_, rfl, .inl ⟨hc, rfl⟩⟩, (List.append_nil _).symm, .nil,
        fun q => .inl rfl⟩
    | false =>
      rw [migrateUnits_goes hc, ran_bind] at h
      obtain ⟨r, S', hstep⟩ : ∃ r S', ran (migrateWorkflow s registry path) S = (r, S') := ⟨_, _, rfl⟩
      rw [hstep] at h
      cases r with
      | error e =>
        cases h
        have hstill := migrateWorkflow_error hS hroot hpath hstep
        exact ⟨[], path, units, [], rfl, ⟨S, rfl, .inr ⟨T, hstep⟩⟩,
          by rw [hstill.entries_eq, List.append_nil], .nil,
          fun q => .inl (congrFun hstill.files_eq q)⟩
      | ok u =>
        obtain ⟨w, out, hwrites, hS', hroot', hentries, hfiles⟩ := migrateWorkflow_files hS hstep
        obtain ⟨before, p, after, es, rfl, ⟨T', hbefore, hends⟩, hes, hstands, hrest⟩ := ih hS' (by rwa [hroot'])
          (fun q hq => by rw [hroot']; exact hunits q (List.mem_cons_of_mem _ hq)) h
        have hplace : normalize (join S.root (generateEntry S.root path w out).path) =
            normalize (destination w out) := by
          obtain ⟨t, t', hload, -⟩ := hwrites
          exact (seen_destination hpath hroot hload out).normalize_shown
        refine ⟨path :: before, p, after, generateEntry S.root path w out :: es, rfl,
          ⟨T', migrateUnits_cons_iff.2 ⟨hc, S', hstep, hbefore⟩, hends⟩, ?_, ?_, fun q => ?_⟩
        · rw [hes, hentries, List.append_assoc]
          rfl
        · exact .cons ⟨w, out, migrated_cons_iff.2 ⟨hc, .inl ⟨rfl, hwrites⟩⟩, rfl, hplace⟩
            (hstands.imp fun _ _ => stands_cons hc hstep hroot')
        · rw [hroot'] at hrest
          rcases hrest q with hsame | ⟨hthere, e, he, hq⟩
          · rw [hsame, hfiles]
            by_cases hq : q = normalize (destination w out)
            · exact .inr ⟨⟨out.source, if_pos hq⟩, _, List.mem_cons_self, hplace.trans hq.symm⟩
            · exact .inl (if_neg hq)
          · exact .inr ⟨hthere, e, List.mem_cons_of_mem _ he, hq⟩

end Lawful

end Session

/-! ## Runs -/

namespace Run

/-- A run on files in memory, any of which may be refused, that halts at a workflow leaves the project
as it was but for the flow classes of the workflows before: there is one entry for each of them, every
file that changed has its path in one, no file is gone, and the project file is the same unless a flow
class has its path. -/
theorem halted_intact (s : Settings) (o : Options) (files : Refusing Memory) (hmade : Made files.base)
    {registry : Option Registry} {project : Project} {units : List Bytes} {t : Refusing Memory} {f : Fault}
    {T : Session (Refusing Memory)}
    (hprepare : Ends (prepareWorkflows o) files (registry, project, units) t)
    (hhalt : ran (Session.migrateUnits s registry o.cancelled.workflows units)
      { files := t, root := o.workflowDir, project := project } = (.error f, T)) :
    ∃ before path after es, units = before ++ path :: after ∧
      Session.HaltsAt s registry o.cancelled.workflows
        { files := t, root := o.workflowDir, project := project } before path after f ∧
      List.Forall₂ (Session.Stands s registry o.cancelled.workflows units
        { files := t, root := o.workflowDir, project := project }) before es ∧
      let run := workflows s o files
      run.fault? = some f ∧ run.sections = [⟨"workflows", o.workflowDir, es⟩] ∧
      (∀ e ∈ es, e.action = .generate) ∧
      (∀ q, run.files.base.fileAt? q ≠ files.base.fileAt? q →
        ∃ e ∈ es, normalize (join o.workflowDir e.path) = q) ∧
      (∀ q, files.base.fileAt? q ≠ none → run.files.base.fileAt? q ≠ none) ∧
      ((∀ e ∈ es, normalize (join o.workflowDir e.path) ≠ normalize project.path) →
        run.files.base.fileAt? (normalize project.path) =
          files.base.fileAt? (normalize project.path)) := by
  have hsound : LawfulStore.Sound files := hmade.sound
  obtain ⟨hne, -, hunits⟩ := below_prepareWorkflows hsound hprepare
  have ht := (keeps_prepareWorkflows (LawfulStore.quiet (LawfulStore.fileAt? files)) o).ends
    ⟨hsound, rfl⟩ hprepare
  obtain ⟨before, path, after, es, hsplit, hhalts, hentries, hstands, hfiles⟩ :=
    Session.migrateUnits_error ht.1 hne hunits hhalt
  replace hentries : T.entries = es := hentries
  replace hfiles : ∀ q, T.files.base.fileAt? q = files.base.fileAt? q ∨
      (∃ c, T.files.base.fileAt? q = some c) ∧ ∃ e ∈ es, normalize (join o.workflowDir e.path) = q := by
    intro q
    have hq := hfiles q
    rwa [ht.2] at hq
  refine ⟨before, path, after, es, hsplit, hhalts, hstands, ?_⟩
  rw [workflows_error s registry hprepare hhalt, hentries]
  refine ⟨rfl, rfl, fun e he => ?_, fun q hchanged => ?_, fun q hthere hgone => ?_, fun hno => ?_⟩
  · obtain ⟨p, -, w, out, -, rfl, -⟩ := exists_of_forall₂ hstands he
    rfl
  · exact ((hfiles q).resolve_left hchanged).2
  · rcases hfiles q with hsame | ⟨⟨c, hc⟩, -⟩
    · exact hthere (hsame.symm.trans hgone)
    · rw [show T.files.base.fileAt? q = none from hgone] at hc
      cases hc
  · rcases hfiles (normalize project.path) with hsame | ⟨-, e, he, hplace⟩
    · exact hsame
    · exact absurd hplace (hno e he)

/-- A run that is cancelled before the last workflow. -/
def beforeLast : Options where
  workflowDir := "/"
  cancelled := { Cancellation.const false with workflows := (·.length == 1) }

/-- The project with two workflows when the first one is migrated. -/
def halfway (code c : Bytes) : Memory where
  table := (pair code).table ++ [(("/A.cs" : Bytes), MemoryEntry.file c)]
  reads := 3
  writes := 6

theorem halts_pair (code : Bytes) : ∃ (project : Project) (out : Transpiled) (T : Session (Refusing Memory)),
    Project.ofBytes "/p.csproj" "<P/>" = .ok project ∧
    Session.Given oneStep none (pair code) "/A.xoml.cs" firstFlow out ∧
    Ends (prepareWorkflows beforeLast) ({ base := pair code } : Refusing Memory)
      (none, project, ["/A.xoml.cs", "/B.xoml.cs"]) { base := { pair code with reads := 1 } } ∧
    ran (Session.migrateUnits oneStep none beforeLast.cancelled.workflows ["/A.xoml.cs", "/B.xoml.cs"])
      { files := { base := { pair code with reads := 1 } }, root := "/", project := project } =
        (.error Session.cancelledFault, T) ∧
    T.files = { base := halfway code out.source } ∧
    T.entries = [Session.generateEntry "/" "/A.xoml.cs" firstFlow out] := by
  obtain ⟨project, hload, -⟩ := exists_project
  have hprepare := prepare_pair code hload
  obtain ⟨out, hgiven, -⟩ := given_first code
  have hdest : Session.destination firstFlow out = "/A.cs" := by
    rw [hgiven.destination_eq]
    decide
  have hwrite : Ends (FileStore.write (Session.destination firstFlow out) out.source)
      { pair code with reads := 3 } () (halfway code out.source) := by
    rw [hdest]
    rfl
  have hitem : Project.relativePath "/" (Session.destination firstFlow out) = .ok "A.cs" := by
    rw [hdest]
    rfl
  -- the first workflow is migrated
  have hfirst : Ends (Session.migrateWorkflow oneStep none "/A.xoml.cs")
      { files := { pair code with reads := 1 }, root := "/", project := project } () _ :=
    Session.migrateWorkflow_iff.2 ⟨firstFlow, out, _, _, _, load_first code 1, hgiven.2, hwrite, hitem, rfl⟩
  have hhalt : ran (Session.migrateUnits oneStep none beforeLast.cancelled.workflows ["/A.xoml.cs", "/B.xoml.cs"])
      { files := { pair code with reads := 1 }, root := "/", project := project } =
        (.error Session.cancelledFault, _) :=
    ran_bind_error_iff.2 (.inr ⟨(), _, rfl, ran_bind_error_iff.2 (.inr ⟨(), _, hfirst, rfl⟩)⟩)
  -- and a store that refuses nothing gives the same
  obtain ⟨hres, hnext⟩ := agree_prepareWorkflows Refusing.mirrors.toShows beforeLast
    (rfl : ({ base := pair code } : Refusing Memory) = { base := pair code })
  rw [show ran (prepareWorkflows beforeLast) (pair code) = _ from hprepare] at hres hnext
  have hbeside : Session.Beside (fun (r : Refusing Memory) m => r = { base := m })
      { files := { base := { pair code with reads := 1 } }, root := "/", project := project }
      { files := { pair code with reads := 1 }, root := "/", project := project } :=
    ⟨rfl, rfl, rfl, rfl⟩
  obtain ⟨hres', hnext'⟩ := Session.agree_migrateUnits Refusing.mirrors oneStep none
    beforeLast.cancelled.workflows ["/A.xoml.cs", "/B.xoml.cs"] hbeside
  rw [hhalt] at hres' hnext'
  exact ⟨project, out, _, hload, hgiven, Prod.ext hres hnext, Prod.ext hres' rfl, hnext'.files, hnext'.entries⟩

/-- It leaves the flow class of the first one, and the project file as it was. -/
theorem halted_intact_pair : ∃ e,
    let run := workflows oneStep beforeLast ({ base := pair [] } : Refusing Memory)
    run.fault? = some Session.cancelledFault ∧ run.sections = [⟨"workflows", "/", [e]⟩] ∧
      e.action = .generate ∧
      ∀ q, run.files.base.fileAt? q ≠ (pair []).fileAt? q → normalize (join "/" e.path) = q := by
  obtain ⟨project, out, T, -, -, hprepare, hhalt, -, hentries⟩ := halts_pair []
  obtain ⟨before, path, after, es, -, -, -, hfault, hsections, hactions, hfiles, -⟩ :=
    halted_intact oneStep beforeLast { base := pair [] } (made_pair []) hprepare hhalt
  obtain rfl : es = [Session.generateEntry "/" "/A.xoml.cs" firstFlow out] := by
    rw [workflows_error oneStep none hprepare hhalt, hentries] at hsections
    simpa using hsections.symm
  refine ⟨_, hfault, hsections, hactions _ List.mem_cons_self, fun q hq => ?_⟩
  obtain ⟨e', he', hplace⟩ := hfiles q hq
  rwa [List.mem_singleton.1 he'] at hplace

end Run

end Flowsmith
