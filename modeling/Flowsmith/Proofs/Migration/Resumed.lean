import Flowsmith.Proofs.Migration.Halted
import Flowsmith.Proofs.Migration.InStep

/-!
# Migrations that are resumed

A migration deletes and writes files at once, and saves the project near its end. What a run that failed
did in between is known to the project only if it was saved, or if a later run does it again. A later run
that ends brings the project file in step with what it does itself, and leaves it in step with what the
earlier one did as far as it was.

* `Session.SavedLast` : the project is not edited after it was saved, wherever a migration stops;
* `Run.Leaves` : what a migration that may have failed leaves;
* `Run.Finished` : what a migration that has ended says of the files and of earlier paths;
* `Run.ClassOf` : flow classes of the workflows that a migration finds;
* `Run.migrations_resumed` : a second migration after one that may have failed;
* `Run.activities_not_resumed` : a file that was deleted before a failure stays listed.
-/

namespace Flowsmith

open Flowsmith.Path Memory Project

namespace Session

variable {σ : Type} [FileStore σ] {P : List Entry → Prop}

/-! ## Saving the project -/

def Unsaved (es : List Entry) : Prop := pathsOf .project es = []

theorem bears_unsaved : Bears [.generate, .remove, .edit] Unsaved := by
  intro es e he hes
  have hother : e.action ≠ .project := fun heq => by
    rw [heq] at he
    revert he
    decide
  rw [Unsaved, pathsOf_snoc, if_neg hother, List.append_nil]
  exact hes

/-- When the report says that the project was saved, it has not been edited since. -/
def SavedLast (S : Session σ) : Prop := Unsaved S.entries ∨ S.project.modified = false

/-- The project has no edits that were not saved. -/
def Clean (S : Session σ) : Prop := S.project.modified = false

omit [FileStore σ] in
theorem keeps_clean_onFiles {α : Type} (f : FileM σ α) : Keeps Clean (onFiles f) := by
  intro S hS
  rw [ran_onFiles]
  exact hS

theorem keeps_clean_editFile (path : Bytes) (edit : Bytes → Except Fault Bytes) :
    Keeps Clean (editFile (σ := σ) path edit) := by
  refine (keeps_clean_onFiles _).bind fun text => (Keeps.ofExcept _).bind fun edited => ?_
  refine .ite ((keeps_clean_onFiles _).bind fun _ => .get_bind fun S => ?_) (.pure _)
  exact .modify fun S hS => hS

theorem spares_listed_saveProject (detail : Bytes) :
    Spares (Listed P) (saveProject (σ := σ) detail) := by
  refine .get_bind fun S => ?_
  split
  · exact .bind (keeps_listed_onFiles _) fun _ => .bind (Keeps.modify fun S hS => hS) fun _ _ _ _ _ h => nomatch h
  · exact fun _ _ _ _ h => nomatch h

theorem savedLast_dropLegacyReferences (o : Settings.Project) {S : Session σ} (hS : Listed Unsaved S) :
    SavedLast (ran (dropLegacyReferences o) S).2 := by
  refine Keeps.then (keeps_listed_onProject _) (fun _ => .inl) (fun refs S hS => ?_) hS
  refine Keeps.then (keeps_listed_onProject _) (fun _ => .inl) (fun imports S hS => ?_) hS
  rw [ran_bind]
  generalize hsave : ran (saveProject _) S = out
  obtain ⟨r, T⟩ := out
  cases r with
  | error e => exact .inl (spares_listed_saveProject _ hS hsave)
  | ok u =>
    have hclean : Clean T := by
      rcases saveProject_iff.1 hsave with ⟨hclean, rfl⟩ | ⟨-, t, -, rfl⟩
      · exact hclean
      · rfl
    refine .inr (Keeps.get_bind (I := Clean) (fun S => (keeps_clean_onFiles _).bind fun info => ?_) hclean)
    cases info with
    | none => exact .pure _
    | some path => exact keeps_clean_editFile _ _

theorem savedLast_migrateWorkflows (s : Settings) (registry : Option Registry) (cancelled : List Bytes → Bool)
    (units : List Bytes) {S : Session σ} (hS : Listed Unsaved S) :
    SavedLast (ran (migrateWorkflows s registry cancelled units) S).2 :=
  Keeps.then (keeps_listed_migrateUnits (bears_unsaved.mono (by simp)) s registry cancelled units)
    (fun _ => .inl) (fun _ _ hT => Keeps.then (keeps_listed_removeFiles (bears_unsaved.mono (by simp)) _)
      (fun _ => .inl) (fun _ _ => savedLast_dropLegacyReferences _) hT) hS

theorem savedLast_migrateActivities (s : Settings) (cancelled : List Bytes → Bool) {S : Session σ}
    (hS : Listed Unsaved S) : SavedLast (ran (migrateActivities s cancelled) S).2 := by
  refine Keeps.then (keeps_listed_removeFiles (bears_unsaved.mono (by simp)) _) (fun _ => .inl)
    (fun _ T hT => ?_) hS
  rw [ran_get_bind]
  exact Keeps.then (keeps_listed_onFiles _) (fun _ => .inl) (fun paths _ hT =>
    Keeps.then (keeps_listed_migrateSources (bears_unsaved.mono (by simp)) s cancelled paths)
      (fun _ => .inl) (fun _ _ => savedLast_dropLegacyReferences _) hT) hT

end Session

namespace Run

open Session

variable {s : Settings} {dir path pattern name : Bytes} {before : Bytes → Option Bytes} {m t : Memory}
  {p : Project} {G R : List Bytes}

theorem onFile_of_open {files t : Refusing Memory} {p : Project} (hm : Sound files.base) (hdir : dir ≠ [])
    (hopen : Ends (openProject dir) files p t) : OnFile files.base p.path p := by
  obtain ⟨m, hopen, -⟩ := ((agree_openProject Refusing.shown dir).meets rfl).ends hopen
  obtain ⟨t₁, data, hfirst, hread, hbytes⟩ := openProject_iff.1 hopen
  obtain ⟨rfl, -⟩ := Files.findFirst?_ends hm hdir hfirst
  exact ⟨data, (read_iff.1 hread).2.1, hbytes⟩

/-! ## Runs that may have failed -/

/-- A run that began with the files `before` left them as they were and reports nothing, or it left the
books of a session. -/
def Leaves (before : Bytes → Option Bytes) (dir path pattern : Bytes) (out : Outcome (Refusing Memory)) : Prop :=
  (out.files.base.fileAt? = before ∧ ∀ a, out.reported a = []) ∨
  ∃ S : Session (Refusing Memory), out.files = S.files ∧ (∀ a, out.reported a = pathsOf a S.entries) ∧
    Kept before dir path pattern [] [] S ∧ SavedLast S

theorem leaves_inSession {files t : Refusing Memory} {p : Project} {migrate : SessionM (Refusing Memory) Unit}
    (hm : Sound files.base) (hdir : dir ≠ []) (hopen : ∃ t₁, Ends (openProject dir) files p t₁)
    (ht : Sound t.base ∧ t.base.fileAt? = files.base.fileAt?) (hpath : p.path = path)
    (hplain : ∀ p, OnFile files.base path p → p.Plain)
    (hkeeps : Keeps (Kept files.base.fileAt? dir path pattern [] []) migrate)
    (hsaved : ∀ S : Session (Refusing Memory), Listed Unsaved S → SavedLast (ran migrate S).2) :
    Leaves files.base.fileAt? dir path pattern (inSession name dir p t migrate) := by
  obtain ⟨t₁, hopen⟩ := hopen
  subst hpath
  have hfile := onFile_of_open hm hdir hopen
  obtain ⟨data, hdata, hbytes⟩ := id hfile
  have hsame : LawfulStore.fileAt? t = LawfulStore.fileAt? files := ht.2
  have hbegin : Kept files.base.fileAt? dir p.path pattern [] [] { files := t, root := dir, project := p } :=
    .opened ht.1 hsame ((hplain p hfile).fit hbytes) hdata hbytes nofun nofun
  refine .inr ⟨_, rfl, fun a => ?_, hkeeps hbegin, hsaved _ rfl⟩
  exact List.append_nil _

/-- A migration of workflows leaves its books, wherever it stops. -/
theorem leaves_workflowsIn {files : Refusing Memory} (hm : Sound files.base) (hdir : dir ≠ [])
    (hopens : ∀ p t, Ends (openProject dir) files p t → p.path = path)
    (hplain : ∀ p, OnFile files.base path p → p.Plain) (hpath : (".csproj" : Bytes) <:+ base (normalize path))
    (hlegacy : Passes "*.xoml*" path) (hinfo : Passes s.project.assemblyInfo path)
    (registry : Option Registry) (cancelled : List Bytes → Bool) :
    Leaves files.base.fileAt? dir path "*.xoml*" (workflowsIn s dir registry cancelled files) := by
  have hquiet := keeps_openWorkflows (LawfulStore.quiet files.base.fileAt?) dir
    (⟨hm, rfl⟩ : LawfulStore.Sound files ∧ _)
  unfold workflowsIn
  obtain ⟨r, t, hran⟩ : ∃ r t, ran (openWorkflows dir) files = (r, t) := ⟨_, _, rfl⟩
  rw [hran] at hquiet
  rw [show (openWorkflows dir).run files = _ from hran]
  match r, hran with
  | .error f, _ => exact .inl ⟨hquiet.2, fun _ => rfl⟩
  | .ok (p, units), hran =>
    obtain ⟨t₁, hopen, hunits⟩ := openWorkflows_iff.1 hran
    have ht₁ := (keeps_openProject LawfulStore.quiet_sound dir).ends (I := LawfulStore.Sound) hm hopen
    exact leaves_inSession hm hdir ⟨t₁, hopen⟩ hquiet (hopens p t₁ hopen) hplain
      (keeps_migrateWorkflows hdir hpath hlegacy hinfo registry cancelled
        (LawfulStore.below_of_find ht₁ hdir hunits))
      fun S => savedLast_migrateWorkflows s registry cancelled units

/-- A migration of activities leaves its books, wherever it stops. -/
theorem leaves_activitiesIn {files : Refusing Memory} (hm : Sound files.base) (hdir : dir ≠ [])
    (hopens : ∀ p t, Ends (openProject dir) files p t → p.path = path)
    (hplain : ∀ p, OnFile files.base path p → p.Plain)
    (hdesigner : Passes s.activities.designerPattern path)
    (hsource : Passes s.activities.filePattern path) (hinfo : Passes s.project.assemblyInfo path)
    (cancelled : List Bytes → Bool) :
    Leaves files.base.fileAt? dir path s.activities.designerPattern (activitiesIn s dir cancelled files) := by
  have hquiet := keeps_openProject (LawfulStore.quiet files.base.fileAt?) dir
    (⟨hm, rfl⟩ : LawfulStore.Sound files ∧ _)
  unfold activitiesIn
  obtain ⟨r, t, hran⟩ : ∃ r t, ran (openProject dir) files = (r, t) := ⟨_, _, rfl⟩
  rw [hran] at hquiet
  rw [show (openProject dir).run files = _ from hran]
  match r, hran with
  | .error f, _ => exact .inl ⟨hquiet.2, fun _ => rfl⟩
  | .ok p, hopen =>
    exact leaves_inSession hm hdir ⟨t, hopen⟩ hquiet (hopens p t hopen) hplain
      (keeps_migrateActivities hdir hdesigner hsource hinfo cancelled)
      fun S => savedLast_migrateActivities s cancelled

theorem OnFile.det {m : Memory} {p p' : Project} (h : OnFile m path p) (h' : OnFile m path p') : p = p' := by
  obtain ⟨data, hdata, hbytes⟩ := h
  obtain ⟨data', hdata', hbytes'⟩ := h'
  obtain rfl := Option.some.inj (hdata.symm.trans hdata')
  exact Except.ok.inj (hbytes.symm.trans hbytes')

/-- The file at a path below a directory was there before, and is not there afterwards. -/
def Gone (dir : Bytes) (before after : Bytes → Option Bytes) (rel : Bytes) : Prop :=
  ∃ names, (∀ k ∈ names, IsEntry k) ∧ rel = Bytes.joinWith [slash] names ∧
    (before (key (fromRoot dir ++ names))).isSome ∧ after (key (fromRoot dir ++ names)) = none

/-! ## What a run left -/

section Leaves

variable {out : Outcome (Refusing Memory)}

/-- What a report names can be told apart, if the report is that of a session with books. -/
def Told (before : Bytes → Option Bytes) (dir path pattern : Bytes) (out : Outcome (Refusing Memory)) : Prop :=
  ∀ S : Session (Refusing Memory), Kept before dir path pattern [] [] S →
    (∀ a, out.reported a = pathsOf a S.entries) → Tame dir [] [] S.entries

theorem Leaves.fit (h : Leaves before dir path pattern out) (htold : Told before dir path pattern out)
    (hplain : ∀ data p, before (normalize path) = some data → Project.ofBytes path data = .ok p → p.Fit)
    {q : Project} (hq : OnFile out.files.base path q) : q.Fit := by
  obtain ⟨data, hdata, hbytes⟩ := hq
  rcases h with ⟨hfiles, -⟩ | ⟨S, hS, hreport, hkept, -⟩
  · exact hplain data q (hfiles ▸ hdata) hbytes
  · obtain ⟨data', q', hdata', hbytes', hfit, -⟩ := (hkept.booked (htold S hkept hreport)).disk
    rw [hS] at hdata
    obtain rfl := Option.some.inj (hdata.symm.trans hdata')
    obtain rfl := Except.ok.inj (hbytes.symm.trans hbytes')
    exact hfit

/-- When the project was saved, its file lists what was generated and nothing that was removed. -/
theorem Leaves.saved (h : Leaves before dir path pattern out) (htold : Told before dir path pattern out)
    (hsaved : out.reported .project ≠ []) :
    ∃ q, OnFile out.files.base path q ∧ (∀ r ∈ out.reported .remove, q.Omits (itemOf r)) ∧
      ∀ g ∈ out.reported .generate, q.Lists "Compile" "Include" (itemOf g) := by
  rcases h with ⟨-, hnone⟩ | ⟨S, hS, hreport, hkept, hunsaved | hclean⟩
  · exact absurd (hnone _) hsaved
  · exact absurd ((hreport _).trans hunsaved) hsaved
  · obtain ⟨data, q, hdata, hbytes, -, homits, hlists⟩ := hkept.on_disk (htold S hkept hreport) hclean
    rw [hS, hreport, hreport]
    exact ⟨q, ⟨data, hdata, hbytes⟩, homits, hlists⟩

theorem Leaves.removed (h : Leaves before dir path pattern out) (hdir : dir ≠ []) {r : Bytes}
    (hgone : Gone dir before out.files.base.fileAt? r) : r ∈ out.reported .remove := by
  obtain ⟨names, hnames, rfl, hthere, hgone⟩ := hgone
  rcases h with ⟨hfiles, -⟩ | ⟨S, hS, hreport, hkept, -⟩
  · rw [hfiles] at hgone
    rw [hgone] at hthere
    cases hthere
  · rw [hreport]
    rw [hS] at hgone
    exact hkept.lost hdir hnames hthere hgone

/-- The files that a migration of workflows names as removed are legacy files. -/
theorem Leaves.isLegacy (h : Leaves before dir path "*.xoml*" out) (hdir : dir ≠ [])
    (hback : ∀ r ∈ out.reported .remove, 0x5C ∉ base (normalize (join dir r))) :
    ∀ r ∈ out.reported .remove, IsLegacy r := by
  rcases h with ⟨-, hnone⟩ | ⟨S, -, hreport, hkept, -⟩
  · rw [hnone]
    nofun
  · rw [hreport] at hback ⊢
    exact hkept.isLegacy hdir hback

end Leaves

/-! ## Runs that end -/

/-- A run has ended with the project `q` on file, in step with what the run did and with paths that were
generated or removed before. -/
structure Finished (dir path : Bytes) (m : Memory) (G R : List Bytes) (out : Outcome Memory) (q : Project) :
    Prop where
  file : OnFile out.files path q
  omits : ∀ r ∈ R ++ out.reported .remove, q.Omits (itemOf r)
  lists : ∀ g ∈ G ++ out.reported .generate, q.Lists "Compile" "Include" (itemOf g)
  removed : ∀ r, Gone dir m.fileAt? out.files.fileAt? r → r ∈ out.reported .remove

theorem finished_of_kept {S : Session Memory} (hdir : dir ≠ [])
    (h : Kept m.fileAt? dir path pattern G R S) (htame : Tame dir G R S.entries)
    (hclean : S.project.modified = false) :
    ∃ q, Finished dir path m G R { sections := [⟨name, dir, S.entries⟩], files := S.files } q := by
  obtain ⟨data, q, hdata, hbytes, -, homits, hlists⟩ := h.on_disk htame hclean
  refine ⟨q, ⟨data, hdata, hbytes⟩, ?_, ?_, ?_⟩
  · rwa [reported_one]
  · rwa [reported_one]
  · rintro r ⟨names, hnames, rfl, hthere, hgone⟩
    rw [reported_one]
    exact h.lost hdir hnames hthere hgone

/-- The paths in a report can be written in a project file, and are not taken for one another. -/
def Outcome.Tidy {σ : Type} (dir : Bytes) (out : Outcome σ) : Prop :=
  out.Plain dir ∧ ∀ r ∈ out.reported .remove, 0x5C ∉ base (normalize (join dir r))

theorem finished_workflowsIn {registry : Option Registry} {cancelled : List Bytes → Bool} (hm : Sound m)
    (hdir : dir ≠ [])
    (hopen : Ends (openProject dir) m p t) (hfit : p.Fit) (hname : ¬ legacyWord <:+: base (normalize p.path))
    (hinfo : Passes s.project.assemblyInfo p.path)
    (hend : (workflowsIn s dir registry cancelled m).fault? = none)
    (htidy : (workflowsIn s dir registry cancelled m).Tidy dir)
    (hG : ∀ g ∈ G, p.Lists "Compile" "Include" (itemOf g) ∧ ¬ legacyWord <:+: base (normalize (join dir g)))
    (hR : ∀ r ∈ R, p.Omits (itemOf r) ∧ IsLegacy r) :
    ∃ q, Finished dir p.path m G R (workflowsIn s dir registry cancelled m) q := by
  obtain ⟨p', units, t', S, hopen', hmigrate, heq⟩ := exists_workflowsIn hend
  obtain ⟨t₁, hopen', hunits⟩ := openWorkflows_iff.1 hopen'
  obtain ⟨rfl, rfl⟩ := hopen.det hopen'
  obtain ⟨hsame, hfile, hproject, hpass⟩ := project_of_open hm hdir hopen hname
  have ht : Sound t := hm.congr hsame.table
  have hbelow := LawfulStore.below_of_find ht hdir hunits
  obtain ⟨rfl, -⟩ := Files.find_ends ht hdir hunits
  have hbegin : Kept m.fileAt? dir p.path "*.xoml*" G R
      ({ files := t', root := dir, project := p } : Session Memory) :=
    .begin hm hsame hfit hfile (fun g hg => (hG g hg).1) fun r hr => (hR r hr).1
  have hkept := (keeps_migrateWorkflows hdir hproject hpass hinfo registry cancelled hbelow).ends hbegin
    hmigrate
  obtain ⟨S₁, S₂, -, -, hdrop⟩ := migrateWorkflows_iff.1 hmigrate
  rw [heq] at htidy ⊢
  obtain ⟨hplain, hback⟩ := htidy
  simp only [Outcome.Plain, reported_one] at hplain hback
  refine finished_of_kept hdir hkept ?_ (dropLegacyReferences_frame hdrop).1
  refine tame_of_names hdir (fun g hg => ⟨(hplain g hg).1, (hplain g hg).2.1⟩) (fun g hg => ?_)
    fun r hr => ?_
  · exact (List.mem_append.1 hg).elim (fun hg => (hG g hg).2) fun hg => (hplain g hg).2.2
  · exact (List.mem_append.1 hr).elim (fun hr => (hR r hr).2) (hkept.isLegacy hdir hback r)

/-- No entry of a migration of activities is for a flow class. -/
theorem reported_activitiesIn {σ : Type} [FileStore σ] (s : Settings) (dir : Bytes) (cancelled : List Bytes → Bool)
    (files : σ) : (activitiesIn s dir cancelled files).reported .generate = [] := by
  unfold activitiesIn
  match (openProject dir).run files with
  | (.error f, t) => rfl
  | (.ok p, t) =>
    have hnone : Listed (generated · = []) (ran (migrateActivities s cancelled)
        { files := t, root := dir, project := p }).2 :=
      keeps_listed_migrateActivities (bears_generated _) s cancelled rfl
    show pathsOf _ _ ++ [] = _
    rw [List.append_nil]
    exact congrArg (List.map (·.path)) hnone

theorem finished_activitiesIn {cancelled : List Bytes → Bool} (hm : Sound m) (hdir : dir ≠ [])
    (hopen : Ends (openProject dir) m p t) (hfit : p.Fit)
    (hdesigner : Passes s.activities.designerPattern p.path)
    (hsource : Passes s.activities.filePattern p.path) (hinfo : Passes s.project.assemblyInfo p.path)
    (hend : (activitiesIn s dir cancelled m).fault? = none) (hR : ∀ r ∈ R, p.Omits (itemOf r)) :
    ∃ q, Finished dir p.path m [] R (activitiesIn s dir cancelled m) q := by
  have hnone := reported_activitiesIn s dir cancelled m
  obtain ⟨p', t', S, hopen', hmigrate, heq⟩ := exists_activitiesIn hend
  obtain ⟨rfl, rfl⟩ := hopen.det hopen'
  have hsame := (keeps_openProject (quiet_same m) dir).ends (.refl m) hopen
  obtain ⟨t₁, data, hfirst, hread, hbytes⟩ := openProject_iff.1 hopen
  obtain ⟨rfl, -⟩ := Files.findFirst?_ends hm hdir hfirst
  have hbegin : Kept t₁.fileAt? dir p.path s.activities.designerPattern [] R
      ({ files := t, root := dir, project := p } : Session Memory) :=
    .begin hm hsame hfit ⟨data, (read_iff.1 hread).2.1, hbytes⟩ nofun hR
  have hkept := (keeps_migrateActivities hdir hdesigner hsource hinfo cancelled).ends hbegin hmigrate
  obtain ⟨S₁, found, t₂, S₂, -, -, -, hdrop⟩ := migrateActivities_iff.1 hmigrate
  rw [heq, reported_one] at hnone
  rw [heq]
  refine finished_of_kept hdir hkept ⟨?_, ?_, ?_⟩ (dropLegacyReferences_frame hdrop).1 <;> rw [hnone] <;>
    nofun

/-! ## Flow classes of workflows that are found -/

/-- The path in reports is that of the flow class of a workflow below the directory. -/
def ClassOf (s : Settings) (registry : Option Registry) (dir : Bytes) (m : Memory) (g : Bytes) : Prop :=
  ∃ unit w out, IsCodeBehind dir unit ∧ Session.Given s registry m unit w out ∧ g = shown dir (destination w out)

/-- A workflow that is migrated after others is what it was before them, when no other flow class is written
as a legacy file. -/
theorem given_of_migrated {registry : Option Registry} {cancelled : List Bytes → Bool} {units : List Bytes}
    {S S' : Session Memory} {unit : Bytes} {w : Workflow} {out : Transpiled} (hm : Sound m)
    (hsame : Same m S.files) (hroot : S.root ≠ []) (hnil : S.entries = [])
    (hunits : ∀ path ∈ units, Path.Below S.root path)
    (hrun : Ends (migrateUnits s registry cancelled units) S () S')
    (hnames : ∀ g ∈ pathsOf .generate S'.entries, ¬ legacyWord <:+: base (normalize (join S.root g)))
    (hunit : IsCodeBehind S.root unit) (hlist : m.Listable (directory unit))
    (h : Session.Migrated s registry cancelled units S unit w out) : Session.Given s registry m unit w out := by
  have hS : Sound S.files := hm.congr hsame.table
  obtain ⟨before, after, T, rfl, hbefore, hc, t₁, t₂, hload, hout, -⟩ := h
  have hbelow : ∀ path ∈ before, Path.Below S.root path := fun path hpath =>
    hunits path (List.mem_append_left _ hpath)
  -- what was written before is written in the whole run
  have hsub : ∀ g ∈ pathsOf .generate T.entries, g ∈ pathsOf .generate S'.entries := by
    obtain ⟨es, hentries, hes⟩ := migrateUnits_entries s registry cancelled hroot hunits
    obtain ⟨es', hentries', hes'⟩ :=
      migrateUnits_entries s registry (fun left => cancelled (left ++ unit :: after)) hroot hbelow
    rw [show ran _ S = _ from hrun, hnil, List.nil_append] at hentries
    rw [show ran _ S = _ from hbefore, hnil, List.nil_append] at hentries'
    intro g hg
    obtain ⟨e, he, haction, rfl⟩ := mem_pathsOf.1 hg
    rw [show T.entries = es' from hentries', hes'] at he
    obtain ⟨path, w', out', ⟨b, a, T', rfl, hmigrated⟩, rfl⟩ := he
    refine mem_pathsOf.2 ⟨_, ?_, haction, rfl⟩
    rw [show S'.entries = es from hentries, hes]
    refine ⟨path, w', out', ⟨b, a ++ unit :: after, T', by simp, ?_⟩, rfl⟩
    simpa only [List.append_assoc, List.cons_append] using hmigrated
  have hlegacy := legacy_kept hS hroot hbelow (fun g hg => hnames g (hsub g hg)) hbefore
  have hkept : Filed (fun m => Sound m ∧ m.refused = S.files.refused) T :=
    (keeps_filed_migrateUnits (quiet_of_table fun m m' htable hrefused hm =>
      ⟨hm.1.congr htable, hrefused.trans hm.2⟩) (fun p c m hm => by
        obtain ⟨r, m', hran, hm', hrefused, -⟩ := ran_write hm.1 p c
        rw [show ran (FileStore.write p c) m = _ from hran]
        exact ⟨hm', hrefused.trans hm.2⟩) before).ends ⟨hS, rfl⟩ hbefore
  have hnamed : SameNamed legacyWord T.files m :=
    ⟨hkept.2.trans hsame.refused, fun q hq => by rw [hlegacy q hq, hsame.fileAt?]⟩
  exact ⟨Workflow.load_same hkept.1 hm hnamed hroot hunit hlist hload, hout⟩

/-- A migration of workflows reports the flow class of every workflow that it found. -/
theorem reported_of_classOf {registry : Option Registry} {cancelled : List Bytes → Bool} (hm : Sound m)
    (hdir : dir ≠ [])
    (hend : (workflowsIn s dir registry cancelled m).fault? = none)
    (hplain : (workflowsIn s dir registry cancelled m).Plain dir) {g : Bytes}
    (h : ClassOf s registry dir m g) :
    g ∈ (workflowsIn s dir registry cancelled m).reported .generate := by
  obtain ⟨unit, w, out, hunit, hgiven, rfl⟩ := h
  obtain ⟨p, units, t, S, found, hopen, hunits, hwrite, hreport, -⟩ := exists_reported hm hdir hend
  have hsame := (keeps_openProject (quiet_same m) dir).ends (.refl m) hopen
  have ht : Sound t := hm.congr hsame.table
  have hbelow := LawfulStore.below_of_find ht hdir hunits
  obtain ⟨init, u, hnames, hjoin⟩ := id hunit
  obtain ⟨t₁, hload⟩ := hgiven.1
  obtain ⟨text, _, _, _, _, hread, -⟩ := Workflow.load_iff.1 hload
  have hthere := (read_iff.1 hread).2.1
  rw [hjoin, Files.normalize_names hdir hnames] at hthere
  have hmem : unit ∈ units := (mem_find_iff ht hdir hunits unit).2
    ⟨init, _, hnames, ⟨u, by rw [List.append_assoc]; rfl⟩, ⟨text, by rw [hsame.fileAt?, hthere]⟩, hjoin⟩
  have hlist : m.Listable (directory unit) := by
    have hall := ((Files.find_ok_iff ht hdir).1 ⟨units, hunits⟩).2.of_same hsame
    rw [hjoin]
    exact listable_directory hm hdir hall hnames hthere
  obtain ⟨w', out', hmigrated⟩ := migrateUnits_migrated hwrite hmem
  have hgiven' := given_of_migrated (S := ⟨t, dir, p, []⟩) hm hsame hdir rfl hbelow hwrite
    (fun g hg => (hplain g (hreport ▸ hg)).2.2) hunit hlist hmigrated
  obtain ⟨rfl, rfl⟩ := hgiven.det hgiven'
  obtain ⟨es, hentries, hes⟩ := migrateUnits_entries (S := ⟨t, dir, p, []⟩) s registry cancelled hdir hbelow
  rw [show ran _ _ = _ from hwrite, List.nil_append] at hentries
  rw [hreport]
  refine mem_pathsOf.2 ⟨generateEntry dir unit w out, ?_, rfl, rfl⟩
  rw [show S.entries = es from hentries, hes]
  exact ⟨unit, w, out, hmigrated, rfl⟩

/-! ## Runs that are resumed -/

/-- The project `q` is on file when a second run has ended, after a first one that had left the project `p`
on file. It omits what the second run removed and lists what it generated. It does so for the first run too
where that had saved the project, or where `p` does. -/
structure Resumed (dir path : Bytes) (files again : Memory) (p : Project) (first : Outcome (Refusing Memory))
    (second : Outcome Memory) (q : Project) : Prop where
  file : OnFile second.files path q
  removed : ∀ r, Gone dir again.fileAt? second.files.fileAt? r → q.Omits (itemOf r)
  generated : ∀ g ∈ second.reported .generate, q.Lists "Compile" "Include" (itemOf g)
  removed_before : ∀ r, Gone dir files.fileAt? first.files.base.fileAt? r →
    first.reported .project ≠ [] ∨ p.Omits (itemOf r) → q.Omits (itemOf r)
  generated_before : ∀ g ∈ first.reported .generate,
    first.reported .project ≠ [] ∨ p.Lists "Compile" "Include" (itemOf g) →
      q.Lists "Compile" "Include" (itemOf g)

open Classical in
/-- A second run that ends for whatever the project has of the first one resumes it. -/
theorem resumed_of_leaves {files again : Memory} {first : Outcome (Refusing Memory)} {second : Outcome Memory}
    (h : Leaves files.fileAt? dir path pattern first) (htold : Told files.fileAt? dir path pattern first)
    (hdir : dir ≠ []) (hfile : OnFile again path p)
    (hbetween : again.fileAt? (normalize path) = first.files.base.fileAt? (normalize path))
    (hend : ∀ G R, (∀ g ∈ G, g ∈ first.reported .generate ∧ p.Lists "Compile" "Include" (itemOf g)) →
      (∀ r ∈ R, r ∈ first.reported .remove ∧ p.Omits (itemOf r)) →
      ∃ q, Finished dir path again G R second q) :
    ∃ q, Resumed dir path files again p first second q := by
  obtain ⟨q, hq⟩ := hend ((first.reported .generate).filter fun g => p.Lists "Compile" "Include" (itemOf g))
    ((first.reported .remove).filter fun r => p.Omits (itemOf r)) (fun g hg => by simpa using hg)
    fun r hr => by simpa using hr
  -- between the runs the project is what the first one saved
  have hsaved : first.reported .project ≠ [] → (∀ r ∈ first.reported .remove, p.Omits (itemOf r)) ∧
      ∀ g ∈ first.reported .generate, p.Lists "Compile" "Include" (itemOf g) := by
    intro hsaved
    obtain ⟨p', hfile', hbooks⟩ := h.saved htold hsaved
    obtain ⟨data, hdata, hbytes⟩ := hfile
    obtain rfl := OnFile.det ⟨data, hbetween.symm.trans hdata, hbytes⟩ hfile'
    exact hbooks
  refine ⟨q, hq.file, fun r hr => ?_, fun g hg => ?_, fun r hr hcase => ?_, fun g hg hcase => ?_⟩
  · exact hq.omits r (List.mem_append_right _ (hq.removed r hr))
  · exact hq.lists g (List.mem_append_right _ hg)
  · have hmem := h.removed hdir hr
    have homits : p.Omits (itemOf r) := hcase.elim (fun hs => (hsaved hs).1 r hmem) id
    exact hq.omits r (List.mem_append_left _ (by simpa using ⟨hmem, homits⟩))
  · have hlists : p.Lists "Compile" "Include" (itemOf g) := hcase.elim (fun hs => (hsaved hs).2 g hg) id
    exact hq.lists g (List.mem_append_left _ (by simpa using ⟨hg, hlists⟩))

/-- **A migration that may have failed is resumed by a later one that ends.** Both open the same project
file, which is left alone between them. -/
theorem migrations_resumed {files : Refusing Memory} {again : Memory} (hmade : Made files.base)
    (hagain : Made again) (hdir : dir ≠ []) (hopen : Ends (openProject dir) again p t)
    (hopens : ∀ p₁ t₁, Ends (openProject dir) files p₁ t₁ → p₁.path = p.path)
    (hplain : ∀ p₁, OnFile files.base p.path p₁ → p₁.Plain) (hinfo : Passes s.project.assemblyInfo p.path) :
    (∀ registry registry' cancelled cancelled', ¬ legacyWord <:+: base (normalize p.path) →
      let first := workflowsIn s dir registry cancelled files
      let second := workflowsIn s dir registry' cancelled' again
      again.fileAt? (normalize p.path) = first.files.base.fileAt? (normalize p.path) →
      second.fault? = none → first.Tidy dir → second.Tidy dir →
      ∃ q, Resumed dir p.path files.base again p first second q ∧
        ∀ g, ClassOf s registry' dir again g → q.Lists "Compile" "Include" (itemOf g)) ∧
    ∀ cancelled cancelled', Passes s.activities.designerPattern p.path →
      Passes s.activities.filePattern p.path →
      let first := activitiesIn s dir cancelled files
      let second := activitiesIn s dir cancelled' again
      again.fileAt? (normalize p.path) = first.files.base.fileAt? (normalize p.path) →
      second.fault? = none → ∃ q, Resumed dir p.path files.base again p first second q := by
  have hm := hagain.sound
  have hfit : ∀ data p₁, files.base.fileAt? (normalize p.path) = some data →
      Project.ofBytes p.path data = .ok p₁ → p₁.Fit := fun data p₁ hdata hbytes =>
    (hplain p₁ ⟨data, hdata, hbytes⟩).fit hbytes
  have hfile : OnFile again p.path p := by
    obtain ⟨t₁, data, hfirst, hread, hbytes⟩ := openProject_iff.1 hopen
    obtain ⟨rfl, -⟩ := Files.findFirst?_ends hm hdir hfirst
    exact ⟨data, (read_iff.1 hread).2.1, hbytes⟩
  have hbetween : ∀ {first : Outcome (Refusing Memory)},
      again.fileAt? (normalize p.path) = first.files.base.fileAt? (normalize p.path) →
      OnFile first.files.base p.path p := fun heq => by
    obtain ⟨data, hdata, hbytes⟩ := hfile
    exact ⟨data, heq.symm.trans hdata, hbytes⟩
  refine ⟨fun registry registry' cancelled cancelled' hname hkept hend hfirst hsecond => ?_,
    fun cancelled cancelled' hdesigner hsource hkept hend => ?_⟩
  · obtain ⟨-, -, hproject, hlegacy⟩ := project_of_open hm hdir hopen hname
    have hleaves := leaves_workflowsIn hmade.sound hdir hopens hplain hproject hlegacy hinfo registry cancelled
    have htold : Told files.base.fileAt? dir p.path "*.xoml*" (workflowsIn s dir registry cancelled files) := by
      intro S hS hreport
      obtain ⟨hgenerated, hback⟩ := hfirst
      simp only [Outcome.Plain, hreport] at hgenerated hback
      exact tame_of_names hdir (fun g hg => ⟨(hgenerated g hg).1, (hgenerated g hg).2.1⟩)
        (fun g hg => (hgenerated g hg).2.2) (hS.isLegacy hdir hback)
    obtain ⟨q, hq⟩ := resumed_of_leaves hleaves htold hdir hfile hkept fun G R hG hR =>
      finished_workflowsIn hm hdir hopen (hleaves.fit htold hfit (hbetween hkept)) hname hinfo hend hsecond
        (fun g hg => ⟨(hG g hg).2, (hfirst.1 g (hG g hg).1).2.2⟩)
        fun r hr => ⟨(hR r hr).2, hleaves.isLegacy hdir hfirst.2 r (hR r hr).1⟩
    exact ⟨q, hq, fun g hg => hq.generated g (reported_of_classOf hm hdir hend hsecond.1 hg)⟩
  · have hleaves := leaves_activitiesIn hmade.sound hdir hopens hplain hdesigner hsource hinfo cancelled
    have hnone := reported_activitiesIn s dir cancelled files
    have htold : Told files.base.fileAt? dir p.path s.activities.designerPattern
        (activitiesIn s dir cancelled files) := by
      intro S hS hreport
      rw [hreport] at hnone
      refine ⟨?_, ?_, ?_⟩ <;> rw [hnone] <;> rintro g ⟨⟩
    refine resumed_of_leaves hleaves htold hdir hfile hkept fun G R hG hR => ?_
    obtain rfl : G = [] := List.eq_nil_iff_forall_not_mem.2 fun g hg => by
      have hmem := (hG g hg).1
      rw [hnone] at hmem
      cases hmem
    exact finished_activitiesIn hm hdir hopen (hleaves.fit htold hfit (hbetween hkept)) hdesigner hsource hinfo
      hend fun r hr => (hR r hr).2

/-! ## A project whose second designer file is locked -/

def designing : Settings := { activities := { designerPattern := "*.designer.cs" } }

/-- A project with two designer files, of which it lists the first. -/
def designed : Memory where
  table := [("/", .directory), ("/p.csproj", .file "<P><Compile Include='A.designer.cs'/></P>"),
    ("/A.designer.cs", .file []), ("/B.designer.cs", .file [])]
  writes := 3

/-- The project when the first designer file is removed. -/
def undesigned : Memory where
  table := [("/", .directory), ("/p.csproj", .file "<P><Compile Include='A.designer.cs'/></P>"),
    ("/B.designer.cs", .file [])]
  reads := 1
  writes := 3

/-- The first migration cannot remove the second designer file. -/
def firstDesigned : Outcome (Refusing Memory) :=
  activitiesIn designing "/" never { base := designed, removals := [("/B.designer.cs", "locked")] }

theorem made_designed : Made designed :=
  .write "/B.designer.cs" [] (.write "/A.designer.cs" []
    (.write "/p.csproj" "<P><Compile Include='A.designer.cs'/></P>" .empty))

theorem made_undesigned : Made undesigned := by
  have hremoved : undesigned
    = (ran (Memory.remove "/A.designer.cs") (ran (Memory.read "/p.csproj") designed).2).2 := by
    decide
  rw [hremoved]
  exact .remove _ (.read _ made_designed)

set_option maxRecDepth 20000 in
theorem firstDesigned_eq : (firstDesigned.fault?.isSome, firstDesigned.files.base) = (true, undesigned) := by
  rw [firstDesigned, designed, undesigned]
  repeat rw [Bytes.ofString_ofList]
  cbv

set_option maxRecDepth 20000 in
/-- The second migration removes the second designer file, and has nothing to save. -/
theorem activities_undesigned :
    ((activitiesIn designing "/" never undesigned).fault?.isNone,
      (activitiesIn designing "/" never undesigned).files.fileAt? "/p.csproj",
      (activitiesIn designing "/" never undesigned).files.fileAt? "/B.designer.cs") =
    (true, some ("<P><Compile Include='A.designer.cs'/></P>" : Bytes), none) := by
  rw [undesigned]
  repeat rw [Bytes.ofString_ofList]
  cbv

set_option maxRecDepth 20000 in
theorem exists_designed : ∃ p, Project.ofBytes "/p.csproj" "<P><Compile Include='A.designer.cs'/></P>" = .ok p ∧
    p.Plain ∧ p.Lists "Compile" "Include" "A.designer.cs" := by
  obtain ⟨p, hload, hroot, hflat, helements, hlists⟩ :
      ∃ p, Project.ofBytes "/p.csproj" "<P><Compile Include='A.designer.cs'/></P>" = .ok p ∧
        Xml.rootName? p.nodes = some ⟨[], "P"⟩ ∧
        Xml.areFlat (Project.isTagged Project.removable) (Project.isTagged Project.grown) p.nodes = true ∧
        Xml.breadthFirst p.nodes = [⟨⟨[], "P"⟩, []⟩, ⟨⟨[], "Compile"⟩, [⟨⟨[], "Include"⟩, "A.designer.cs"⟩]⟩] ∧
        (Xml.elementsNamed "Compile" p.nodes).any
          (fun e => e.attr? "Include" == some ("A.designer.cs" : Bytes)) = true := by
      repeat rw [Bytes.ofString_ofList]
      decide +kernel
  refine ⟨p, hload, ⟨fun name hname => ?_, hflat, ?_⟩, ?_⟩
  · obtain rfl := Option.some.inj (hroot.symm.trans hname)
    decide
  · rw [helements]
    decide
  · obtain ⟨e, he, hattr⟩ := List.any_eq_true.1 hlists
    exact ⟨e, he, by simpa using hattr⟩

theorem open_designed {m : Memory} (h : m = designed ∨ m = undesigned)
    (hload : Project.ofBytes "/p.csproj" "<P><Compile Include='A.designer.cs'/></P>" = .ok p) :
    Ends (openProject "/") m p { m with reads := m.reads + 1 } := by
  rcases h with rfl | rfl
  · exact openProject_of_table ⟨made_designed.sound, rfl, rfl, rfl⟩ (by rfl)
      (List.pairwise_singleton _ _) rfl hload
  · exact openProject_of_table ⟨made_undesigned.sound, rfl, rfl, rfl⟩ (by rfl)
      (List.pairwise_singleton _ _) rfl hload

theorem opens_behind {files t : Refusing Memory} {p₁ : Project} (hopen₁ : Ends (openProject dir) files p₁ t)
    (hopen : Ends (openProject dir) files.base p m) : p₁ = p := by
  obtain ⟨m₁, hopen₁, -⟩ := ((agree_openProject Refusing.shown dir).meets rfl).ends hopen₁
  exact (hopen₁.det hopen).1

theorem passes_designed : Passes designing.activities.designerPattern "/p.csproj" ∧ Passes [] "/p.csproj" := by
  refine ⟨passes_ending (w := ".designer.cs") (Glob.parse?_after ?_) ?_ ?_, passes_nil ?_⟩ <;> decide

/-! ## A project with two workflows, whose migration is cancelled between them -/

/-- The code-behind source of the second workflow. -/
def secondCode : Bytes := "class B\x7b\x7d"

/-- The first migration is cancelled when one workflow is left. -/
def cancelledPair : Outcome (Refusing Memory) :=
  workflowsIn oneStep "/" none beforeLast.cancelled.workflows { base := pair secondCode }

/-- It wrote the flow class of the first workflow, and did not save the project. -/
theorem cancelledPair_eq : ∃ out, Session.Given oneStep none (pair secondCode) "/A.xoml.cs" firstFlow out ∧
    cancelledPair = { sections := [⟨"workflows", "/", [generateEntry "/" "/A.xoml.cs" firstFlow out]⟩]
                      fault? := some cancelledFault
                      files := { base := halfway secondCode out.source } } := by
  obtain ⟨project, out, T, -, hgiven, hprepare, hhalt, hfiles, hentries⟩ := halts_pair secondCode
  refine ⟨out, hgiven, ?_⟩
  have hrun := workflows_error oneStep none hprepare hhalt
  have hdirectory : Ends (requireDirectory beforeLast.workflowDir) ({ base := pair secondCode } : Refusing Memory)
      () { base := pair secondCode } := rfl
  have hregistry : Ends (openRegistry beforeLast) ({ base := pair secondCode } : Refusing Memory) none
      { base := pair secondCode } := rfl
  rw [workflows_eq_in (o := beforeLast) hdirectory hregistry, hfiles, hentries] at hrun
  exact hrun

section Halfway

variable {c : Bytes}

theorem made_halfway : Made (halfway secondCode c) := by
  have hread : Made { pair secondCode with reads := 3 } :=
    .read "/p.csproj" (.read "/p.csproj" (.read "/p.csproj" (made_pair secondCode)))
  exact .write "/A.cs" c hread

theorem open_halfway (k : Nat) : Open { halfway secondCode c with reads := k } "/" :=
  ⟨made_halfway.sound.congr rfl, rfl, rfl, rfl⟩

/-- The second migration finds both workflows. -/
theorem given_halfway : (∃ out, Session.Given oneStep none (halfway secondCode c) "/A.xoml.cs" firstFlow out) ∧
    ∃ out, Session.Given oneStep none (halfway secondCode c) "/B.xoml.cs" (secondFlow secondCode) out := by
  obtain ⟨outA, ⟨-, houtA⟩, -⟩ := given_first secondCode
  obtain ⟨outB, ⟨-, houtB⟩, -⟩ := given_apart
  exact ⟨⟨outA, ⟨_, load_of_table (open_halfway 3) rfl (by decide) (by rfl) rfl⟩, houtA⟩,
    outB, ⟨_, load_of_table (open_halfway 3) rfl (by decide) (by rfl) rfl⟩, houtB⟩

/-- The second migration comes to its end, and reports both flow classes. -/
theorem workflows_halfway : (workflowsIn oneStep "/" none never (halfway secondCode c)).fault? = none ∧
    (workflowsIn oneStep "/" none never (halfway secondCode c)).reported .generate =
      [("A.cs" : Bytes), ("B.cs" : Bytes)] := by
  obtain ⟨p, hload, -⟩ := exists_project
  obtain ⟨⟨outA, hA⟩, outB, hB⟩ := given_halfway (c := c)
  have hdestA : destination firstFlow outA = "/A.cs" := by
    rw [hA.destination_eq]
    decide
  have hdestB : destination (secondFlow secondCode) outB = "/B.cs" := by
    rw [hB.destination_eq]
    decide
  have hprepare : Ends (prepareWorkflows { workflowDir := "/" }) (halfway secondCode c)
      (none, p, ["/A.xoml.cs", "/B.xoml.cs"]) { halfway secondCode c with reads := 4 } :=
    prepare_of_table (open_halfway 3) rfl (show (halfway secondCode c).filesBelow "/"
      ((".csproj" : Bytes).isSuffixOf ·) = ["/p.csproj"] from rfl) (List.pairwise_singleton _ _) rfl hload
      (by rfl) (by decide)
  have hrun := workflows_ok made_halfway.sound rfl hprepare uncancelled_never
    (List.forall_mem_cons.2 ⟨⟨_, _, hA, by rw [hdestA]; rfl, by rw [hdestA]; nofun, by rw [hdestA]; decide⟩,
      List.forall_mem_singleton.2
        ⟨_, _, hB, by rw [hdestB]; rfl, by rw [hdestB]; nofun, by rw [hdestB]; decide⟩⟩)
    (Option.isSome_of_eq_some (Glob.parse?_letters (by decide)))
  have hregistry : Ends (openRegistry { workflowDir := "/" }) (halfway secondCode c) none
    (halfway secondCode c) := rfl
  have hdirectory : Ends (requireDirectory "/") (halfway secondCode c) () (halfway secondCode c) :=
    requireDirectory_of_open (open_halfway 3)
  rw [workflows_eq_in (o := { workflowDir := "/" }) hdirectory hregistry] at hrun
  refine ⟨hrun.1, ?_⟩
  obtain ⟨g, gs, ⟨w, out, hgiven, rfl⟩, hrest, hreport⟩ := List.forall₂_cons_left_iff.1 hrun.2
  obtain ⟨g, gs, ⟨w', out', hgiven', rfl⟩, hnil, rfl⟩ := List.forall₂_cons_left_iff.1 hrest
  obtain rfl := List.forall₂_nil_left_iff.1 hnil
  obtain ⟨rfl, rfl⟩ := hA.det hgiven
  obtain ⟨rfl, rfl⟩ := hB.det hgiven'
  refine hreport.trans ?_
  rw [hdestA, hdestB]
  decide

theorem tidy_halfway : (workflowsIn oneStep "/" none never (halfway secondCode c)).Tidy "/" := by
  obtain ⟨hend, hreport⟩ := workflows_halfway (c := c)
  have hplain : (workflowsIn oneStep "/" none never (halfway secondCode c)).Plain "/" := by
    unfold Outcome.Plain
    rw [hreport]
    decide +kernel
  -- the removed files are among those that were there
  have hnames : ∀ name ∈ (halfway secondCode c).table.map Prod.fst, 0x5C ∉ base name := by
    show ∀ name ∈ [("/" : Bytes), "/p.csproj", "/A.xoml", "/A.xoml.cs", "/B.xoml", "/B.xoml.cs", "/A.cs"], _
    decide
  refine ⟨hplain, fun r hr => ?_⟩
  obtain ⟨hthere, -⟩ := removed_there made_halfway.sound (List.cons_ne_nil _ _) hend hplain r hr
  obtain ⟨text, htext⟩ := Option.isSome_iff_exists.1 hthere
  exact hnames _ (List.mem_map_of_mem (mem_of_lookup (fileAt?_eq_some.1 htext)))

end Halfway

theorem tidy_cancelledPair : cancelledPair.reported .generate = [("A.cs" : Bytes)] ∧
    cancelledPair.Tidy "/" := by
  obtain ⟨out, hgiven, hrun⟩ := cancelledPair_eq
  have hdest : destination firstFlow out = "/A.cs" := by
    rw [hgiven.destination_eq]
    decide
  have hreport : ∀ a, cancelledPair.reported a =
      if a = .generate then [shown "/" (destination firstFlow out)] else [] := by
    intro a
    rw [hrun]
    cases a <;> rfl
  have hgenerate : cancelledPair.reported .generate = [("A.cs" : Bytes)] := by
    rw [hreport, hdest]
    decide
  refine ⟨hgenerate, ?_, ?_⟩
  · unfold Outcome.Plain
    rw [hgenerate]
    decide +kernel
  · rw [hreport]
    nofun

/-- Both workflows are migrated after a run that was cancelled between them, on the files that it left, and a
designer file is removed that was locked in an earlier run. -/
theorem migrations_resumed_both :
    (∃ p q, cancelledPair.fault? = some cancelledFault ∧
      cancelledPair.reported .generate = [("A.cs" : Bytes)] ∧
      let second := workflowsIn oneStep "/" none never cancelledPair.files.base
      second.fault? = none ∧ second.reported .generate = [("A.cs" : Bytes), ("B.cs" : Bytes)] ∧
        Resumed "/" "/p.csproj" (pair secondCode) cancelledPair.files.base p cancelledPair second q) ∧
    ∃ p q, firstDesigned.fault?.isSome ∧ (activitiesIn designing "/" never undesigned).fault? = none ∧
      Resumed "/" "/p.csproj" designed undesigned p firstDesigned
        (activitiesIn designing "/" never undesigned) q := by
  have hdir : ("/" : Bytes) ≠ [] := List.cons_ne_nil _ _
  refine ⟨?_, ?_⟩
  · obtain ⟨p, hload, hplain, -⟩ := exists_project
    have hpath := Project.ofBytes_path hload
    obtain ⟨hreport, htidy⟩ := tidy_cancelledPair
    obtain ⟨out, -, hrun⟩ := cancelledPair_eq
    have hfiles : cancelledPair.files.base = halfway secondCode out.source := by rw [hrun]
    have hfault : cancelledPair.fault? = some cancelledFault := by rw [hrun]
    obtain ⟨hend, hreport'⟩ := workflows_halfway (c := out.source)
    have hopen : Ends (openProject "/") (halfway secondCode out.source) p
        { halfway secondCode out.source with reads := 4 } :=
      openProject_of_table (open_halfway 3) (show (halfway secondCode out.source).filesBelow "/"
        ((".csproj" : Bytes).isSuffixOf ·) = ["/p.csproj"] from rfl) (List.pairwise_singleton _ _) rfl hload
    have hopen₀ : Ends (openProject "/") (pair secondCode) p { pair secondCode with reads := 1 } :=
      openProject_of_table (open_pair _ 0) (by rfl) (List.pairwise_singleton _ _) rfl hload
    have hname : ¬ legacyWord <:+: base (normalize p.path) := by
      rw [hpath]
      decide
    have hinfo : Passes oneStep.project.assemblyInfo p.path := passes_nil (by rw [hpath]; decide)
    have hfile : OnFile (pair secondCode) p.path p := ⟨_, by rw [hpath]; rfl, hpath ▸ hload⟩
    obtain ⟨q, hq, -⟩ := (@migrations_resumed _ _ _ _ { base := pair secondCode } _ (made_pair secondCode)
      made_halfway hdir hopen (fun p₁ t₁ hopen₁ => by rw [opens_behind hopen₁ hopen₀])
      (fun p₁ hfile₁ => by rwa [hfile₁.det hfile]) hinfo).1 none none beforeLast.cancelled.workflows never
      hname (by rw [← hfiles]; rfl) hend htidy tidy_halfway
    refine ⟨p, q, hfault, hreport, ?_⟩
    rw [hfiles]
    exact ⟨hend, hreport', hpath ▸ hq⟩
  · obtain ⟨p, hload, hplain, -⟩ := exists_designed
    have hpath := Project.ofBytes_path hload
    have hopen := open_designed (.inr rfl) hload
    obtain ⟨hfault, hbase⟩ := Prod.mk.inj firstDesigned_eq
    obtain ⟨hend, -⟩ := Prod.mk.inj activities_undesigned
    have hend : (activitiesIn designing "/" never undesigned).fault? = none := Option.isNone_iff_eq_none.1 hend
    obtain ⟨hdesigner, hnil⟩ := passes_designed
    rw [← hpath] at hdesigner hnil
    have hfile : OnFile designed p.path p := ⟨_, by rw [hpath]; rfl, hpath ▸ hload⟩
    obtain ⟨q, hq⟩ := (@migrations_resumed designing _ _ _
      { base := designed, removals := [("/B.designer.cs", "locked")] } _ made_designed made_undesigned
      hdir hopen (fun p₁ t₁ hopen₁ => by rw [opens_behind hopen₁ (open_designed (.inl rfl) hload)])
      (fun p₁ hfile₁ => by rwa [hfile₁.det hfile]) hnil).2 never never hdesigner hnil
      (congrArg (fun m => m.fileAt? (normalize p.path)) hbase.symm) hend
    exact ⟨p, q, hfault, hend, hpath ▸ hq⟩

/-- A designer file that is deleted before a run fails stays listed, also when a second run comes to its
end: the first one did not save the project, and the second one does not find the file. -/
theorem activities_not_resumed :
    ¬ ∀ (s : Settings) (dir : Bytes) (cancelled cancelled' : List Bytes → Bool) (files : Refusing Memory)
      (again t : Memory) (p : Project), Made files.base → Made again → dir ≠ [] →
      Ends (openProject dir) again p t → p.Plain → Passes s.activities.designerPattern p.path →
      Passes s.activities.filePattern p.path → Passes s.project.assemblyInfo p.path →
      (activitiesIn s dir cancelled files).fault?.isSome →
      again.fileAt? (normalize p.path)
      = (activitiesIn s dir cancelled files).files.base.fileAt? (normalize p.path) →
      (activitiesIn s dir cancelled' again).fault? = none →
      ∃ q, OnFile (activitiesIn s dir cancelled' again).files p.path q ∧
        ∀ r, Gone dir files.base.fileAt? (activitiesIn s dir cancelled files).files.base.fileAt? r →
          q.Omits (itemOf r) := by
  intro hall
  obtain ⟨p, hload, hplain, hlists⟩ := exists_designed
  have hpath := Project.ofBytes_path hload
  obtain ⟨hfault, hbase⟩ := Prod.mk.inj firstDesigned_eq
  obtain ⟨hend, hproject⟩ := Prod.mk.inj activities_undesigned
  obtain ⟨hproject, -⟩ := Prod.mk.inj hproject
  obtain ⟨hdesigner, hnil⟩ := passes_designed
  rw [← hpath] at hdesigner hnil
  obtain ⟨q, hfile, homits⟩ := hall designing "/" never never
    { base := designed, removals := [("/B.designer.cs", "locked")] } undesigned _ p made_designed
    made_undesigned (List.cons_ne_nil _ _) (open_designed (.inr rfl) hload) hplain hdesigner hnil hnil hfault
    (congrArg (fun m => m.fileAt? (normalize p.path)) hbase.symm)
    (Option.isNone_iff_eq_none.1 hend)
  have hkept : OnFile (activitiesIn designing "/" never undesigned).files p.path p :=
    ⟨_, by rw [hpath]; exact hproject, hpath ▸ hload⟩
  obtain rfl := hfile.det hkept
  refine homits "A.designer.cs" ⟨["A.designer.cs"], ?_, rfl, by decide, ?_⟩ "Compile" (.inl rfl) ?_
  · refine List.forall_mem_singleton.2 ?_
    refine ⟨?_, ?_, ?_, ?_⟩ <;> decide
  · show firstDesigned.files.base.fileAt? _ = none
    rw [hbase]
    decide
  · have hitem : itemOf "A.designer.cs" = "A.designer.cs" := by decide
    rwa [hitem]

end Run

end Flowsmith
