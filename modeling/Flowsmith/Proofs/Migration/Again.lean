import Flowsmith.Proofs.Files.Tree
import Flowsmith.Proofs.Migration.Cleanup
import Flowsmith.Proofs.Migration.Listing
import Flowsmith.Proofs.Migration.Migrator
import Flowsmith.Proofs.Migration.Success
import Flowsmith.Proofs.Project.Edited

/-!
# Migrating again

A migration that ends leaves nothing for a second one to do: the files to remove are gone, the project
file holds what was removed from the project, and a source that its own edits leave as it is is not
written. A second migration reads the same files and changes none.

* `Session.Tracked` : a session since its project was loaded, as far as it matters to a second one;
* `Tracked.removeFiles`, `Tracked.migrateUnits`, `Tracked.migrateSources` : the steps keep it;
* `Session.Left`, `Tracked.left` : what a migration leaves for a second one to find;
* `Session.migrateWorkflows_idle`, `Session.migrateActivities_idle` : migrations with nothing to do;
* `Run.migrations_again` : a second migration changes nothing.
-/

namespace Flowsmith

open Flowsmith.Path Memory

namespace Session

/-! ## The first migration -/

/-- A session since the project `p₀` was loaded from the files `m₀`: the project is edited, its file is as
it was, and there are no other project files than before. -/
structure Tracked (dir : Bytes) (m₀ : Memory) (p₀ : Project) (S : Session Memory) : Prop where
  sound : Sound S.files
  refused : S.files.refused = m₀.refused
  root : S.root = dir
  edited : Project.Edited p₀ S.project
  file : S.files.fileAt? (normalize p₀.path) = m₀.fileAt? (normalize p₀.path)
  projects : ∀ q, (".csproj" : Bytes) <:+ base q → (∃ c, S.files.fileAt? q = some c) →
    ∃ c, m₀.fileAt? q = some c

variable {s : Settings} {registry : Option Registry} {dir pattern : Bytes} {m₀ : Memory} {p₀ : Project}
  {S S' T : Session Memory} {u : Unit}

/-- What is found for a pattern is another file than the one that the pattern passes over. -/
theorem normalize_ne_of_find {m t : Memory} {path : Bytes} {found : List Bytes} (hm : Sound m)
    (hdir : dir ≠ []) (hpass : Passes pattern path) (h : Ends (Files.find dir pattern) m found t) :
    ∀ q ∈ found, normalize q ≠ normalize path := by
  obtain ⟨ps, hps, hfound⟩ := LawfulStore.found_of_find hm hdir h
  exact fun q hq => normalize_ne_of_passes hdir hpass hps (hfound q hq)

theorem editFile_tree {path : Bytes} {edit : Bytes → Except Fault Bytes} (hS : Sound S.files)
    (hend : Ends (editFile path edit) S u S') :
    Sound S'.files ∧ SameTree S.files S'.files ∧ S.files.refusal? (normalize path) = none ∧
      ∀ q, q ≠ normalize path → S'.files.fileAt? q = S.files.fileAt? q := by
  obtain ⟨text, edited, t, hread, -, hwritten⟩ := editFile_iff.1 hend
  obtain ⟨rfl, hfile, hrefusal⟩ := read_iff.1 hread
  have hcount : Same S.files { S.files with reads := S.files.reads + 1 } := ⟨rfl, rfl⟩
  have hsound : Sound { S.files with reads := S.files.reads + 1 } := hS.congr rfl
  rcases hwritten with ⟨-, rfl⟩ | ⟨-, t', hwrite, rfl⟩
  · exact ⟨hsound, .of_same hcount, hrefusal, fun _ _ => rfl⟩
  · obtain ⟨hsound', -, hfiles⟩ := write_ends hsound hwrite
    exact ⟨hsound', (SameTree.of_same hcount).trans (sameTree_write hsound hfile hwrite), hrefusal,
      fun q hq => (hfiles q).trans (if_neg hq)⟩

namespace Tracked

/-- Files other than the project file may change, and files that are no project files may come. -/
theorem files {t : Memory} (h : Tracked dir m₀ p₀ S) (ht : Sound t)
    (hrefused : t.refused = S.files.refused)
    (hfile : t.fileAt? (normalize p₀.path) = S.files.fileAt? (normalize p₀.path))
    (hprojects : ∀ q, (".csproj" : Bytes) <:+ base q → (∃ c, t.fileAt? q = some c) →
      ∃ c, S.files.fileAt? q = some c) : Tracked dir m₀ p₀ { S with files := t } where
  sound := ht
  refused := hrefused.trans h.refused
  root := h.root
  edited := h.edited
  file := hfile.trans h.file
  projects q hq hthere := h.projects q hq (hprojects q hq hthere)

theorem removeFiles (h : Tracked dir m₀ p₀ S) (hdir : dir ≠ []) (hpass : Passes pattern p₀.path)
    (hend : Ends (removeFiles pattern) S u S') :
    Tracked dir m₀ p₀ S' ∧ ∃ ps, Glob.parse? pattern = some ps ∧
      ∀ names, ¬ Files.Hit S'.files ps dir names := by
  obtain ⟨found, t, hfind, -⟩ := removeFiles_iff.1 hend
  rw [h.root] at hfind
  have hproject := normalize_ne_of_find h.sound hdir hpass hfind
  have hne : S.root ≠ [] := by rwa [h.root]
  obtain ⟨found', ps, hps, hfound, hgone⟩ := removeFiles_removed h.sound hne hend
  rw [h.root] at hfound
  obtain ⟨-, ps', hps', hfound'⟩ := Files.find_ends h.sound hdir hfind
  obtain rfl := Option.some.inj (hps.symm.trans hps')
  obtain ⟨items, -, hitems⟩ := hgone.project
  refine ⟨⟨hgone.sound, hgone.refused.trans h.refused, hgone.root.trans h.root, ?_, ?_, ?_⟩,
    ps, hps, ?_⟩
  · rw [hitems]
    exact h.edited.withoutItems items
  · rw [hgone.files, if_neg, h.file]
    intro hmem
    obtain ⟨q, hq, heq⟩ := List.mem_map.1 hmem
    exact hproject q ((hfound' q).2 ((hfound q).1 hq)) heq
  · rintro q hq ⟨c, hc⟩
    rw [hgone.files] at hc
    split at hc
    · cases hc
    · exact h.projects q hq ⟨c, hc⟩
  · rintro names ⟨hnames, ⟨c, hc⟩, hlast⟩
    rw [hgone.files] at hc
    split at hc
    · cases hc
    · rename_i hmem
      have hpath := (hfound _).2 ⟨names, ⟨hnames, ⟨c, hc⟩, hlast⟩, rfl⟩
      exact hmem (List.mem_map.2 ⟨_, hpath, Files.normalize_names hdir hnames⟩)

theorem editFile (h : Tracked dir m₀ p₀ S) {path : Bytes} {edit : Bytes → Except Fault Bytes}
    (hpath : normalize path ≠ normalize p₀.path) (hend : Ends (editFile path edit) S u S') :
    Tracked dir m₀ p₀ S' := by
  obtain ⟨hsound, htree, -, hfiles⟩ := editFile_tree h.sound hend
  obtain ⟨hroot, hproject⟩ := editFile_frame hend
  exact ⟨hsound, htree.refused.trans h.refused, hroot.trans h.root, hproject ▸ h.edited,
    (hfiles _ (Ne.symm hpath)).trans h.file,
    fun q hq hthere => h.projects q hq ((htree.exists_file_iff q).1 hthere)⟩

theorem migrateSources (h : Tracked dir m₀ p₀ S) {cancelled : List Bytes → Bool} {paths : List Bytes}
    (hpaths : ∀ path ∈ paths, normalize path ≠ normalize p₀.path)
    (hend : Ends (migrateSources s cancelled paths) S u S') :
    Tracked dir m₀ p₀ S' ∧ SameTree S.files S'.files ∧ Uncancelled cancelled paths ∧
      ∀ path ∈ paths, S.files.refusal? (normalize path) = none := by
  induction paths generalizing S with
  | nil =>
    obtain ⟨-, rfl⟩ := Ends.pure_iff.1 hend
    exact ⟨h, .refl _, fun left hne hleft => absurd (List.suffix_nil.1 hleft) hne, nofun⟩
  | cons path paths ih =>
    simp only [Session.migrateSources, Ends.bind_iff, checkpoint_iff] at hend
    obtain ⟨_, _, ⟨hc, rfl⟩, _, T, hedit, hrest⟩ := hend
    obtain ⟨-, htree, hrefusal, -⟩ := editFile_tree h.sound hedit
    obtain ⟨hS', htree', hgoes, hrefusals⟩ :=
      ih (h.editFile (hpaths path List.mem_cons_self) hedit)
      (fun q hq => hpaths q (List.mem_cons_of_mem _ hq)) hrest
    refine ⟨hS', htree.trans htree', hgoes.cons hc, fun q hq => ?_⟩
    rcases List.mem_cons.1 hq with rfl | hq
    · exact hrefusal
    · rw [← htree.refusal?]
      exact hrefusals q hq

/-- Flow classes that are written are no project files. -/
theorem migrateUnits (h : Tracked dir m₀ p₀ S) (hname : (".csproj" : Bytes) <:+ base (normalize p₀.path))
    {cancelled : List Bytes → Bool} {units : List Bytes}
    (hend : Ends (migrateUnits s registry cancelled units) S u S') :
    Tracked dir m₀ p₀ S' := by
  induction units generalizing S with
  | nil =>
    obtain ⟨-, rfl⟩ := Ends.pure_iff.1 hend
    exact h
  | cons path units ih =>
    obtain ⟨-, T, hfirst, hrest⟩ := migrateUnits_cons_iff.1 hend
    refine ih ?_ hrest
    obtain ⟨w, out, t, t', item, hload, -, hwrite, -, rfl⟩ := migrateWorkflow_iff.1 hfirst
    have hquiet := (Workflow.keeps_load (quiet_same _) s registry path).ends (.refl S.files) hload
    obtain ⟨hsound, hrefused, hfiles⟩ := write_ends (h.sound.congr hquiet.table) hwrite
    rw [hquiet.refused] at hrefused
    rw [hquiet.fileAt?] at hfiles
    have hother : ∀ q, (".csproj" : Bytes) <:+ base q → q ≠ normalize (destination w out) := by
      obtain ⟨init, n, hn, hsuffix, hdest⟩ := normalize_destination hload out
      rintro q hq rfl
      rw [hdest, base_key init (hn n (by simp))] at hq
      exact absurd (List.suffix_of_suffix_length_le hsuffix hq (by decide)) (by decide)
    have hkept := h.files hsound hrefused (by rw [hfiles, if_neg (hother _ hname)]) fun q hq hthere => by
      rwa [hfiles, if_neg (hother q hq)] at hthere
    exact ⟨hkept.sound, hkept.refused, hkept.root, h.edited.addCompile, hkept.file, hkept.projects⟩

end Tracked

/-! ## What a migration leaves -/

/-- What a migration leaves for a second one to find: the project, without references to remove, and the
assembly information. -/
structure Left (o : Settings.Project) (dir : Bytes) (m : Memory) : Prop where
  sound : Sound m
  listable : m.Listable dir
  project : ∃ p, Ends (Run.openProject dir) m p { m with reads := m.reads + 1 } ∧
    p.modified = false ∧ stripped o p = p
  info : ∃ found, Ends (Files.findFirst? dir o.assemblyInfo) m found m ∧
    ∀ path, found = some path → m.refusal? (normalize path) = none

theorem isTarget_stripped {o : Settings.Project} {p : Project} {e : Xml.Element}
    (he : e ∈ Xml.breadthFirst (stripped o p).nodes) :
    Project.isTarget "Reference" "Include" o.legacyReferences.contains e = false ∧
      Project.isTarget "Import" "Project" (· == o.workflowTargets) e = false :=
  ⟨Project.isTarget_removeWhere (Xml.mem_pruneAll he).1, Project.isTarget_removeWhere he⟩

theorem stripped_eq_self {o : Settings.Project} {p : Project}
    (href : ∀ e ∈ Xml.breadthFirst p.nodes,
      Project.isTarget "Reference" "Include" o.legacyReferences.contains e = false)
    (himport : ∀ e ∈ Xml.breadthFirst p.nodes,
      Project.isTarget "Import" "Project" (· == o.workflowTargets) e = false) : stripped o p = p := by
  unfold stripped Project.removeReferences Project.removeImport
  rw [Project.removeWhere_eq_self href, Project.removeWhere_eq_self himport]

theorem saveProject_tree {detail data : Bytes} (hS : Sound S.files)
    (hthere : S.files.fileAt? (normalize S.project.path) = some data)
    (hend : Ends (saveProject detail) S u S') :
    SameTree S.files S'.files ∧ S'.files.fileAt? (normalize S.project.path) =
      some (if S.project.modified then S.project.toBytes else data) := by
  obtain ⟨-, -, hfiles⟩ := saveProject_files hS hend
  refine ⟨?_, ?_⟩
  · rcases saveProject_iff.1 hend with ⟨-, rfl⟩ | ⟨-, t, hwrite, rfl⟩
    · exact .refl _
    · exact sameTree_write hS hthere hwrite
  · rw [hfiles, hthere]
    cases S.project.modified <;> simp

theorem listable_of_findFirst? {m t : Memory} {found : Option Bytes} (hm : Sound m) (hdir : dir ≠ [])
    (h : Ends (Files.findFirst? dir pattern) m found t) : m.Listable dir := by
  obtain ⟨paths, t', hpaths, -⟩ := Ends.bind_iff.1 h
  obtain ⟨rfl, -⟩ := Files.find_ends hm hdir hpaths
  exact ((Files.find_ok_iff hm hdir).1 ⟨paths, hpaths⟩).2

/-- The first file found for a pattern is another one than the pattern passes over. -/
theorem normalize_ne_of_findFirst? {m t : Memory} {path q : Bytes} (hm : Sound m) (hdir : dir ≠ [])
    (hpass : Passes pattern path) (h : Ends (Files.findFirst? dir pattern) m (some q) t) :
    normalize q ≠ normalize path := by
  obtain ⟨paths, t', hpaths, hhead⟩ := Ends.bind_iff.1 h
  obtain ⟨hfirst, -⟩ := Ends.pure_iff.1 hhead
  exact normalize_ne_of_find hm hdir hpass hpaths q (List.mem_of_head? hfirst)

/-- The project is found again where the tree is the same, as its file is now. -/
theorem Tracked.reopen (h : Tracked dir m₀ p₀ S) (hm₀ : Sound m₀) (hdir : dir ≠ []) {t₀ : Memory}
    (hopen : Ends (Run.openProject dir) m₀ p₀ t₀) {m : Memory} (hm : Sound m)
    (htree : SameTree S.files m) (hlist : m.Listable dir) {data : Bytes} {p : Project}
    (hdata : m.fileAt? (normalize p₀.path) = some data)
    (hbytes : Project.ofBytes p₀.path data = .ok p) :
    Ends (Run.openProject dir) m p { m with reads := m.reads + 1 } := by
  obtain ⟨t₁, data₀, hfirst, hread, -⟩ := Run.openProject_iff.1 hopen
  obtain ⟨rfl, -⟩ := Files.findFirst?_ends hm₀ hdir hfirst
  obtain ⟨-, -, hrefusal⟩ := read_iff.1 hread
  have hpath := Project.ofBytes_path hbytes
  have hrefusal' : m.refusal? (normalize p₀.path) = none := by
    rw [htree.refusal?, refusal?, h.refused]
    exact hrefusal
  have hfound : Ends (Files.findFirst? dir "*.csproj") m (some p₀.path) m := by
    refine Files.findFirst?_of_fewer hm₀ hm hdir hfirst hlist ⟨data, hdata⟩ ?_
    rintro ps names hps ⟨hnames, hfile, above, n, rfl, hmatch⟩
    refine ⟨hnames, h.projects _ ?_ ((htree.exists_file_iff _).1 hfile), above, n, rfl, hmatch⟩
    obtain rfl := Option.some.inj (hps.symm.trans Run.parse?_project)
    rw [Files.base_key_names hnames]
    exact (Glob.matchesName_after_iff _ (hnames n (by simp)).no_slash).1 hmatch
  rw [← hpath] at hfound hdata hrefusal' hbytes
  exact Run.openProject_iff.2 ⟨m, data, hfound, read_iff.2 ⟨rfl, hdata, hrefusal'⟩, hbytes⟩

/-- Removing the references at the end leaves the project, and only writes over files. -/
theorem Tracked.left {o : Settings.Project} (h : Tracked dir m₀ p₀ S) (hm₀ : Sound m₀) (hdir : dir ≠ [])
    {t₀ : Memory} (hopen : Ends (Run.openProject dir) m₀ p₀ t₀) (hpass : Passes o.assemblyInfo p₀.path)
    (hend : Ends (dropLegacyReferences o) S u S') :
    Left o dir S'.files ∧ SameTree S.files S'.files := by
  obtain ⟨t₁, data, hfirst, hread, hbytes⟩ := Run.openProject_iff.1 hopen
  obtain ⟨rfl, -⟩ := Files.findFirst?_ends hm₀ hdir hfirst
  obtain ⟨-, hdata, -⟩ := read_iff.1 hread
  have hthere : S.files.fileAt? (normalize p₀.path) = some data := h.file.trans hdata
  obtain ⟨T, info, t, hsave, hfind, hlast⟩ := dropLegacyReferences_iff.1 hend
  have hedited : Project.Edited p₀ (stripped o S.project) :=
    (h.edited.removeWhere (by decide)).removeWhere (by decide)
  have hbegin : Sound ({ S with project := stripped o S.project } : Session Memory).files := h.sound
  obtain ⟨hT, hroot, -⟩ := saveProject_files hbegin hsave
  obtain ⟨htree, hfile⟩ := saveProject_tree hbegin (by rw [hedited.path]; exact hthere) hsave
  replace htree : SameTree S.files T.files := htree
  rw [show T.root = dir from hroot.trans h.root] at hfind
  rw [hedited.path] at hfile
  obtain ⟨rfl, -⟩ := Files.findFirst?_ends hT hdir hfind
  -- the assembly information is not the project file
  have hafter : Sound S'.files ∧ SameTree T.files S'.files ∧
      (∀ path, info = some path → T.files.refusal? (normalize path) = none) ∧
      S'.files.fileAt? (normalize p₀.path) = T.files.fileAt? (normalize p₀.path) := by
    cases info with
    | none =>
      obtain rfl := hlast
      exact ⟨hT, .refl _, nofun, rfl⟩
    | some path =>
      obtain ⟨hsound, htree', hrefusal, hfiles⟩ :=
        editFile_tree (S := { T with files := T.files }) hT hlast
      refine ⟨hsound, htree', fun path' hpath' => ?_, hfiles _ ?_⟩
      · cases hpath'
        exact hrefusal
      · exact Ne.symm (normalize_ne_of_findFirst? hT hdir hpass hfind)
  obtain ⟨hS', htree', hreadable, hkept⟩ := hafter
  have hlist := htree'.listable (listable_of_findFirst? hT hdir hfind)
  obtain ⟨p, hreload, hunmodified, hclean⟩ := hedited.reload hbytes
  refine ⟨⟨hS', hlist, ⟨p, h.reopen hm₀ hdir hopen hS' (htree.trans htree') hlist
    (hkept.trans hfile) hreload, hunmodified, ?_⟩, info, htree'.findFirst? hT hS' hdir hfind,
    fun path hpath => ?_⟩, htree.trans htree'⟩
  · exact stripped_eq_self
      (hclean _ (by decide) (by decide) _ _ fun e he => (isTarget_stripped he).1)
      (hclean _ (by decide) (by decide) _ _ fun e he => (isTarget_stripped he).2)
  · rw [htree'.refusal?]
    exact hreadable path hpath

/-! ## The second migration -/

theorem editFile_idle {path text : Bytes} {edit : Bytes → Except Fault Bytes}
    (hfile : S.files.fileAt? (normalize path) = some text)
    (hrefusal : S.files.refusal? (normalize path) = none) (hedit : edit text = .ok text) :
    Ends (editFile path edit) S () { S with files := { S.files with reads := S.files.reads + 1 } } :=
  editFile_iff.2 ⟨text, text, _, read_iff.2 ⟨rfl, hfile, hrefusal⟩, hedit, .inl ⟨rfl, rfl⟩⟩

theorem migrateSources_idle {cancelled : List Bytes → Bool} {paths : List Bytes}
    (hgoes : Uncancelled cancelled paths)
    (hpaths : ∀ path ∈ paths, S.files.refusal? (normalize path) = none ∧
      ∃ text, S.files.fileAt? (normalize path) = some text ∧
        Activity.migrate s.activities.usings s.types.executionContext text = .ok text) :
    ∃ k, Ends (migrateSources s cancelled paths) S () { S with files := { S.files with reads := k } } := by
  induction paths generalizing S with
  | nil => exact ⟨S.files.reads, Ends.pure_iff.2 ⟨rfl, rfl⟩⟩
  | cons path paths ih =>
    obtain ⟨hrefusal, text, hfile, hfixed⟩ := hpaths path List.mem_cons_self
    obtain ⟨k, hrest⟩ := ih (S := { S with files := { S.files with reads := S.files.reads + 1 } })
      hgoes.tail fun q hq => hpaths q (List.mem_cons_of_mem _ hq)
    refine ⟨k, ?_⟩
    unfold Session.migrateSources
    exact Ends.bind_iff.2 ⟨(), S, checkpoint_iff.2 ⟨hgoes _ (List.cons_ne_nil _ _) List.suffix_rfl, rfl⟩,
      Ends.bind_iff.2 ⟨(), _, editFile_idle hfile hrefusal hfixed, hrest⟩⟩

/-- Where there is nothing to remove and the assembly information is as it should be, it is only read. -/
theorem dropLegacyReferences_idle {o : Settings.Project} {info : Option Bytes}
    (hmodified : S.project.modified = false) (hstripped : stripped o S.project = S.project)
    (hfind : Ends (Files.findFirst? S.root o.assemblyInfo) S.files info S.files)
    (hinfo : ∀ path, info = some path → S.files.refusal? (normalize path) = none ∧
      ∃ text, S.files.fileAt? (normalize path) = some text ∧ Activity.stripWorkflowUsings text = text) :
    ∃ k, Ends (dropLegacyReferences o) S () { S with files := { S.files with reads := k } } := by
  have hsave : Ends (saveProject (strippedDetail o S.project)) { S with project := stripped o S.project }
      () S := by
    rw [hstripped]
    exact saveProject_iff.2 (.inl ⟨hmodified, rfl⟩)
  cases info with
  | none => exact ⟨S.files.reads, dropLegacyReferences_iff.2 ⟨S, none, S.files, hsave, hfind, rfl⟩⟩
  | some path =>
    obtain ⟨hrefusal, text, hfile, hfixed⟩ := hinfo path rfl
    exact ⟨_, dropLegacyReferences_iff.2 ⟨S, some path, S.files, hsave, hfind,
      editFile_idle hfile hrefusal (congrArg Except.ok hfixed)⟩⟩

/-- A migration of activities is idle where no designer file is found and nothing is to be edited. -/
theorem migrateActivities_idle (s : Settings) (cancelled : List Bytes → Bool) {paths : List Bytes}
    {info : Option Bytes}
    (hdesigner : Ends (Files.find S.root s.activities.designerPattern) S.files [] S.files)
    (hfind : Ends (Files.find S.root s.activities.filePattern) S.files paths S.files)
    (hgoes : Uncancelled cancelled paths)
    (hpaths : ∀ path ∈ paths, S.files.refusal? (normalize path) = none ∧
      ∃ text, S.files.fileAt? (normalize path) = some text ∧
        Activity.migrate s.activities.usings s.types.executionContext text = .ok text)
    (hmodified : S.project.modified = false) (hstripped : stripped s.project S.project = S.project)
    (hinfofind : ∀ k, Ends (Files.findFirst? S.root s.project.assemblyInfo) { S.files with reads := k }
      info { S.files with reads := k })
    (hinfo : ∀ path, info = some path → S.files.refusal? (normalize path) = none ∧
      ∃ text, S.files.fileAt? (normalize path) = some text ∧ Activity.stripWorkflowUsings text = text) :
    ∃ k, Ends (migrateActivities s cancelled) S () { S with files := { S.files with reads := k } } := by
  obtain ⟨k, hmigrate⟩ := migrateSources_idle hgoes hpaths
  obtain ⟨k', hdrop⟩ := dropLegacyReferences_idle
    (S := { S with files := { S.files with reads := k } }) hmodified hstripped (hinfofind k) hinfo
  exact ⟨k', migrateActivities_iff.2 ⟨S, paths, S.files, _,
    removeFiles_iff.2 ⟨[], S.files, hdesigner, rfl⟩, hfind, hmigrate, hdrop⟩⟩

/-- A migration of workflows is idle where there are none and no legacy file is found. -/
theorem migrateWorkflows_idle (s : Settings) (registry : Option Registry) (cancelled : List Bytes → Bool)
    {info : Option Bytes}
    (hlegacy : Ends (Files.find S.root "*.xoml*") S.files [] S.files)
    (hmodified : S.project.modified = false) (hstripped : stripped s.project S.project = S.project)
    (hinfofind : Ends (Files.findFirst? S.root s.project.assemblyInfo) S.files info S.files)
    (hinfo : ∀ path, info = some path → S.files.refusal? (normalize path) = none ∧
      ∃ text, S.files.fileAt? (normalize path) = some text ∧ Activity.stripWorkflowUsings text = text) :
    ∃ k, Ends (migrateWorkflows s registry cancelled []) S ()
      { S with files := { S.files with reads := k } } := by
  obtain ⟨k, hdrop⟩ := dropLegacyReferences_idle hmodified hstripped hinfofind hinfo
  exact ⟨k, migrateWorkflows_iff.2 ⟨S, S, rfl, removeFiles_iff.2 ⟨[], S.files, hlegacy, rfl⟩, hdrop⟩⟩

end Session

namespace Run

variable {s : Settings} {dir name : Bytes} {registry : Option Registry} {m : Memory}

/-! ## Files that need no edit -/

/-- The edits of activities leave every activity below the directory as it is. -/
def SourcesSettled (s : Settings) (dir : Bytes) (m : Memory) : Prop :=
  ∀ found t, Ends (Files.find dir s.activities.filePattern) m found t → ∀ path ∈ found,
    ∀ text, m.fileAt? (normalize path) = some text →
      Activity.migrate s.activities.usings s.types.executionContext text = .ok text

/-- The assembly information below the directory has no usings to remove. -/
def InfoSettled (s : Settings) (dir : Bytes) (m : Memory) : Prop :=
  ∀ path t, Ends (Files.findFirst? dir s.project.assemblyInfo) m (some path) t →
    ∀ text, m.fileAt? (normalize path) = some text → Activity.stripWorkflowUsings text = text

/-- A migration that has nothing to report, and leaves every file as it was. -/
structure Idle (name dir : Bytes) (m : Memory) (out : Outcome Memory) : Prop where
  fault : out.fault? = none
  sections : out.sections = [⟨name, dir, []⟩]
  files : out.files.table = m.table

/-- What is found for assembly information that is settled can be left. -/
theorem InfoSettled.fixed (h : InfoSettled s dir m) (hm : Sound m) (hdir : dir ≠ []) {info : Option Bytes}
    (hfind : Ends (Files.findFirst? dir s.project.assemblyInfo) m info m)
    (hrefusal : ∀ path, info = some path → m.refusal? (normalize path) = none) :
    ∀ path, info = some path → m.refusal? (normalize path) = none ∧
      ∃ text, m.fileAt? (normalize path) = some text ∧ Activity.stripWorkflowUsings text = text := by
  rintro path rfl
  obtain ⟨-, hfound⟩ := Files.findFirst?_ends hm hdir hfind
  obtain ⟨ps, names, -, ⟨hnames, ⟨text, htext⟩, -⟩, rfl⟩ := hfound path rfl
  rw [← Files.normalize_names hdir hnames] at htext
  exact ⟨hrefusal _ rfl, text, htext, h _ m hfind text htext⟩

section Again

variable {t : Memory} {p : Project} {cancelled : List Bytes → Bool}

theorem tracked_of_open (hm : Sound m) (hopen : Ends (openProject dir) m p t) (hstorable : p.Storable) :
    Session.Tracked dir m p { files := t, root := dir, project := p } := by
  have hsame := (keeps_openProject (quiet_same m) dir).ends (.refl m) hopen
  refine ⟨hm.congr hsame.table, hsame.refused, rfl, .refl hstorable, ?_, fun q _ hthere => ?_⟩
  · rw [hsame.fileAt?]
  · rwa [hsame.fileAt?] at hthere

/-- A migration of activities leaves its project and its sources, and no designer file. -/
theorem activities_left (hm : Sound m) (hdir : dir ≠ []) (hopen : Ends (openProject dir) m p t)
    (hstorable : p.Storable) (hdesigner : Session.Passes s.activities.designerPattern p.path)
    (hsource : Session.Passes s.activities.filePattern p.path)
    (hinfo : Session.Passes s.project.assemblyInfo p.path)
    (hend : (activitiesIn s dir cancelled m).fault? = none) :
    Session.Left s.project dir (activitiesIn s dir cancelled m).files ∧
      (∃ ps, Glob.parse? s.activities.designerPattern = some ps ∧
        ∀ names, ¬ Files.Hit (activitiesIn s dir cancelled m).files ps dir names) ∧
      ∃ paths, Ends (Files.find dir s.activities.filePattern) (activitiesIn s dir cancelled m).files paths
          (activitiesIn s dir cancelled m).files ∧
        Session.Uncancelled cancelled paths ∧
        ∀ path ∈ paths, (activitiesIn s dir cancelled m).files.refusal? (normalize path) = none := by
  obtain ⟨p', t', S', hopen', hmigrate, heq⟩ := exists_activitiesIn hend
  obtain ⟨rfl, rfl⟩ := hopen.det hopen'
  rw [heq]
  obtain ⟨S₁, paths, t₁, S₂, hremove, hfind, hedit, hdrop⟩ := Session.migrateActivities_iff.1 hmigrate
  obtain ⟨h₁, ps, hps, hgone⟩ := (tracked_of_open hm hopen hstorable).removeFiles hdir hdesigner hremove
  rw [h₁.root] at hfind
  obtain ⟨rfl, -⟩ := Files.find_ends h₁.sound hdir hfind
  obtain ⟨h₂, htree, hnone, hrefusals⟩ := h₁.migrateSources
    (Session.normalize_ne_of_find h₁.sound hdir hsource hfind) hedit
  obtain ⟨hleft, htree'⟩ := h₂.left hm hdir hopen hinfo hdrop
  have hall := htree.trans htree'
  refine ⟨hleft, ⟨ps, hps, fun names hhit => hgone names (hall.hit_iff.1 hhit)⟩, paths,
    hall.find h₁.sound hleft.sound hdir hfind, hnone, fun path hpath => ?_⟩
  exact (hall.refusal? _).trans (hrefusals path hpath)

/-- A migration of workflows leaves its project, and no legacy file. -/
theorem workflows_left (hm : Sound m) (hdir : dir ≠ []) (hopen : Ends (openProject dir) m p t)
    (hstorable : p.Storable) (hname : ¬ legacyWord <:+: base (normalize p.path))
    (hinfo : Session.Passes s.project.assemblyInfo p.path)
    (hend : (workflowsIn s dir registry cancelled m).fault? = none) :
    Session.Left s.project dir (workflowsIn s dir registry cancelled m).files ∧
      ∀ names, ¬ Files.Hit (workflowsIn s dir registry cancelled m).files
        (.star :: (legacyWord.map .byte ++ [.star])) dir names := by
  obtain ⟨p', units, t', S', hopen', hmigrate, heq⟩ := exists_workflowsIn hend
  obtain ⟨t₁, hopen', hunits⟩ := openWorkflows_iff.1 hopen'
  obtain ⟨rfl, rfl⟩ := hopen.det hopen'
  rw [heq]
  obtain ⟨S₁, S₂, hwrite, hremove, hdrop⟩ := Session.migrateWorkflows_iff.1 hmigrate
  have hbegin := tracked_of_open hm hopen hstorable
  obtain ⟨rfl, -⟩ := Files.find_ends hbegin.sound hdir hunits
  obtain ⟨-, -, hproject, hlegacy⟩ := project_of_open hm hdir hopen hname
  obtain ⟨h₂, ps, hps, hgone⟩ := (hbegin.migrateUnits hproject hwrite).removeFiles hdir hlegacy hremove
  obtain ⟨hleft, htree⟩ := h₂.left hm hdir hopen hinfo hdrop
  obtain rfl := Option.some.inj (hps.symm.trans parse?_legacy)
  exact ⟨hleft, fun names hhit => hgone names (htree.hit_iff.1 hhit)⟩

/-- Where a migration of activities left everything, another one is idle. -/
theorem activities_idle {ps : List Glob.Part} {paths : List Bytes} (hdir : dir ≠ [])
    (hleft : Session.Left s.project dir m) (hps : Glob.parse? s.activities.designerPattern = some ps)
    (hgone : ∀ names, ¬ Files.Hit m ps dir names)
    (hfind : Ends (Files.find dir s.activities.filePattern) m paths m)
    (hgoes : Session.Uncancelled cancelled paths)
    (hrefusals : ∀ path ∈ paths, m.refusal? (normalize path) = none)
    (hsources : SourcesSettled s dir m) (hsettled : InfoSettled s dir m) :
    Idle "activities" dir m (activitiesIn s dir cancelled m) := by
  obtain ⟨hsound, hlist, ⟨q, hopen, hmodified, hstripped⟩, info, hinfofind, hreadable⟩ := hleft
  -- opening the project is only counted
  have hcount : ∀ k, SameTree m { m with reads := k } := fun k => .of_same ⟨rfl, rfl⟩
  have hsound' : ∀ k, Sound { m with reads := k } := fun k => hsound.congr rfl
  have hfixed : ∀ path ∈ paths, m.refusal? (normalize path) = none ∧
      ∃ text, m.fileAt? (normalize path) = some text ∧
        Activity.migrate s.activities.usings s.types.executionContext text = .ok text := by
    intro path hpath
    obtain ⟨-, ps', -, hmem⟩ := Files.find_ends hsound hdir hfind
    obtain ⟨names, ⟨hnames, ⟨text, htext⟩, -⟩, rfl⟩ := (hmem path).1 hpath
    rw [← Files.normalize_names hdir hnames] at htext
    exact ⟨hrefusals _ hpath, text, htext, hsources _ _ hfind _ hpath text htext⟩
  obtain ⟨k, hidle⟩ := Session.migrateActivities_idle s cancelled
    (S := { files := { m with reads := m.reads + 1 }, root := dir, project := q })
    (Files.find_nothing (hsound' _) hdir hps ((hcount _).listable hlist) fun names hhit =>
      hgone names ((hcount _).hit_iff.1 hhit))
    ((hcount _).find hsound (hsound' _) hdir hfind) hgoes hfixed hmodified hstripped
    (fun k => (hcount k).findFirst? hsound (hsound' k) hdir hinfofind)
    (hsettled.fixed hsound hdir hinfofind hreadable)
  rw [activitiesIn_eq hopen hidle]
  exact ⟨rfl, rfl, rfl⟩

/-- Where a migration of workflows left everything, another one is idle. -/
theorem workflows_idle (hdir : dir ≠ []) (hleft : Session.Left s.project dir m)
    (hgone : ∀ names, ¬ Files.Hit m (.star :: (legacyWord.map .byte ++ [.star])) dir names)
    (hsettled : InfoSettled s dir m) :
    Idle "workflows" dir m (workflowsIn s dir registry cancelled m) := by
  obtain ⟨hsound, hlist, ⟨q, hopen, hmodified, hstripped⟩, info, hinfofind, hreadable⟩ := hleft
  have hcount : SameTree m { m with reads := m.reads + 1 } := .of_same ⟨rfl, rfl⟩
  have hsound' : Sound { m with reads := m.reads + 1 } := hsound.congr rfl
  have hnone : ∀ names, ¬ Files.Hit { m with reads := m.reads + 1 }
      (.star :: (legacyWord.map .byte ++ [.star])) dir names := fun names hhit =>
    hgone names (hcount.hit_iff.1 hhit)
  obtain ⟨k, hidle⟩ := Session.migrateWorkflows_idle s registry cancelled
    (S := { files := { m with reads := m.reads + 1 }, root := dir, project := q })
    (Files.find_nothing hsound' hdir parse?_legacy (hcount.listable hlist) hnone) hmodified hstripped
    (hcount.findFirst? hsound hsound' hdir hinfofind)
    (hsettled.fixed hsound hdir hinfofind hreadable)
  -- code-behind files are legacy files
  have hflows : Ends (Files.find dir "*.xoml.cs") { m with reads := m.reads + 1 } []
      { m with reads := m.reads + 1 } := by
    refine Files.find_nothing hsound' hdir parse?_units (hcount.listable hlist) ?_
    rintro names ⟨hnames, hfile, above, n, rfl, hmatch⟩
    have hn := (hnames n (by simp)).no_slash
    refine hnone _ ⟨hnames, hfile, above, n, rfl, (Glob.matchesName_around_iff _ hn).2 ?_⟩
    obtain ⟨front, hfront⟩ := (Glob.matchesName_after_iff _ hn).1 hmatch
    exact ⟨front, (".cs" : Bytes), by rw [← hfront, List.append_assoc]; rfl⟩
  rw [workflowsIn_eq (openWorkflows_iff.2 ⟨_, hopen, hflows⟩) hidle]
  exact ⟨rfl, rfl, rfl⟩

/-- **Migrating again changes nothing.** None of the patterns matches the project file, whose root is not
an element that may be removed and whose values hold no carriage returns. Then a migration without a fault
that left the sources as its edits leave them can be made again: it has nothing to report, and every file
stays. -/
theorem migrations_again (hm : Made m) (hdir : dir ≠ []) (hopen : Ends (openProject dir) m p t)
    (hroot : ∀ name, Xml.rootName? p.nodes = some name →
      Project.isTagged Project.removable name = false)
    (hvalues : ∀ e ∈ Xml.breadthFirst p.nodes, ∀ a ∈ e.attrs, 0x0D ∉ a.value)
    (hdesigner : Session.Passes s.activities.designerPattern p.path)
    (hsource : Session.Passes s.activities.filePattern p.path)
    (hinfo : Session.Passes s.project.assemblyInfo p.path) :
    (∀ cancelled again, (∀ left, again left = true → cancelled left = true) →
      (activitiesIn s dir cancelled m).fault? = none →
      SourcesSettled s dir (activitiesIn s dir cancelled m).files →
      InfoSettled s dir (activitiesIn s dir cancelled m).files →
      Idle "activities" dir (activitiesIn s dir cancelled m).files
        (activitiesIn s dir again (activitiesIn s dir cancelled m).files)) ∧
    ∀ registry cancelled again, ¬ legacyWord <:+: base (normalize p.path) →
      (workflowsIn s dir registry cancelled m).fault? = none →
      InfoSettled s dir (workflowsIn s dir registry cancelled m).files →
      Idle "workflows" dir (workflowsIn s dir registry cancelled m).files
        (workflowsIn s dir registry again (workflowsIn s dir registry cancelled m).files) := by
  obtain ⟨t₁, data, -, -, hbytes⟩ := openProject_iff.1 hopen
  have hstorable := Project.storable_of_ofBytes hbytes hroot hvalues
  refine ⟨fun cancelled again hgoes hend hsources hsettled => ?_,
    fun registry cancelled again hname hend hsettled => ?_⟩
  · obtain ⟨hleft, ⟨ps, hps, hgone⟩, paths, hfind, huncancelled, hrefusals⟩ :=
      activities_left hm.sound hdir hopen hstorable hdesigner hsource hinfo hend
    exact activities_idle hdir hleft hps hgone hfind (huncancelled.mono hgoes) hrefusals hsources hsettled
  · obtain ⟨hleft, hgone⟩ := workflows_left hm.sound hdir hopen hstorable hname hinfo hend
    exact workflows_idle hdir hleft hgone hsettled

end Again

/-! ## A project that is migrated twice -/

/-- The pattern that is empty matches no name. -/
theorem not_hit_nil {ps : List Glob.Part} (hps : Glob.parse? [] = some ps) (names : List Bytes) :
    ¬ Files.Hit m ps dir names := by
  rw [Glob.parse?] at hps
  cases hps
  rintro ⟨hnames, -, above, n, rfl, hmatch⟩
  exact (hnames n (by simp)).ne_nil ((Glob.matchesName_nil_iff n).1 hmatch)

theorem find_nil_pattern {t : Memory} {found : List Bytes} (hm : Sound m) (hdir : dir ≠ [])
    (h : Ends (Files.find dir []) m found t) : found = [] := by
  obtain ⟨-, ps, hps, hmem⟩ := Files.find_ends hm hdir h
  refine List.eq_nil_iff_forall_not_mem.2 fun path hpath => ?_
  obtain ⟨names, hhit, -⟩ := (hmem path).1 hpath
  exact not_hit_nil hps names hhit

theorem infoSettled_nil (hm : Sound m) (hdir : dir ≠ []) (hnone : s.project.assemblyInfo = []) :
    InfoSettled s dir m := by
  intro path t hfind
  rw [hnone] at hfind
  obtain ⟨paths, t', hpaths, hhead⟩ := Ends.bind_iff.1 hfind
  rw [find_nil_pattern hm hdir hpaths] at hhead
  cases (Ends.pure_iff.1 hhead).1

/-- Settings with designer files, activities and assembly information. -/
def editing : Settings where
  activities :=
    { designerPattern := "*.designer.cs", filePattern := "*Activity.cs", usings := ["N"] }
  project := { assemblyInfo := "AssemblyInfo.cs" }

def active (project activity info : Bytes) (reads writes : Nat) : Memory where
  table := [("/", .directory), ("/p.csproj", .file project), ("/AActivity.cs", .file activity),
    ("/AssemblyInfo.cs", .file info)]
  reads := reads
  writes := writes

def legacyActivity : Bytes := "using System.Workflow;\npartial class A\x7b\x7d"

def settledActivity : Bytes := "using N;\nabstract class A\x7b\x7d"

def designedProject : Bytes := "<P><Compile Include='A.designer.cs'/></P>"

/-- The project, with a designer file that it lists. -/
def unedited : Memory where
  table := [("/", .directory), ("/p.csproj", .file designedProject), ("/AActivity.cs", .file legacyActivity),
    ("/AssemblyInfo.cs", .file "using System.Workflow;\n"), ("/A.designer.cs", .file [])]
  writes := 4

theorem made_unedited : Made unedited :=
  .write "/A.designer.cs" [] (.write "/AssemblyInfo.cs" "using System.Workflow;\n"
    (.write "/AActivity.cs" legacyActivity (.write "/p.csproj" designedProject .empty)))

theorem open_unedited (k : Nat) : Open { unedited with reads := k } "/" :=
  ⟨made_unedited.sound.congr rfl, rfl, rfl, rfl⟩

section Active

variable {project activity info : Bytes} {reads writes : Nat}

theorem open_active : Open (active project activity info reads writes) "/" := by
  have hmade : Made (active project activity info 0 3) :=
    .write "/AssemblyInfo.cs" info (.write "/AActivity.cs" activity (.write "/p.csproj" project .empty))
  exact ⟨hmade.sound.congr rfl, rfl, rfl, rfl⟩

theorem find_activity : Ends (Files.find "/" editing.activities.filePattern)
    (active project activity info reads writes) ["/AActivity.cs"]
    (active project activity info reads writes) :=
  Files.find_ending (w := "Activity.cs") open_active (Glob.parse?_after (by decide)) (by rfl)
    (List.pairwise_singleton _ _)

theorem find_info : Ends (Files.findFirst? "/" editing.project.assemblyInfo)
    (active project activity info reads writes) (some "/AssemblyInfo.cs")
    (active project activity info reads writes) := by
  have hfind : Ends (Files.find "/" editing.project.assemblyInfo)
      (active project activity info reads writes) ["/AssemblyInfo.cs"]
      (active project activity info reads writes) :=
    Files.find_name open_active (by decide) (by rfl) (List.pairwise_singleton _ _)
  exact Files.findFirst?_of_find hfind

end Active

set_option maxRecDepth 20000 in
theorem exists_designedProject : ∃ p, Project.ofBytes "/p.csproj" designedProject = .ok p ∧
    (∀ name, Xml.rootName? p.nodes = some name → Project.isTagged Project.removable name = false) ∧
    (∀ e ∈ Xml.breadthFirst p.nodes, ∀ a ∈ e.attrs, 0x0D ∉ a.value) ∧
    ∃ q, q = Session.stripped editing.project (p.removeItems "A.designer.cs").2 ∧ q.modified = true ∧
      q.path = "/p.csproj" ∧ q.toBytes = "<P/>\n" := by
  obtain ⟨p, hload, hroot, helements, hmodified, hpath, hbytes⟩ :
      ∃ p, Project.ofBytes "/p.csproj" designedProject = .ok p ∧
        Xml.rootName? p.nodes = some ⟨[], "P"⟩ ∧
        Xml.breadthFirst p.nodes = [⟨⟨[], "P"⟩, []⟩, ⟨⟨[], "Compile"⟩, [⟨⟨[], "Include"⟩, "A.designer.cs"⟩]⟩] ∧
        (Session.stripped editing.project (p.removeItems "A.designer.cs").2).modified = true ∧
        (Session.stripped editing.project (p.removeItems "A.designer.cs").2).path = "/p.csproj" ∧
        (Session.stripped editing.project (p.removeItems "A.designer.cs").2).toBytes = "<P/>\n" := by
      rw [designedProject]
      repeat rw [Bytes.ofString_ofList]
      decide +kernel
  refine ⟨p, hload, fun name hname => ?_, ?_, _, rfl, hmodified, hpath, hbytes⟩
  · obtain rfl := Option.some.inj (hroot.symm.trans hname)
    decide
  · rw [helements]
    decide

theorem migrate_activity :
    Activity.migrate ["N"] [] legacyActivity = .ok settledActivity ∧
      Activity.migrate ["N"] [] settledActivity = .ok settledActivity := by
  decide +kernel

/-- The migration removes the designer file, edits the activity, saves the project and edits the assembly
information. -/
theorem activities_unedited : (activitiesIn editing "/" never unedited).fault? = none ∧
    (activitiesIn editing "/" never unedited).files = active "<P/>\n" settledActivity "\n" 3 7 := by
  obtain ⟨p, hload, -, -, q, hq, hmodified, hpath, hbytes⟩ := exists_designedProject
  have hopen : Ends (openProject "/") unedited p { unedited with reads := 1 } :=
    openProject_of_table (open_unedited 0) (by rfl) (List.pairwise_singleton _ _) rfl hload
  have hdesigner : Ends (Files.find "/" editing.activities.designerPattern) { unedited with reads := 1 }
      ["/A.designer.cs"] { unedited with reads := 1 } :=
    Files.find_ending (w := ".designer.cs") (open_unedited 1) (Glob.parse?_after (by decide)) (by rfl)
      (List.pairwise_singleton _ _)
  have hitem : Project.relativePath "/" "/A.designer.cs" = .ok "A.designer.cs" := by decide
  have hremove : Ends (FileStore.remove "/A.designer.cs") { unedited with reads := 1 } ()
      (active designedProject legacyActivity "using System.Workflow;\n" 1 4) := rfl
  have hactivity : Ends (FileStore.write "/AActivity.cs" settledActivity)
      (active designedProject legacyActivity "using System.Workflow;\n" 2 4) ()
      (active designedProject settledActivity "using System.Workflow;\n" 2 5) := rfl
  have hsave : Ends (FileStore.write q.path q.toBytes)
      (active designedProject settledActivity "using System.Workflow;\n" 2 5) ()
      (active "<P/>\n" settledActivity "using System.Workflow;\n" 2 6) := by
    rw [hpath, hbytes]
    rfl
  have hstrip : Activity.stripWorkflowUsings "using System.Workflow;\n" = "\n" := by decide +kernel
  have hinfo : Ends (FileStore.write "/AssemblyInfo.cs" "\n")
      (active "<P/>\n" settledActivity "using System.Workflow;\n" 3 6) ()
      (active "<P/>\n" settledActivity "\n" 3 7) := rfl
  obtain ⟨S, hend, hfiles⟩ : ∃ S, Ends (Session.migrateActivities editing never)
      { files := { unedited with reads := 1 }, root := "/", project := p } () S ∧
      S.files = active "<P/>\n" settledActivity "\n" 3 7 := by
    refine ⟨_, Session.migrateActivities_iff.2 ⟨_, _, _, _, Session.removeFiles_iff.2 ⟨_, _, hdesigner,
      Ends.bind_iff.2 ⟨(), _, Session.removeFile_iff.2 ⟨_, _, hremove, hitem, rfl⟩, rfl⟩⟩, find_activity,
      Ends.bind_iff.2 ⟨(), _, rfl,
      Ends.bind_iff.2 ⟨(), _, Session.editFile_iff.2 ⟨_, _, _, rfl, migrate_activity.1,
        .inr ⟨by decide, _, hactivity, rfl⟩⟩, rfl⟩⟩,
      Session.dropLegacyReferences_iff.2 ⟨_, _, _, Session.saveProject_iff.2 (.inr ⟨?_, _, ?_, rfl⟩), find_info,
        Session.editFile_iff.2 ⟨_, _, _, rfl, congrArg _ hstrip, .inr ⟨by decide, _, hinfo, rfl⟩⟩⟩⟩, rfl⟩
    · rw [← hmodified, hq]
    · rw [hq] at hsave
      exact hsave
  rw [activitiesIn_eq hopen hend]
  exact ⟨rfl, hfiles⟩

/-- Two workflows, and an activity with a designer file and assembly information, that are migrated
twice. -/
theorem migrations_again_pair :
    (∃ out : Outcome Memory, out = workflowsIn oneStep "/" none never (pair "class B\x7b\x7d") ∧
      out.fault? = none ∧ Idle "workflows" "/" out.files (workflowsIn oneStep "/" none never out.files)) ∧
    ∃ out : Outcome Memory, out = activitiesIn editing "/" never unedited ∧ out.fault? = none ∧
      out.files = active "<P/>\n" settledActivity "\n" 3 7 ∧
      Idle "activities" "/" out.files (activitiesIn editing "/" never out.files) := by
  have hdir : ("/" : Bytes) ≠ [] := List.cons_ne_nil _ _
  refine ⟨⟨_, rfl, ?_⟩, ⟨_, rfl, ?_⟩⟩
  · obtain ⟨p, hload, ⟨hkept, -, hvalues⟩, -⟩ := exists_project
    have hcode := made_pair "class B\x7b\x7d"
    have hopen : Ends (openProject "/") (pair "class B\x7b\x7d") p
        { pair "class B\x7b\x7d" with reads := 1 } :=
      openProject_of_table (open_pair _ 0) (by rfl) (List.pairwise_singleton _ _) rfl hload
    have hpath := Project.ofBytes_path hload
    have hpass : Session.Passes [] p.path := Session.passes_nil (by rw [hpath]; decide)
    have hname : ¬ legacyWord <:+: base (normalize p.path) := by
      rw [hpath]
      decide
    have hend : (workflowsIn oneStep "/" none never (pair "class B\x7b\x7d")).fault? = none := by
      have hrun := fault?_apart
      have hdirectory : Ends (requireDirectory "/") (pair "class B\x7b\x7d") () (pair "class B\x7b\x7d") :=
        requireDirectory_of_open (open_pair _ 0)
      have hregistry : Ends (openRegistry { workflowDir := "/" }) (pair "class B\x7b\x7d") none
        (pair "class B\x7b\x7d") := rfl
      rwa [workflows_eq_in (o := { workflowDir := "/" }) hdirectory hregistry] at hrun
    have hsound := (workflows_left hcode.sound hdir hopen (Project.storable_of_ofBytes hload hkept hvalues)
      hname hpass hend).1.sound
    exact ⟨hend, (migrations_again (s := oneStep) hcode hdir hopen hkept hvalues hpass hpass hpass).2 none
      never never hname hend (infoSettled_nil hsound hdir rfl)⟩
  · obtain ⟨p, hload, hroot, hvalues, -⟩ := exists_designedProject
    obtain ⟨hend, hfiles⟩ := activities_unedited
    have hpath := Project.ofBytes_path hload
    have hdesigner : Session.Passes editing.activities.designerPattern p.path := by
      rw [hpath]
      refine Session.passes_ending (w := ".designer.cs") (Glob.parse?_after ?_) ?_ ?_ <;> decide
    have hsource : Session.Passes editing.activities.filePattern p.path := by
      rw [hpath]
      refine Session.passes_ending (w := "Activity.cs") (Glob.parse?_after ?_) ?_ ?_ <;> decide
    have hinfo : Session.Passes editing.project.assemblyInfo p.path := by
      rw [hpath]
      refine Session.passes_letters ?_ ?_ <;> decide
    refine ⟨hend, hfiles, ?_⟩
    refine (migrations_again (s := editing) made_unedited hdir
      (openProject_of_table (open_unedited 0) (by rfl) (List.pairwise_singleton _ _) rfl hload) hroot hvalues
      hdesigner hsource hinfo).1 never never (fun _ h => h) hend ?_ ?_
    · rw [hfiles]
      intro found t hfind path hpath text htext
      obtain ⟨rfl, -⟩ := find_activity.det hfind
      obtain rfl := List.mem_singleton.1 hpath
      obtain rfl : settledActivity = text := Option.some.inj htext
      exact migrate_activity.2
    · rw [hfiles]
      intro path t hfind text htext
      obtain ⟨hfound, -⟩ := find_info.det hfind
      obtain rfl := Option.some.inj hfound
      obtain rfl : "\n" = text := Option.some.inj htext
      decide +kernel

end Run

end Flowsmith
