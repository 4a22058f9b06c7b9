import Flowsmith.Proofs.Migration.Units
import Flowsmith.Proofs.Project.Items

/-!
# Cleaning up after a migration

After the workflows or activities are written, legacy files are removed with their project items, the
project is saved without references, and the assembly information is edited. For files in memory this
says what is there afterwards at every path.

* `Session.Removed`, `removeFiles_removed` : files that were removed, with their project items;
* `saveProject_files` : the project file after it was saved;
* `dropLegacyReferences_files` : the files at the end;
* `cleanup_stays`, `cleanup_gone` : files that stay, and legacy files;
* `Run.legacy_gone` : a run leaves no legacy file.
-/

namespace Flowsmith

open Flowsmith.Path Memory

namespace Session

variable {S S' T : Session Memory}

theorem sound_migrateUnits {s : Settings} {registry : Option Registry} {cancelled : List Bytes → Bool}
    {units : List Bytes} {u : Unit} (hS : Sound S.files)
    (h : Ends (migrateUnits s registry cancelled units) S u S') : Sound S'.files := by
  have hwrites : ∀ p c : Bytes, Keeps (LawfulStore.Sound (σ := Memory)) (FileStore.write p c) := by
    intro p c m hm
    obtain ⟨r, m', hran, hm', -⟩ := LawfulStore.write p c hm
    rwa [hran]
  have hbegin : Filed LawfulStore.Sound S := hS
  exact (keeps_filed_migrateUnits LawfulStore.quiet_sound hwrites units).ends hbegin h

/-! ## Removing files -/

/-- Between the sessions the files at some paths were removed, and their items from the project. -/
structure Removed (paths : List Bytes) (S S' : Session Memory) : Prop where
  sound : Sound S'.files
  refused : S'.files.refused = S.files.refused
  root : S'.root = S.root
  files : ∀ q, S'.files.fileAt? q = if q ∈ paths.map normalize then none else S.files.fileAt? q
  project : ∃ items, List.Forall₂ (fun path item => Project.relativePath S.root path = .ok item) paths items ∧
    S'.project = S.project.withoutItems items
  reported : ∀ a, pathsOf a S'.entries =
    pathsOf a S.entries ++ if a = .remove then paths.map (shown S.root) else []

theorem Removed.nil (h : Sound S.files) : Removed [] S S :=
  ⟨h, rfl, rfl, fun _ => rfl, ⟨[], .nil, rfl⟩, fun a => by simp⟩

theorem Removed.path {paths : List Bytes} (h : Removed paths S S') : S'.project.path = S.project.path := by
  obtain ⟨items, -, hproject⟩ := h.project
  rw [hproject, Project.withoutItems_path]

theorem Removed.snoc {paths : List Bytes} {path : Bytes} {u : Unit} (h : Removed paths S T)
    (hstep : Ends (removeFile path) T u S') : Removed (paths ++ [path]) S S' := by
  obtain ⟨t, item, hremove, hitem, rfl⟩ := removeFile_iff.1 hstep
  obtain ⟨hsound, hrefused, hfiles⟩ := remove_ends h.sound hremove
  obtain ⟨items, hitems, hproject⟩ := h.project
  rw [h.root] at hitem
  refine ⟨hsound, hrefused.trans h.refused, h.root, fun q => ?_, ⟨items ++ [item], ?_, ?_⟩, fun a => ?_⟩
  · show t.fileAt? q = _
    rw [hfiles, h.files, List.map_append, List.map_singleton]
    by_cases hq : q = normalize path
    · simp [hq]
    · simp [hq]
  · exact List.rel_append hitems (.cons hitem .nil)
  · rw [Project.withoutItems_append, ← hproject]
    rfl
  · rw [pathsOf_snoc, h.reported, h.root]
    by_cases ha : a = .remove
    · subst ha
      simp [removalEntry]
    · have hother : (removalEntry S.root path (T.project.removeItems item).1).action ≠ a := Ne.symm ha
      rw [if_neg ha, if_neg ha, if_neg hother, List.append_nil]

/-- All files below the root with a name that matches are removed. -/
theorem removeFiles_removed {pattern : Bytes} {u : Unit} (hS : Sound S.files) (hroot : S.root ≠ [])
    (h : Ends (removeFiles pattern) S u S') :
    ∃ found ps, Glob.parse? pattern = some ps ∧
      (∀ path, path ∈ found ↔ ∃ names, Files.Hit S.files ps S.root names ∧
        path = join S.root (Bytes.joinWith [slash] names)) ∧
      Removed found S S' := by
  obtain ⟨found, t, hfind, hremove⟩ := removeFiles_iff.1 h
  obtain ⟨rfl, ps, hps, hfound⟩ := Files.find_ends hS hroot hfind
  refine ⟨found, ps, hps, hfound, ?_⟩
  exact hremove.forM_induct (P := fun done T => Removed done S T) (.nil hS)
    fun _ _ _ _ _ _ hdone hstep => hdone.snoc hstep

/-! ## Saving the project -/

/-- A project that is saved is on file when it was edited, and no other file changes. -/
theorem saveProject_files {detail : Bytes} {u : Unit} (hS : Sound S.files)
    (h : Ends (saveProject detail) S u S') :
    Sound S'.files ∧ S'.root = S.root ∧ ∀ q, S'.files.fileAt? q =
      if S.project.modified = true ∧ q = normalize S.project.path then some S.project.toBytes
      else S.files.fileAt? q := by
  rcases saveProject_iff.1 h with ⟨hmodified, rfl⟩ | ⟨hmodified, t, hwrite, rfl⟩
  · exact ⟨hS, rfl, fun q => by simp [hmodified]⟩
  · obtain ⟨hsound, -, hfiles⟩ := write_ends hS hwrite
    exact ⟨hsound, rfl, fun q => by simpa [hmodified] using hfiles q⟩

/-! ## The assembly information -/

/-- A file that is edited holds the edited text, and no other file changes. -/
theorem editFile_files {path : Bytes} {edit : Bytes → Except Fault Bytes} {u : Unit}
    (hS : Sound S.files) (h : Ends (editFile path edit) S u S') :
    ∃ text edited, S.files.fileAt? (normalize path) = some text ∧ edit text = .ok edited ∧
      Sound S'.files ∧ ∀ q, S'.files.fileAt? q =
        if q = normalize path then some edited else S.files.fileAt? q := by
  obtain ⟨text, edited, t, hread, hedit, hend⟩ := editFile_iff.1 h
  obtain ⟨rfl, hfile, -⟩ := read_iff.1 hread
  have hS' : Sound { S.files with reads := S.files.reads + 1 } := hS.congr rfl
  refine ⟨text, edited, hfile, hedit, ?_⟩
  rcases hend with ⟨rfl, rfl⟩ | ⟨-, t', hwrite, rfl⟩
  · refine ⟨hS', fun q => ?_⟩
    split
    · rename_i hq
      rw [hq]
      exact hfile
    · rfl
  · obtain ⟨hsound, -, hfiles⟩ := write_ends hS' hwrite
    exact ⟨hsound, hfiles⟩

/-- After the clean-up the project is on file when it was edited, and one file may have lost its
workflow usings, whose name matches that of the assembly information. -/
theorem dropLegacyReferences_files {o : Settings.Project} {u : Unit} (hS : Sound S.files)
    (hroot : S.root ≠ []) (h : Ends (dropLegacyReferences o) S u S') :
    ∃ T : Memory, Sound S'.files ∧
      (∀ q, T.fileAt? q = if (stripped o S.project).modified = true ∧ q = normalize S.project.path
        then some (stripped o S.project).toBytes else S.files.fileAt? q) ∧
      ∀ q, S'.files.fileAt? q = T.fileAt? q ∨
        ∃ ps text, Glob.parse? o.assemblyInfo = some ps ∧ Glob.matchesName ps (base q) = true ∧
          T.fileAt? q = some text ∧
          S'.files.fileAt? q = some (Activity.stripWorkflowUsings text) := by
  obtain ⟨T, info, t, hsave, hfind, hend⟩ := dropLegacyReferences_iff.1 h
  have hS' : Sound ({ S with project := stripped o S.project } : Session Memory).files := hS
  obtain ⟨hT, hrootT, hfiles⟩ := saveProject_files hS' hsave
  replace hrootT : T.root = S.root := hrootT
  obtain ⟨rfl, hinfo⟩ := Files.findFirst?_ends hT (by rwa [hrootT]) hfind
  refine ⟨T.files, ?_⟩
  cases info with
  | none =>
    obtain rfl := hend
    exact ⟨hT, hfiles, fun q => .inl rfl⟩
  | some path =>
    obtain ⟨ps, names, hps, ⟨hnames, -, above, n, rfl, hmatch⟩, rfl⟩ := hinfo path rfl
    obtain ⟨text, edited, htext, hedit, hsound, hedited⟩ := editFile_files hT hend
    cases hedit
    refine ⟨hsound, hfiles, fun q => ?_⟩
    rw [hedited]
    split
    · rename_i hq
      refine .inr ⟨ps, text, hps, ?_, hq ▸ htext, rfl⟩
      rw [hq, Files.normalize_names (by rwa [hrootT]) hnames, Files.base_key_names hnames]
      exact hmatch
    · exact .inl rfl

/-! ## What is left -/

/-- A file that is no legacy file and not the project file is there after the clean-up; when its name
is that of the assembly information it may have lost its workflow usings. -/
theorem cleanup_stays {o : Settings.Project} {u v : Unit} {q text : Bytes}
    (hS : Sound S.files) (hroot : S.root ≠ []) (hproject : q ≠ normalize S.project.path)
    (hname : ¬ legacyWord <:+: base q) (hthere : S.files.fileAt? q = some text)
    (hremove : Ends (removeFiles "*.xoml*") S u T) (hdrop : Ends (dropLegacyReferences o) T v S') :
    ∃ text', S'.files.fileAt? q = some text' ∧
      (text' = text ∨ text' = Activity.stripWorkflowUsings text ∧
        ∃ ps, Glob.parse? o.assemblyInfo = some ps ∧ Glob.matchesName ps (base q) = true) := by
  obtain ⟨found, ps, hps, hfound, hgone⟩ := removeFiles_removed hS hroot hremove
  rw [Run.parse?_legacy] at hps
  cases hps
  have hkept : q ∉ found.map normalize := by
    intro hmem
    obtain ⟨path, hpath, rfl⟩ := List.mem_map.1 hmem
    obtain ⟨names, ⟨hnames, -, above, n, rfl, hmatch⟩, rfl⟩ := (hfound path).1 hpath
    rw [Files.normalize_names hroot hnames, Files.base_key_names hnames] at hname
    exact hname ((Glob.matchesName_around_iff _ (hnames n (by simp)).no_slash).1 hmatch)
  have hafter : T.files.fileAt? q = some text := by rw [hgone.files, if_neg hkept, hthere]
  obtain ⟨M, -, hsaved, hend⟩ := dropLegacyReferences_files hgone.sound (by rwa [hgone.root]) hdrop
  have hsaved : M.fileAt? q = some text := by
    rw [hsaved, if_neg, hafter]
    rintro ⟨-, hq⟩
    rw [hgone.path] at hq
    exact hproject hq
  rcases hend q with hsame | ⟨ps, text', hps, hmatch, htext, hstripped⟩
  · exact ⟨text, hsame.trans hsaved, .inl rfl⟩
  · obtain rfl := Option.some.inj (hsaved.symm.trans htext)
    exact ⟨_, hstripped, .inr ⟨rfl, ps, hps, hmatch⟩⟩

/-- No legacy file is left below the root by the clean-up, unless the project file is one. -/
theorem cleanup_gone {o : Settings.Project} {u v : Unit} (hS : Sound S.files) (hroot : S.root ≠ [])
    (hproject : ¬ legacyWord <:+: base (normalize S.project.path))
    (hremove : Ends (removeFiles "*.xoml*") S u T) (hdrop : Ends (dropLegacyReferences o) T v S')
    {path c : Bytes} (hfile : S'.files.fileAt? path = some c)
    (hbelow : fromRoot S.root <+: fromRoot (directory path)) : ¬ legacyWord <:+: base path := by
  intro hname
  obtain ⟨found, ps, hps, hfound, hgone⟩ := removeFiles_removed hS hroot hremove
  rw [Run.parse?_legacy] at hps
  cases hps
  obtain ⟨M, hsound, hsaved, hend⟩ := dropLegacyReferences_files hgone.sound (by rwa [hgone.root]) hdrop
  -- the file was there after the removals
  have hthere : ∃ text, T.files.fileAt? path = some text := by
    have hM : ∃ text, M.fileAt? path = some text := by
      rcases hend path with hsame | ⟨ps, text, -, -, htext, -⟩
      · exact ⟨c, hsame.symm.trans hfile⟩
      · exact ⟨text, htext⟩
    rwa [hsaved, if_neg] at hM
    rintro ⟨-, rfl⟩
    rw [hgone.path] at hname
    exact hproject hname
  obtain ⟨text, htext⟩ := hthere
  rw [hgone.files] at htext
  split at htext
  · cases htext
  rename_i hmem
  refine hmem ?_
  -- and a search finds it
  obtain ⟨ns, n, hns, rfl, hbase, hdir⟩ := exists_key_of_fileAt? hS htext
  rw [hdir] at hbelow
  obtain ⟨names, rfl⟩ := hbelow
  rw [List.append_assoc] at hns htext ⊢
  have hnames : ∀ k ∈ names ++ [n], IsEntry k := fun k hk => hns k (List.mem_append_right _ hk)
  refine List.mem_map.2 ⟨_, (hfound _).2 ⟨names ++ [n], ⟨hnames, ⟨text, htext⟩, names, n, rfl, ?_⟩, rfl⟩,
    Files.normalize_names hroot hnames⟩
  rw [hbase] at hname
  exact (Glob.matchesName_around_iff _ (hnames n (by simp)).no_slash).2 hname

end Session

namespace Run

/-- **A run without a fault leaves no legacy file in its directory**, unless the project file is one. -/
theorem legacy_gone {s : Settings} {o : Options} {files : Memory} (hm : Sound files)
    (hend : (workflows s o files).fault? = none) {registry : Option Registry} {project : Project}
    {units : List Bytes} {t : Memory}
    (hprepare : Ends (prepareWorkflows o) files (registry, project, units) t)
    (hproject : ¬ legacyWord <:+: base (normalize project.path)) {path c : Bytes}
    (hfile : (workflows s o files).files.fileAt? path = some c)
    (hbelow : fromRoot o.workflowDir <+: fromRoot (directory path)) : ¬ legacyWord <:+: base path := by
  obtain ⟨registry', project', units', t', S₁, S₂, S₃, h⟩ := exists_steps hend
  obtain ⟨heq, rfl⟩ := hprepare.det h.prepare
  cases heq
  have hready := prepared hm h.prepare
  obtain ⟨hroot, hpath⟩ := Session.migrateUnits_frame h.migrate
  have hsound : Sound S₁.files := Session.sound_migrateUnits (hm.congr hready.same.table) h.migrate
  rw [h.workflows_eq] at hfile
  refine Session.cleanup_gone hsound ?_ ?_ h.remove h.drop hfile ?_
  · rw [hroot]
    exact hready.dir
  · rwa [hpath]
  · rwa [hroot]

end Run

end Flowsmith
