import Flowsmith.Proofs.Files.Overlay
import Flowsmith.Proofs.Migration.Mirror
import Flowsmith.Proofs.Migration.Written

/-!
# Dry runs of one project

A dry run works on an overlay, and the overlay stands for the store that the real run changes. Every
step of a migration keeps it so: what is removed was found and so was there, what is edited was found
too, and a flow class is written beside its workflow.

* `Session.meets_removeFiles`, `Session.meets_dropLegacyReferences` : the clean-up on both;
* `Session.meets_migrateUnits` : the workflows on both;
* `Run.workflows_shadowed`, `Run.activities_shadowed` : both runs from related stores;
* `Run.dry_run_alike` : a dry run reports what the real run does and changes nothing.
-/

namespace Flowsmith

open Flowsmith.Path Memory

theorem apart_below {root : Bytes} (hroot : root ≠ []) : Apart (Below root) := by
  rintro p q ⟨names, -, hnames, rfl⟩ ⟨names', -, hnames', rfl⟩ heq
  rw [Files.normalize_names hroot hnames, Files.normalize_names hroot hnames'] at heq
  have hall : ∀ {ns : List Bytes}, (∀ n ∈ ns, IsEntry n) → ∀ n ∈ fromRoot root ++ ns, IsEntry n :=
    fun h n hn => (List.mem_append.1 hn).elim (isEntry_fromRoot root n) (h n)
  rw [List.append_cancel_left (key_inj (hall hnames) (hall hnames') heq)]

theorem Path.Below.of_directory {root path p : Bytes} (hroot : root ≠ []) (h : Below root path)
    (hp : Below (directory path) p) : Below root p := by
  obtain ⟨names, hne, hnames, rfl⟩ := h
  obtain ⟨more, hmore, hentries, rfl⟩ := hp
  obtain ⟨init, n, rfl⟩ := (List.eq_nil_or_concat names).resolve_left hne
  rw [List.concat_eq_append] at hnames ⊢
  exact ⟨init ++ more, by simp [hmore], fun k hk => (List.mem_append.1 hk).elim
    (fun hk => hnames k (List.mem_append_left _ hk)) (hentries k),
    join_directory_join hroot hnames hentries⟩

/-- The directory of a path that goes down one name is the one where it begins. -/
theorem Memory.Listable.directory_of_entry {m : Memory} {dir n : Bytes} (h : m.Listable dir)
    (hdir : dir ≠ []) (hn : IsEntry n) :
    m.lookup (Path.directory (normalize (join dir n))) = some .directory := by
  rw [normalize_eq, Files.fromRoot_join_entry hdir hn, directory_key (isEntry_fromRoot dir) hn,
    ← normalize_eq]
  exact h.directory

/-! ## Loading -/

section Loading

variable {P U : Bytes → Prop} {m₀ m : Memory} {o : Overlay Memory}

theorem Workflow.meets_load (h : Shadows P U m₀ o m) (s : Settings) (registry : Option Registry)
    {path : Bytes} (hpath : P path) (hthere : ∃ c, m.fileAt? (normalize path) = some c)
    (hsearch : Shadows.Searches P U m₀ (directory path) (markupName path)) :
    Meets (Shadows P U m₀) (load s registry path) (load s registry path) o m := by
  obtain ⟨c, hc⟩ := hthere
  refine (h.read hpath hc).tryCatch.bind fun text o m _ _ h => ?_
  refine (h.find hsearch).tryCatch.bind fun found o m' hshown hfind h' => ?_
  split
  · rename_i markupPath
    obtain ⟨hbelow, -, ⟨c, hc⟩⟩ := h.found hsearch (Ends.tryCatch_iff.1 hfind) markupPath
      (List.mem_singleton.2 rfl)
    obtain rfl := (Files.find_ends h.steady.sound hsearch.dir_ne (Ends.tryCatch_iff.1 hfind)).1
    exact (h'.read (hsearch.below _ hbelow) hc).tryCatch.bind fun _ _ _ _ _ h => (Agree.pure _).meets h
  · exact (Agree.throw _).meets h'

end Loading

namespace Session

variable {P U : Bytes → Prop} {m₀ : Memory} {S : Session (Overlay Memory)} {T : Session Memory}
  {pattern : Bytes}

/-! ## The clean-up -/

/-- A path at which a file was at the beginning, and is. -/
structure Remains (P : Bytes → Prop) (m₀ m : Memory) (path : Bytes) : Prop where
  known : P path
  was : ∃ c, m₀.fileAt? (normalize path) = some c
  is : ∃ c, m.fileAt? (normalize path) = some c

theorem meets_removeAll (hapart : Apart P) {paths : List Bytes} (hnodup : paths.Nodup)
    (hpaths : ∀ path ∈ paths, Remains P m₀ T.files path) (hST : Beside (Shadows P U m₀) S T) :
    Meets (Beside (Shadows P U m₀)) (paths.forM removeFile) (paths.forM removeFile) S T := by
  induction paths generalizing S T with
  | nil => exact (Agree.pure _).meets hST
  | cons path paths ih =>
    obtain ⟨hfresh, hnodup⟩ := List.nodup_cons.1 hnodup
    have hpath := hpaths path List.mem_cons_self
    refine (meets_removeFile hST (hST.files.remove hapart hpath.known hpath.was hpath.is)).bind
      fun _ S' T' _ hstep hST' => ih hnodup (fun p hp => ?_) hST'
    have hrest := hpaths p (List.mem_cons_of_mem _ hp)
    have hremoved := (Removed.nil hST.files.steady.sound).snoc hstep
    refine ⟨hrest.known, hrest.was, ?_⟩
    rw [hremoved.files, if_neg]
    · exact hrest.is
    · intro hmem
      have heq := hapart hrest.known hpath.known (List.mem_singleton.1 hmem)
      exact hfresh (heq ▸ hp)

theorem meets_removeFiles (hapart : Apart P) (hsearch : Shadows.Searches P U m₀ T.root pattern)
    (hST : Beside (Shadows P U m₀) S T) :
    Meets (Beside (Shadows P U m₀)) (removeFiles pattern) (removeFiles pattern) S T := by
  refine .get_bind ?_
  simp only [hST.root]
  refine (meets_onFiles hST (hST.files.find hsearch).tryCatch).bind fun found S' T' _ hstep hST' => ?_
  obtain ⟨t, hfind, rfl⟩ := onFiles_iff.1 hstep
  replace hfind := Ends.tryCatch_iff.1 hfind
  have hseen := hST.files.found hsearch hfind
  obtain rfl := (Files.find_ends hST.files.steady.sound hsearch.dir_ne hfind).1
  refine meets_removeAll hapart (Files.nodup_find hST.files.steady.sound hsearch.dir_ne hfind)
    (fun path hpath => ?_) hST'
  obtain ⟨hbelow, hwas, his⟩ := hseen path hpath
  exact ⟨hsearch.below _ hbelow, hwas, his⟩

theorem meets_editRemaining (hapart : Apart P) {path : Bytes} (hpath : Remains P m₀ T.files path)
    (edit : Bytes → Except Fault Bytes) (hST : Beside (Shadows P U m₀) S T) :
    Meets (Beside (Shadows P U m₀)) (editFile path edit) (editFile path edit) S T := by
  obtain ⟨hknown, hwas, c, hc⟩ := hpath
  exact meets_editFile hST (hST.files.read hknown hc)
    (fun s t c hst => hst.rewrite hapart hknown c hwas) edit

theorem meets_migrateSources (hapart : Apart P) (s : Settings) (cancelled : List Bytes → Bool) {paths : List Bytes}
    (hpaths : ∀ path ∈ paths, Remains P m₀ T.files path) (hST : Beside (Shadows P U m₀) S T) :
    Meets (Beside (Shadows P U m₀)) (migrateSources s cancelled paths)
      (migrateSources s cancelled paths) S T := by
  induction paths generalizing S T with
  | nil => exact (Agree.pure _).meets hST
  | cons path paths ih =>
    refine ((agree_checkpoint _).meets hST).bind fun _ S₁ T₁ _ hgoes hST => ?_
    obtain ⟨-, rfl⟩ := checkpoint_iff.1 hgoes
    refine (meets_editRemaining hapart (hpaths path List.mem_cons_self) _ hST).bind
      fun _ S' T' _ hstep hST' => ih (fun p hp => ?_) hST'
    obtain ⟨hknown, hwas, c, hc⟩ := hpaths p (List.mem_cons_of_mem _ hp)
    obtain ⟨text, edited, -, -, -, hfiles⟩ := editFile_files hST.files.steady.sound hstep
    refine ⟨hknown, hwas, ?_⟩
    rw [hfiles]
    split
    · exact ⟨edited, rfl⟩
    · exact ⟨c, hc⟩

theorem meets_dropLegacyReferences (hapart : Apart P) {o : Settings.Project}
    (hproject : P T.project.path) (hwas : ∃ c, m₀.fileAt? (normalize T.project.path) = some c)
    (hsearch : Shadows.Searches P U m₀ T.root o.assemblyInfo)
    (hST : Beside (Shadows P U m₀) S T) :
    Meets (Beside (Shadows P U m₀)) (dropLegacyReferences o) (dropLegacyReferences o) S T := by
  refine ((agree_onProject _).meets hST).bind fun refs S₁ T₁ _ h₁ hST => ?_
  obtain ⟨-, rfl⟩ := onProject_iff.1 h₁
  refine ((agree_onProject _).meets hST).bind fun imports S₂ T₂ _ h₂ hST => ?_
  obtain ⟨-, rfl⟩ := onProject_iff.1 h₂
  refine (meets_saveProject hST (fun c => hST.files.rewrite hapart hproject c hwas) _).bind
    fun _ S₃ T₃ _ h₃ hST₃ => .get_bind ?_
  obtain ⟨-, hroot, -⟩ := saveProject_files hST.files.steady.sound h₃
  rw [show T.root = T₃.root from hroot.symm] at hsearch
  simp only [hST₃.root]
  refine (meets_onFiles hST₃ (hST₃.files.findFirst? hsearch).tryCatch).bind
    fun info S₄ T₄ _ h₄ hST₄ => ?_
  cases info with
  | none => exact (Agree.pure _).meets hST₄
  | some path =>
    obtain ⟨t, hends, rfl⟩ := onFiles_iff.1 h₄
    obtain ⟨rfl, hbelow, hwas, his⟩ :=
      hST₃.files.found_first hsearch (Ends.tryCatch_iff.1 hends)
    exact meets_editRemaining hapart ⟨hsearch.below _ hbelow, hwas, his⟩ _ hST₄

/-! ## Workflows -/

variable {s : Settings} {registry : Option Registry}

/-- A place for a flow class: its directory is there, no directory has its path, and it is listed
unless nothing was there. -/
structure Lands (P U : Bytes → Prop) (m₀ : Memory) (dest : Bytes) : Prop where
  known : P dest
  parent : m₀.lookup (directory (normalize dest)) = some .directory
  place : m₀.lookup (normalize dest) ≠ some .directory
  listed : (∃ c, m₀.fileAt? (normalize dest) = some c) ∨ U dest

/-- A workflow of a project, whose flow class has a place and is no legacy file. -/
structure Foreseen (s : Settings) (registry : Option Registry) (P U : Bytes → Prop) (m₀ : Memory)
    (root path : Bytes) : Prop where
  codeBehind : IsCodeBehind root path
  listable : m₀.Listable (directory path)
  known : P path
  was : ∃ c, m₀.fileAt? (normalize path) = some c
  search : Shadows.Searches P U m₀ (directory path) (Workflow.markupName path)
  lands : ∀ w out, Given s registry m₀ path w out → Lands P U m₀ (destination w out)
  notLegacy : ∀ w out, Given s registry m₀ path w out →
    ¬ legacyWord <:+: base (normalize (destination w out))

/-- Every workflow that a run through the paths comes to is foreseen: all those before it are given. -/
def Ahead (s : Settings) (registry : Option Registry) (P U : Bytes → Prop) (S₀ : Session Memory)
    (cancelled : List Bytes → Bool) (units : List Bytes) : Prop :=
  ∀ before path after, units = before ++ path :: after → Reaches cancelled before (path :: after) →
    (∀ p ∈ before, ∃ w out, Given s registry S₀.files p w out) →
    Foreseen s registry P U S₀.files S₀.root path

/-- A run through the workflows writes the same flow classes to both. -/
theorem meets_migrateUnits {S₀ : Session Memory} (hapart : Apart P) (hroot : S₀.root ≠ [])
    (cancelled : List Bytes → Bool) {done units : List Bytes} (hdone : Written s registry S₀ done T)
    (hnames : NotLegacy s registry S₀.files done)
    (hunits : Ahead s registry P U S₀ cancelled units) (hST : Beside (Shadows P U S₀.files) S T) :
    Meets (Beside (Shadows P U S₀.files)) (migrateUnits s registry cancelled units)
      (migrateUnits s registry cancelled units) S T := by
  induction units generalizing done S T with
  | nil => exact (Agree.pure _).meets hST
  | cons path units ih =>
    have hsound := hST.files.sound
    refine ((agree_checkpoint _).meets hST).bind fun _ S₁ T₁ _ hgoes hST => ?_
    obtain ⟨hnot, rfl⟩ := checkpoint_iff.1 hgoes
    have hpath := hunits [] path units rfl (reaches_nil hnot) nofun
    -- legacy files are as they were
    have hsame := hdone.sameNamed hnames
    have his : ∃ c, T.files.fileAt? (normalize path) = some c := by
      rw [hsame.files]
      · exact hpath.was
      · obtain ⟨init, u, hentries, hjoin⟩ := hpath.codeBehind
        rw [hjoin, Files.normalize_names hroot hentries, Files.base_key_names hentries]
        exact ⟨u, _, rfl⟩
    refine (meets_migrateWorkflow hST s registry
      (Workflow.meets_load hST.files s registry hpath.known his hpath.search)
      fun w out t t' hload hout ht => ?_).bind fun _ S' T' _ hstep hST' => ?_
    · have hgiven : Given s registry S₀.files path w out :=
        ⟨Workflow.load_same hdone.sound hsound hsame hroot hpath.codeBehind hpath.listable hload, hout⟩
      have hlands := hpath.lands w out hgiven
      exact ht.write hapart hlands.known out.source hlands.parent hlands.place hlands.listed
    · have hnow := hdone.snoc hsound hnames hroot hpath.codeBehind hpath.listable hstep
      refine ih hnow (fun p hp => ?_) (fun before p after hsplit hgoes hgiven => ?_) hST'
      · rcases List.mem_append.1 hp with hp | hp
        · exact hnames p hp
        · rw [List.mem_singleton.1 hp]
          exact hpath.notLegacy
      · rw [hsplit] at hnot
        refine hunits (path :: before) p after (by rw [hsplit, List.cons_append]) (hgoes.cons hnot)
          fun q hq => ?_
        rcases List.mem_cons.1 hq with rfl | hq
        · exact hnow.given q (by simp)
        · exact hgiven q hq

theorem meets_migrateWorkflows {S₀ : Session Memory} (hapart : Apart P) (hroot : S₀.root ≠ [])
    (cancelled : List Bytes → Bool) {units : List Bytes} (hbegin : Written s registry S₀ [] T)
    (hunits : Ahead s registry P U S₀ cancelled units) (hproject : P S₀.project.path)
    (hwas : ∃ c, S₀.files.fileAt? (normalize S₀.project.path) = some c)
    (hlegacy : Shadows.Searches P U S₀.files S₀.root "*.xoml*")
    (hinfo : Shadows.Searches P U S₀.files S₀.root s.project.assemblyInfo)
    (hST : Beside (Shadows P U S₀.files) S T) :
    Meets (Beside (Shadows P U S₀.files)) (migrateWorkflows s registry cancelled units)
      (migrateWorkflows s registry cancelled units) S T := by
  refine (meets_migrateUnits hapart hroot cancelled hbegin nofun hunits hST).bind
    fun _ S₁ T₁ _ h₁ hST₁ => ?_
  obtain ⟨hroot₁, hpath₁⟩ := migrateUnits_frame h₁
  rw [hbegin.root] at hroot₁
  rw [hbegin.project] at hpath₁
  refine (meets_removeFiles hapart (hroot₁ ▸ hlegacy) hST₁).bind fun _ S₂ T₂ _ h₂ hST₂ => ?_
  obtain ⟨found, ps, -, -, hremoved⟩ :=
    removeFiles_removed hST₁.files.steady.sound (by rwa [hroot₁]) h₂
  have hpath₂ := hremoved.path.trans hpath₁
  exact meets_dropLegacyReferences hapart (by rwa [hpath₂]) (by rwa [hpath₂])
    (by rwa [hremoved.root, hroot₁]) hST₂

theorem meets_migrateActivities (hapart : Apart P) (s : Settings) (cancelled : List Bytes → Bool)
    (hproject : P T.project.path) (hwas : ∃ c, m₀.fileAt? (normalize T.project.path) = some c)
    (hsearch : ∀ pattern ∈ [s.activities.designerPattern, s.activities.filePattern,
      s.project.assemblyInfo], Shadows.Searches P U m₀ T.root pattern)
    (hST : Beside (Shadows P U m₀) S T) :
    Meets (Beside (Shadows P U m₀)) (migrateActivities s cancelled) (migrateActivities s cancelled)
      S T := by
  refine (meets_removeFiles hapart (hsearch _ (by simp)) hST).bind fun _ S₁ T₁ _ h₁ hST₁ => .get_bind ?_
  have hroot := (hsearch s.activities.filePattern (by simp)).dir_ne
  obtain ⟨found, ps, -, -, hremoved⟩ := removeFiles_removed hST.files.steady.sound hroot h₁
  simp only [hST₁.root]
  rw [← hremoved.root] at hsearch
  rw [← hremoved.path] at hproject hwas
  have hfiles := hsearch s.activities.filePattern (by simp)
  refine (meets_onFiles hST₁ (hST₁.files.find hfiles).tryCatch).bind fun paths S₂ T₂ _ h₂ hST₂ => ?_
  obtain ⟨t, hends, rfl⟩ := onFiles_iff.1 h₂
  have hfind := Ends.tryCatch_iff.1 hends
  have hseen := hST₁.files.found hfiles hfind
  obtain rfl := (Files.find_ends hST₁.files.steady.sound hfiles.dir_ne hfind).1
  refine (meets_migrateSources hapart s cancelled (fun path hpath => ?_) hST₂).bind
    fun _ S₃ T₃ _ h₃ hST₃ => ?_
  · obtain ⟨hbelow, hwas, his⟩ := hseen path hpath
    exact ⟨hfiles.below _ hbelow, hwas, his⟩
  · obtain ⟨hroot₃, hpath₃⟩ := migrateSources_frame h₃
    exact meets_dropLegacyReferences hapart (by rwa [hpath₃]) (by rwa [hpath₃])
      (by rw [hroot₃]; exact hsearch _ (by simp)) hST₃

end Session

/-! ## Runs -/

namespace Run

variable {P U : Bytes → Prop} {s : Settings} {o : Options} {files m₀ m : Memory}

/-- The run comes to a workflow and gives its flow class: it finds the workflow in the project, is not
cancelled until it comes there, and the workflows before are given too. -/
def Generates (s : Settings) (o : Options) (files : Memory) (w : Workflow) (out : Transpiled) : Prop :=
  ∃ registry project t before path after,
    Ends (prepareWorkflows o) files (registry, project, before ++ path :: after) t ∧
    Session.Reaches o.cancelled.workflows before (path :: after) ∧
    (∀ p ∈ before, ∃ w out, Session.Given s registry files p w out) ∧
    Session.Given s registry files path w out

/-- The flow class has a place of its own: its name is one, no directory stands there, and the clean-up
does not search for it. -/
structure Settles (s : Settings) (files : Memory) (w : Workflow) (out : Transpiled) : Prop where
  name : slash ∉ out.name
  place : files.lookup (normalize (Session.destination w out)) ≠ some .directory
  notLegacy : ¬ legacyWord <:+: base (normalize (Session.destination w out))
  notInfo : ∀ ps, Glob.parse? s.project.assemblyInfo = some ps →
    Glob.matchesName ps (base (normalize (Session.destination w out))) = false

/-- The flow classes that the run gives where no file was. -/
def Fresh (s : Settings) (o : Options) (files : Memory) (p : Bytes) : Prop :=
  files.fileAt? (normalize p) = none ∧
    ∃ w out, Generates s o files w out ∧ p = Session.destination w out

/-! ### Workflows -/

theorem meets_prepareWorkflows (hm : Sound files) (hrefused : files.refused = []) :
    Meets (Shadows P U files) (prepareWorkflows o) (prepareWorkflows o)
      ({ base := files } : Overlay Memory) files := by
  obtain ⟨hres, hbase, hwritten, hremoved⟩ := agree_prepareWorkflows Overlay.shows_unchanged o
    (⟨rfl, rfl, rfl⟩ : ({ base := files } : Overlay Memory).base = files ∧ _)
  have hsame := keeps_prepareWorkflows (quiet_same files) o (.refl files)
  exact ⟨hres, .of_same hm hrefused hsame hwritten hremoved hbase⟩

/-- The workflows of a run are foreseen when their flow classes have places of their own. -/
theorem foreseen (hm : Sound files) (hbelow : o.workflowDir ≠ [] → ∀ p, Below o.workflowDir p → P p)
    (hsettles : ∀ w out, Generates s o files w out → Settles s files w out)
    {registry : Option Registry} {project : Project} {units : List Bytes} {t : Memory}
    (hprepare : Ends (prepareWorkflows o) files (registry, project, units) t) :
    Session.Ahead s registry P (Fresh s o files)
      { files := files, root := o.workflowDir, project := project } o.cancelled.workflows units := by
  rintro before path after rfl hgoes hbefore
  have hgenerates : ∀ w out, Session.Given s registry files path w out → Generates s o files w out :=
    fun w out hgiven => ⟨registry, project, t, before, path, after, hprepare, hgoes, hbefore, hgiven⟩
  have hpath : path ∈ before ++ path :: after := by simp
  have hbegin := prepared hm hprepare
  have hdir := hbegin.dir
  have hunit := (below_prepareWorkflows hm hprepare).2.2 path hpath
  have hlist := hbegin.listable path hpath
  have hcode := hbegin.codeBehind path hpath
  have hmem := (mem_units_iff hm hprepare path).1 hpath
  refine ⟨hcode, hlist, hbelow hdir _ hunit, ?_, ⟨directory_ne_nil path, hlist.directory,
    fun p hp => hbelow hdir _ (hunit.of_directory hdir hp), ?_⟩, fun w out hgiven => ?_,
    fun w out hgiven => (hsettles w out (hgenerates w out hgiven)).notLegacy⟩
  · obtain ⟨init, n, hentries, -, hfile, rfl⟩ := hmem
    rwa [Files.normalize_names hdir hentries]
  · -- a search for the definition looks for a legacy name
    rintro p ⟨-, w, out, hgives, rfl⟩ - ps hps
    obtain ⟨init, u, hentries, hjoin⟩ := hcode
    rw [show Workflow.markupName path = u ++ legacyWord by
      rw [hjoin]
      exact Workflow.markupName_join hdir hentries] at hps
    by_contra hmatch
    exact (hsettles w out hgives).notLegacy
      (Glob.suffix_of_matchesName (by decide) hps (by simpa using hmatch)).isInfix
  · have hthis := hgenerates w out hgiven
    obtain ⟨hname, hplace, -, -⟩ := hsettles w out hthis
    obtain ⟨⟨t', hload⟩, -⟩ := hgiven
    have hentry := Session.isEntry_source hname
    have hbeside : Session.destination w out = join (directory path) (out.name ++ (".cs" : Bytes)) := by
      obtain ⟨codeBehind, t₁, markupPath, t₂, markup, -, -, -, rfl⟩ := Workflow.load_iff.1 hload
      rfl
    have hdest : Below (directory path) (Session.destination w out) :=
      ⟨[out.name ++ (".cs" : Bytes)], by simp, List.forall_mem_singleton.2 hentry, hbeside⟩
    refine ⟨hbelow hdir _ (hunit.of_directory hdir hdest), ?_, hplace, ?_⟩
    · rw [hbeside]
      exact hlist.directory_of_entry (directory_ne_nil path) hentry
    · cases hfile : files.fileAt? (normalize (Session.destination w out)) with
      | none => exact .inr ⟨hfile, w, out, hthis, rfl⟩
      | some c => exact .inl ⟨c, rfl⟩

/-- A run of workflows whose flow classes have places of their own goes alike on an overlay. -/
theorem workflows_shadowed (hm : Sound files) (hrefused : files.refused = []) (hapart : Apart P)
    (hbelow : o.workflowDir ≠ [] → ∀ p, Below o.workflowDir p → P p)
    (hsettles : ∀ w out, Generates s o files w out → Settles s files w out) :
    Alike (Shadows P (Fresh s o files) files)
      (workflows s o ({ base := files } : Overlay Memory)) (workflows s o files) := by
  refine workflows_meets (meets_prepareWorkflows hm hrefused)
    fun registry project units o' t hprepare hst => ?_
  have hbegin := prepared hm hprepare
  have hdir := hbegin.dir
  obtain ⟨-, hproject, -⟩ := below_prepareWorkflows hm hprepare
  obtain ⟨data, hdata, -⟩ := hbegin.loaded
  have hsearch : ∀ pattern, Shadows.Overlooks (Fresh s o files) o.workflowDir pattern →
      Shadows.Searches P (Fresh s o files) files o.workflowDir pattern := fun pattern h =>
    ⟨hdir, hbegin.searched.directory, hbelow hdir, h⟩
  have hnil : Session.Written s registry
      { files := files, root := o.workflowDir, project := project } []
      { files := t, root := o.workflowDir, project := project } := .nil hm hbegin.same rfl rfl
  refine Session.meets_migrateWorkflows hapart hdir o.cancelled.workflows hnil
    (foreseen hm hbelow hsettles hprepare) (hbelow hdir _ hproject) ⟨data, hdata⟩ (hsearch _ ?_)
    (hsearch _ ?_) ⟨hst, rfl, rfl, rfl⟩
  · rintro p ⟨-, w, out, hgenerates, rfl⟩ ⟨names, hne, hnames, hjoin⟩ ps hps
    obtain ⟨init, n, rfl⟩ := (List.eq_nil_or_concat names).resolve_left hne
    rw [List.concat_eq_append] at hnames hjoin
    have hname := (hsettles w out hgenerates).notLegacy
    obtain rfl := Option.some.inj (hps.symm.trans parse?_legacy)
    rw [hjoin, Files.normalize_names hdir hnames, Files.base_key_names hnames] at hname ⊢
    rw [← Glob.matchesName_around_iff _ (hnames n (by simp)).no_slash] at hname
    simpa using hname
  · rintro p ⟨-, w, out, hgenerates, rfl⟩ - ps hps
    exact (hsettles w out hgenerates).notInfo ps hps

/-! ### Activities -/

theorem searches_of_requireDirectory {ov : Overlay Memory} (h : Shadows P U m₀ ov m) {dir : Bytes}
    (hbelow : dir ≠ [] → ∀ p, Below dir p → P p) {u : Unit} {t : Memory}
    (hends : Ends (requireDirectory dir) m u t) :
    t = m ∧ ∀ pattern, Shadows.Overlooks U dir pattern → Shadows.Searches P U m₀ dir pattern := by
  have hne := ne_nil_of_requireDirectory hends
  obtain ⟨hdir, rfl⟩ :=
    (requireDirectory_iff.1 hends).det (isDirectory_ok h.steady.refused hne)
  have hthere := (h.steady.directories _).1 (of_decide_eq_true hdir.symm)
  exact ⟨rfl, fun pattern hoverlooks => ⟨hne, hthere, hbelow hne, hoverlooks⟩⟩

theorem meets_openProject {ov : Overlay Memory} (h : Shadows P U m₀ ov m) {dir : Bytes}
    (hsearch : Shadows.Searches P U m₀ dir "*.csproj") :
    Meets (Shadows P U m₀) (openProject dir) (openProject dir) ov m := by
  have hfile : Meets (Shadows P U m₀) (Project.findFile dir) (Project.findFile dir) ov m := by
    refine (h.findFirst? hsearch).tryCatch.bind fun found _ _ _ _ h => ?_
    cases found with
    | none => exact (Agree.throw _).meets h
    | some path => exact (Agree.pure _).meets h
  refine hfile.bind fun path ov' t _ hends h' => ?_
  obtain ⟨rfl, hbelow, -, c, hc⟩ := h.found_first hsearch (Project.findFile_iff.1 hends)
  exact (h'.read (hsearch.below _ hbelow) hc).tryCatch.bind fun _ _ _ _ _ h =>
    (Agree.ofExcept _).meets h

theorem meets_prepareActivities {ov : Overlay Memory} (h : Shadows P U m₀ ov m)
    (hbelow : o.activities ≠ [] → ∀ p, Below o.activities p → P p)
    (hoverlooks : Shadows.Overlooks U o.activities "*.csproj") :
    Meets (Shadows P U m₀) (prepareActivities o) (prepareActivities o) ov m := by
  have hdir : Meets (Shadows P U m₀) (requireDirectory o.activities) (requireDirectory o.activities)
      ov m :=
    (h.isDirectory o.activities).bind fun _ _ _ _ _ h => (Agree.ite (.throw _) (.pure _)).meets h
  refine hdir.bind fun _ ov' t _ hends h' => ?_
  obtain ⟨rfl, hsearch⟩ := searches_of_requireDirectory h hbelow hends
  exact meets_openProject h' (hsearch _ hoverlooks)

/-- A run of activities goes alike on an overlay, as long as its searches overlook what was written
without being there. -/
theorem activities_shadowed {ov : Overlay Memory} (h : Shadows P U m₀ ov m) (hapart : Apart P)
    (hbelow : o.activities ≠ [] → ∀ p, Below o.activities p → P p)
    (hoverlooks : ∀ pattern ∈ [("*.csproj" : Bytes), s.activities.designerPattern,
      s.activities.filePattern, s.project.assemblyInfo], Shadows.Overlooks U o.activities pattern) :
    Alike (Shadows P U m₀) (activities s o ov) (activities s o m) := by
  refine activities_meets (meets_prepareActivities h hbelow (hoverlooks _ (by simp)))
    fun project ov' t hprepare hst => ?_
  obtain ⟨_, t₁, hdir, hopen⟩ := Ends.bind_iff.1 hprepare
  obtain ⟨rfl, hsearch⟩ := searches_of_requireDirectory h hbelow hdir
  obtain ⟨t₂, data, hfirst, -⟩ := openProject_iff.1 hopen
  obtain ⟨-, hproject, hwas, -⟩ := h.found_first (hsearch _ (hoverlooks _ (by simp))) hfirst
  refine Session.meets_migrateActivities hapart s o.cancelled.activities
    (hbelow (ne_nil_of_requireDirectory hdir) _ hproject) hwas (fun pattern hpattern => ?_)
    ⟨hst, rfl, rfl, rfl⟩
  exact hsearch pattern (hoverlooks pattern (List.mem_cons_of_mem _ hpattern))

/-! ### Dry runs -/

theorem same_onStore_overlay (s : Settings) (c : Command) (o : Options) (files : Memory) :
    Same files (onStore s c o ({ base := files } : Overlay Memory)).files.base :=
  (onStore_mirrors (Overlay.mirrors_below (quiet_same files))
    (⟨rfl, .refl files⟩ : ({ base := files } : Overlay Memory) = _ ∧ _) s c o).files.2

/-- **A dry run of one migration reports what the real run does, and changes nothing.** For activities
that holds whatever is searched for. For workflows it holds when every flow class that the run gives has
a place of its own: no directory stands there, its name is one, and it is neither a legacy file nor
searched for as the assembly information. -/
theorem dry_run_alike (s : Settings) (o : Options) (files : Memory) (hmade : Made files)
    (hrefused : files.refused = []) :
    let dry := fun c => perform s c { o with dryRun := true } files
    let real := fun c => perform s c { o with dryRun := false } files
    ((dry .activities).1.sections = (real .activities).1.sections ∧
      (dry .activities).2.1 = (real .activities).2.1) ∧
    ((∀ w out, Generates s o files w out → Settles s files w out) →
      (dry .workflows).1.sections = (real .workflows).1.sections ∧
        (dry .workflows).2.1 = (real .workflows).2.1) ∧
    ∀ c, (dry c).2.2.table = files.table := by
  intro dry real
  have hm := hmade.sound
  have hapart : ∀ dir : Bytes, Apart fun p => dir ≠ [] ∧ Below dir p :=
    fun dir p q hp hq => apart_below hp.1 hp.2 hq.2
  refine ⟨?_, fun hsettles => ?_, fun c => (same_onStore_overlay s c _ files).table⟩
  · have hbegin : Shadows (fun p => o.activities ≠ [] ∧ Below o.activities p) (fun _ => False) files
        { base := files } files := .of_same hm hrefused (.refl files) rfl rfl rfl
    have halike := activities_shadowed (s := s) hbegin (hapart o.activities)
      (fun hne p hp => ⟨hne, hp⟩) fun _ _ _ hp => hp.elim
    exact ⟨halike.sections, halike.fault?⟩
  · have halike := workflows_shadowed hm hrefused (hapart o.workflowDir)
      (fun hne p hp => ⟨hne, hp⟩) hsettles
    exact ⟨halike.sections, halike.fault?⟩

/-- A flow class with a name and a place that are known settles. -/
theorem settles_of_place {w : Workflow} {out : Transpiled} {q : Bytes} (hname : slash ∉ out.name)
    (hdest : normalize (Session.destination w out) = q) (hplace : files.lookup q ≠ some .directory)
    (hlegacy : ¬ legacyWord <:+: base q)
    (hletters : ∀ c ∈ s.project.assemblyInfo, c ∉ Glob.marks) (hinfo : base q ≠ s.project.assemblyInfo) :
    Settles s files w out := by
  subst hdest
  exact ⟨hname, hplace, hlegacy, Session.passes_letters hletters hinfo⟩

/-- What a run gives are the flow classes of workflows that it finds. -/
theorem Generates.exists_given {registry : Option Registry} {project : Project} {units : List Bytes}
    {t : Memory} {w : Workflow} {out : Transpiled} (h : Generates s o files w out)
    (hprepare : Ends (prepareWorkflows o) files (registry, project, units) t) :
    ∃ path ∈ units, Session.Given s registry files path w out := by
  obtain ⟨registry', project', t', before, path, after, hprepare', -, -, hgiven⟩ := h
  obtain ⟨heq, -⟩ := hprepare'.det hprepare
  obtain ⟨rfl, rfl, rfl⟩ : registry' = registry ∧ project' = project ∧ before ++ path :: after = units := by
    simpa only [Prod.mk.injEq] using heq
  exact ⟨path, by simp, hgiven⟩

/-- The flow classes of two workflows with names of their own settle. -/
theorem settles_pair (w : Workflow) (out : Transpiled)
    (h : Generates oneStep { workflowDir := "/" } (pair "class B\x7b\x7d") w out) :
    Settles oneStep (pair "class B\x7b\x7d") w out := by
  obtain ⟨project, hload, -⟩ := exists_project
  obtain ⟨path, hpath, hgiven⟩ := h.exists_given (prepare_pair _ hload)
  rcases List.mem_cons.1 hpath with rfl | hpath
  · obtain ⟨outA, hA, hdest⟩ := given_first "class B\x7b\x7d"
    obtain ⟨rfl, rfl⟩ := hA.det hgiven
    have hname : slash ∉ outA.name := by
      rw [Workflow.transpile_name hA.2]
      decide
    exact settles_of_place hname hdest nofun (by decide) (by decide)
      (by decide)
  · obtain rfl := List.mem_singleton.1 hpath
    obtain ⟨outB, hB, hdest⟩ := given_apart
    obtain ⟨rfl, rfl⟩ := hB.det hgiven
    have hname : slash ∉ outB.name := by
      rw [Workflow.transpile_name hB.2]
      decide
    exact settles_of_place hname hdest nofun (by decide) (by decide)
      (by decide)

/-- A dry run of two workflows with names of their own. -/
theorem dry_run_alike_pair :
    let dry := fun c => perform oneStep c { workflowDir := "/", dryRun := true } (pair "class B\x7b\x7d")
    let real := fun c => perform oneStep c { workflowDir := "/", dryRun := false }
      (pair "class B\x7b\x7d")
    ((dry .activities).1.sections = (real .activities).1.sections ∧
      (dry .activities).2.1 = (real .activities).2.1) ∧
    ((dry .workflows).1.sections = (real .workflows).1.sections ∧
      (dry .workflows).2.1 = (real .workflows).2.1) ∧
    ∀ c, (dry c).2.2.table = (pair "class B\x7b\x7d").table := by
  obtain ⟨hactivities, hworkflows, hsame⟩ :=
    dry_run_alike oneStep { workflowDir := "/" } (pair "class B\x7b\x7d") (made_pair _) rfl
  exact ⟨hactivities, hworkflows settles_pair, hsame⟩

end Run

end Flowsmith
