import Flowsmith.Proofs.Migration.Units
import Flowsmith.Proofs.Project.Items

/-!
# What the project lists

A migration writes and removes files at once, and edits the project in memory until it is saved. Whatever
step it stops at, the project in memory lists every flow class that the report names as generated and
no file that it names as removed, and the project on file lists the same unless there are edits that
were not saved.

* `Session.Tame` : entries of a report whose paths get along with each other;
* `Session.Kept` : the invariant, which `Kept.generated`, `Kept.removed`, `Kept.saved` and the like say
  one change keeps;
* `keeps_migrateWorkflows`, `keeps_migrateActivities` : the two migrations keep it, also when they fail.
-/

namespace Flowsmith

open Flowsmith.Path Memory Project

namespace Session

/-! ## The invariant -/

/-- Entries whose generated paths can be written in a project file, and are taken neither for a removed
file nor for its items. What was generated and removed before counts for the items. -/
structure Tame (root : Bytes) (generated removed : List Bytes) (es : List Entry) : Prop where
  legal : ∀ g ∈ pathsOf .generate es, Xml.isLegal g = true ∧ 0x0D ∉ g
  apart : ∀ g ∈ generated ++ pathsOf .generate es, ∀ r ∈ removed ++ pathsOf .remove es,
    itemOf g ≠ itemOf r
  places : ∀ g ∈ pathsOf .generate es, ∀ r ∈ pathsOf .remove es,
    normalize (join root g) ≠ normalize (join root r)

theorem Tame.of_snoc {root : Bytes} {G R : List Bytes} {es : List Entry} {e : Entry}
    (h : Tame root G R (es ++ [e])) : Tame root G R es := by
  have hsub : ∀ a, pathsOf a es ⊆ pathsOf a (es ++ [e]) := fun a p hp => by
    rw [pathsOf_snoc]
    exact List.mem_append_left _ hp
  have hsub' : ∀ (before : List Bytes) a, before ++ pathsOf a es ⊆ before ++ pathsOf a (es ++ [e]) :=
    fun before a => List.append_subset.2 ⟨List.subset_append_left _ _,
      fun p hp => List.mem_append_right _ (hsub a hp)⟩
  exact ⟨fun g hg => h.legal g (hsub _ hg),
    fun g hg r hr => h.apart g (hsub' _ _ hg) r (hsub' _ _ hr),
    fun g hg r hr => h.places g (hsub _ hg) r (hsub _ hr)⟩

variable {σ : Type} [FileStore σ] [LawfulStore σ]

/-- The project lists what was generated and nothing that was removed, and the project file lists the
same unless there are edits that were not saved. -/
structure Booked (root path : Bytes) (generated removed : List Bytes) (S : Session σ) : Prop where
  fit : S.project.Fit
  disk : ∃ data p, LawfulStore.fileAt? S.files (normalize path) = some data ∧
    Project.ofBytes path data = .ok p ∧ p.Fit ∧
    (S.project.modified = false → ∀ tag key v, p.Lists tag key v ↔ S.project.Lists tag key v)
  there : ∀ g ∈ pathsOf .generate S.entries,
    (LawfulStore.fileAt? S.files (normalize (join root g))).isSome
  listed : ∀ g ∈ generated ++ pathsOf .generate S.entries,
    S.project.Lists "Compile" "Include" (itemOf g)
  unlisted : ∀ r ∈ removed ++ pathsOf .remove S.entries, S.project.Omits (itemOf r)

/-- The session of a run that began with some files. What is gone of them is named as removed and matches
a pattern; when the entries are tame the project is booked. -/
structure Kept (before : Bytes → Option Bytes) (root path pattern : Bytes)
    (generated removed : List Bytes) (S : Session σ) : Prop where
  sound : LawfulStore.Sound S.files
  root_eq : S.root = root
  path_eq : S.project.path = path
  gone : ∀ q, (before q).isSome → (LawfulStore.fileAt? S.files q).isSome ∨
    ∃ r ∈ pathsOf .remove S.entries, q = normalize (join root r)
  named : ∀ r ∈ pathsOf .remove S.entries, ∃ ps init n, Glob.parse? pattern = some ps ∧
    (∀ k ∈ init ++ [n], IsEntry k) ∧ Glob.matchesName ps n = true ∧
    r = Bytes.joinWith [slash] (init ++ [n])
  booked : Tame root generated removed S.entries → Booked root path generated removed S

variable {before : Bytes → Option Bytes} {root path pattern : Bytes} {G R : List Bytes} {S : Session σ}
  {t : σ}

/-! ## One change -/

/-- Every file is still there after one was written. -/
theorem isSome_of_write {files files' : Bytes → Option Bytes} {place content : Bytes}
    (h : ∀ q, files' q = if q = place then some content else files q) {q : Bytes}
    (hq : (files q).isSome = true) : (files' q).isSome = true := by
  rw [h]
  split
  · rfl
  · exact hq

/-- Files other than the project file and the generated ones may change. -/
theorem Kept.files (hS : Kept before root path pattern G R S) (ht : LawfulStore.Sound t)
    (hproject : LawfulStore.fileAt? t (normalize path) = LawfulStore.fileAt? S.files (normalize path))
    (hthere : ∀ q, (LawfulStore.fileAt? S.files q).isSome → (LawfulStore.fileAt? t q).isSome) :
    Kept before root path pattern G R { S with files := t } where
  sound := ht
  root_eq := hS.root_eq
  path_eq := hS.path_eq
  gone q hq := (hS.gone q hq).imp (hthere q) id
  named := hS.named
  booked htame := by
    have h := hS.booked htame
    obtain ⟨data, p, hdata, hdisk⟩ := h.disk
    exact ⟨h.fit, ⟨data, p, hproject.trans hdata, hdisk⟩, fun g hg => hthere _ (h.there g hg), h.listed,
      h.unlisted⟩

/-- An entry that names nothing generated or removed may be added. -/
theorem Kept.entry (hS : Kept before root path pattern G R S) {e : Entry} (hg : e.action ≠ .generate)
    (hr : e.action ≠ .remove) : Kept before root path pattern G R { S with entries := S.entries ++ [e] } := by
  have hgenerate : pathsOf .generate (S.entries ++ [e]) = pathsOf .generate S.entries := by
    rw [pathsOf_snoc, if_neg hg, List.append_nil]
  have hremove : pathsOf .remove (S.entries ++ [e]) = pathsOf .remove S.entries := by
    rw [pathsOf_snoc, if_neg hr, List.append_nil]
  refine ⟨hS.sound, hS.root_eq, hS.path_eq, fun q hq => ?_, fun r h => hS.named r (hremove ▸ h),
    fun htame => ?_⟩
  · show _ ∨ ∃ r ∈ pathsOf .remove (S.entries ++ [e]), _
    rw [hremove]
    exact hS.gone q hq
  have h := hS.booked htame.of_snoc
  exact ⟨h.fit, h.disk, fun g hmem => h.there g (hgenerate ▸ hmem),
    fun g hmem => h.listed g (hgenerate ▸ hmem), fun r hmem => h.unlisted r (hremove ▸ hmem)⟩

/-- A flow class was written, added to the project and reported. -/
theorem Kept.generated (hS : Kept before root path pattern G R S) {dest content item rel : Bytes} {e : Entry}
    (hseen : Seen root dest) (hrel : Path.relative? root dest = some rel) (hitem : item = itemOf rel)
    (hproject : normalize dest ≠ normalize path) (ht : LawfulStore.Sound t)
    (hfiles : ∀ q, LawfulStore.fileAt? t q =
      if q = normalize dest then some content else LawfulStore.fileAt? S.files q)
    (haction : e.action = .generate) (hpath : e.path = rel) :
    Kept before root path pattern G R { S with
      files := t
      project := S.project.addCompile item
      entries := S.entries ++ [e] } := by
  subst hitem
  have hgenerate : pathsOf .generate (S.entries ++ [e]) = pathsOf .generate S.entries ++ [rel] := by
    rw [pathsOf_snoc, if_pos haction, hpath]
  have hremove : pathsOf .remove (S.entries ++ [e]) = pathsOf .remove S.entries := by
    rw [pathsOf_snoc, if_neg (by rw [haction]; nofun), List.append_nil]
  have hplace : normalize (join root rel) = normalize dest := by
    have h := hseen.normalize_shown
    rwa [shown, hrel] at h
  refine ⟨ht, hS.root_eq, (Project.addCompile_path _ _).trans hS.path_eq,
    fun q hq => ?_, fun r h => hS.named r (hremove ▸ h), fun htame => ?_⟩
  · show (LawfulStore.fileAt? t q).isSome ∨ ∃ r ∈ pathsOf .remove (S.entries ++ [e]), _
    rw [hremove]
    exact (hS.gone q hq).imp_left fun hthere => isSome_of_write hfiles hthere
  have h := hS.booked htame.of_snoc
  obtain ⟨hlegal, hret⟩ := htame.legal rel (by rw [hgenerate]; simp)
  obtain ⟨data, p, hdata, hbytes, hfit, hsame⟩ := h.disk
  refine ⟨h.fit.addCompile (isLegal_itemOf hlegal) (return_not_mem_itemOf hret),
    ⟨data, p, ?_, hbytes, hfit, fun hmodified => ?_⟩, fun g hg => ?_, fun g hg => ?_,
    fun r hr tag htag hlists => ?_⟩
  · rw [hfiles, if_neg (Ne.symm hproject)]
    exact hdata
  · show ∀ tag key v, p.Lists tag key v ↔ (S.project.addCompile (itemOf rel)).Lists tag key v
    have hunchanged := nodes_addCompile hmodified
    rw [hunchanged]
    exact hsame (by rw [← hunchanged]; exact hmodified)
  · show (LawfulStore.fileAt? t (normalize (join root g))).isSome = true
    rw [hfiles]
    split
    · rfl
    · rename_i hother
      rw [show pathsOf .generate (S.entries ++ [e]) = _ from hgenerate, List.mem_append,
        List.mem_singleton] at hg
      rcases hg with hg | rfl
      · exact h.there g hg
      · exact absurd hplace hother
  · rw [show pathsOf .generate (S.entries ++ [e]) = _ from hgenerate, ← List.append_assoc,
      List.mem_append, List.mem_singleton] at hg
    rcases hg with hg | rfl
    · exact lists_addCompile_of_lists h.fit (h.listed g hg)
    · exact lists_addCompile h.fit (itemOf_ne_nil (Path.relative?_ne_nil hrel))
  · rcases lists_of_addCompile h.fit hlists with hlists | heq
    · exact h.unlisted r (hremove ▸ hr) tag htag hlists
    · exact htame.apart rel (by rw [hgenerate]; simp) r hr heq.symm

theorem Kept.removed (hS : Kept before root path pattern G R S) {ps : List Glob.Part} {init : List Bytes}
    {n item : Bytes} {e : Entry} (hps : Glob.parse? pattern = some ps)
    (hnames : ∀ k ∈ init ++ [n], IsEntry k) (hmatch : Glob.matchesName ps n = true)
    (hitem : item = itemOf (Bytes.joinWith [slash] (init ++ [n])))
    (hproject : normalize (join root (Bytes.joinWith [slash] (init ++ [n]))) ≠ normalize path)
    (ht : LawfulStore.Sound t)
    (hfiles : ∀ q, LawfulStore.fileAt? t q =
      if q = normalize (join root (Bytes.joinWith [slash] (init ++ [n]))) then none
      else LawfulStore.fileAt? S.files q)
    (haction : e.action = .remove) (hpath : e.path = Bytes.joinWith [slash] (init ++ [n])) :
    Kept before root path pattern G R { S with
      files := t
      project := (S.project.removeItems item).2
      entries := S.entries ++ [e] } := by
  subst hitem
  generalize hrel : Bytes.joinWith [slash] (init ++ [n]) = rel at *
  have hgenerate : pathsOf .generate (S.entries ++ [e]) = pathsOf .generate S.entries := by
    rw [pathsOf_snoc, if_neg (by rw [haction]; nofun), List.append_nil]
  have hremove : pathsOf .remove (S.entries ++ [e]) = pathsOf .remove S.entries ++ [rel] := by
    rw [pathsOf_snoc, if_pos haction, hpath]
  refine ⟨ht, hS.root_eq, hS.path_eq, fun q hq => ?_, fun r hr => ?_, fun htame => ?_⟩
  · show (LawfulStore.fileAt? t q).isSome ∨ ∃ r ∈ pathsOf .remove (S.entries ++ [e]), _
    rw [hremove, hfiles]
    by_cases hplace : q = normalize (join root rel)
    · exact .inr ⟨rel, by simp, hplace⟩
    · rw [if_neg hplace]
      exact (hS.gone q hq).imp_right fun ⟨r, hr, heq⟩ => ⟨r, List.mem_append_left _ hr, heq⟩
  · rw [show pathsOf .remove (S.entries ++ [e]) = _ from hremove, List.mem_append,
      List.mem_singleton] at hr
    rcases hr with hr | rfl
    · exact hS.named r hr
    · exact ⟨ps, init, n, hps, hnames, hmatch, hrel.symm⟩
  have h := hS.booked htame.of_snoc
  obtain ⟨data, p, hdata, hbytes, hfit, hsame⟩ := h.disk
  refine ⟨h.fit.removeItems, ⟨data, p, ?_, hbytes, hfit, fun hmodified => ?_⟩, fun g hg => ?_,
    fun g hg => ?_, fun r hr tag htag hlists => ?_⟩
  · rw [hfiles, if_neg (Ne.symm hproject)]
    exact hdata
  · obtain ⟨hunmodified, hnodes⟩ := @nodes_withoutItems _ [itemOf rel] hmodified
    intro tag key v
    rw [hsame hunmodified, lists_congr hnodes.symm]
    rfl
  · rw [show pathsOf .generate (S.entries ++ [e]) = _ from hgenerate] at hg
    show (LawfulStore.fileAt? t (normalize (join root g))).isSome = true
    rw [hfiles, if_neg]
    · exact h.there g hg
    · exact htame.places g (hgenerate ▸ hg) rel (by rw [hremove]; simp)
  · rw [show pathsOf .generate (S.entries ++ [e]) = _ from hgenerate] at hg
    exact lists_removeItems h.fit
      (htame.apart g (hgenerate.symm ▸ hg) rel (by rw [hremove]; simp)) (h.listed g hg)
  · rw [show pathsOf .remove (S.entries ++ [e]) = _ from hremove, ← List.append_assoc,
      List.mem_append, List.mem_singleton] at hr
    rcases hr with hr | rfl
    · exact h.unlisted r hr tag htag (lists_of_removeItems hlists)
    · exact omits_removeItems tag htag hlists

theorem Kept.stripped (hS : Kept before root path pattern G R S) {tag key : Bytes} {wanted : Bytes → Bool}
    (htag : tag ∈ removable) (hother : tag ≠ ("Compile" : Bytes)) :
    Kept before root path pattern G R
      { S with project := (S.project.removeWhere tag key wanted).2 } := by
  refine ⟨hS.sound, hS.root_eq, hS.path_eq, hS.gone, hS.named, fun htame => ?_⟩
  have h := hS.booked htame
  obtain ⟨data, p, hdata, hbytes, hfit, hsame⟩ := h.disk
  refine ⟨h.fit.removeWhere htag, ⟨data, p, hdata, hbytes, hfit, fun hmodified => ?_⟩, h.there,
    fun g hg => lists_removeWhere h.fit htag (fun hc => absurd hc hother) (h.listed g hg),
    fun r hr tag htag hlists => h.unlisted r hr tag htag (lists_of_removeWhere hlists)⟩
  obtain ⟨hunmodified, hnodes⟩ := nodes_removeWhere hmodified
  intro tag key v
  rw [hsame hunmodified, lists_congr hnodes.symm]

theorem Kept.saved (hS : Kept before root path pattern G R S) (ht : LawfulStore.Sound t)
    (hfiles : ∀ q, LawfulStore.fileAt? t q =
      if q = normalize path then some S.project.toBytes else LawfulStore.fileAt? S.files q) :
    Kept before root path pattern G R
      { S with files := t, project := { S.project with modified := false } } := by
  refine ⟨ht, hS.root_eq, hS.path_eq,
    fun q hq => (hS.gone q hq).imp_left fun hthere => isSome_of_write hfiles hthere, hS.named,
    fun htame => ?_⟩
  have h := hS.booked htame
  obtain ⟨p, hbytes, hfit, hlists⟩ := exists_read_back h.fit
  refine ⟨⟨h.fit.root, h.fit.flat, h.fit.writable⟩,
    ⟨S.project.toBytes, p, ?_, hS.path_eq ▸ hbytes, hfit, fun _ => hlists⟩, fun g hg => ?_, h.listed,
    h.unlisted⟩
  · rw [hfiles, if_pos rfl]
  · exact isSome_of_write hfiles (h.there g hg)

/-! ## Steps -/

omit [FileStore σ] [LawfulStore σ] in
theorem normalize_ne_of_passes {ps : List Glob.Part} {found : Bytes} (hroot : root ≠ [])
    (h : Passes pattern path) (hps : Glob.parse? pattern = some ps)
    (hfound : LawfulStore.Found ps root found) : normalize found ≠ normalize path := by
  obtain ⟨init, n, hnames, hmatch, rfl⟩ := hfound
  intro heq
  have hpass := h ps hps
  rw [← heq, Files.normalize_names hroot hnames, Files.base_key_names hnames, hmatch] at hpass
  cases hpass

theorem keeps_onFiles_kept {α : Type} {f : FileM σ α}
    (h : ∀ files, Keeps (fun t => LawfulStore.Sound t ∧ LawfulStore.fileAt? t = files) f) :
    Keeps (Kept before root path pattern G R) (onFiles f) := by
  intro S hS
  rw [ran_onFiles]
  obtain ⟨ht, hfiles⟩ := h _ ⟨hS.sound, rfl⟩
  exact hS.files ht (congrFun hfiles _) fun q hq => by rwa [hfiles]

omit [FileStore σ] [LawfulStore σ] in
/-- A change of files may fail, and is followed by something when it does not. -/
theorem keeps_change {α : Type} {I : Session σ → Prop} {f : FileM σ α} {rest : α → SessionM σ Unit}
    (h : ∀ S, I S → (∃ e t, ran f S.files = (.error e, t) ∧ I { S with files := t }) ∨
      ∃ a t, ran f S.files = (.ok a, t) ∧ I (ran (rest a) { S with files := t }).2) :
    Keeps I (onFiles f >>= rest) := by
  intro S hS
  rw [ran_bind, ran_onFiles]
  rcases h S hS with ⟨e, t, hran, hkept⟩ | ⟨a, t, hran, hkept⟩
  · rw [hran]
    exact hkept
  · rw [hran]
    exact hkept

theorem keeps_removeFile {ps : List Glob.Part} {found : Bytes} (hroot : root ≠ [])
    (hpass : Passes pattern path) (hps : Glob.parse? pattern = some ps)
    (hfound : LawfulStore.Found ps root found) :
    Keeps (Kept before root path pattern G R) (removeFile (σ := σ) found) := by
  have hproject := normalize_ne_of_passes hroot hpass hps hfound
  obtain ⟨init, n, hnames, hmatch, rfl⟩ := hfound
  refine keeps_change fun S hS => ?_
  obtain ⟨r, t, hran, ht, hfiles⟩ := LawfulStore.remove_wrapped _ _ hS.sound
  cases r with
  | error e =>
    simp only [reduceCtorEq, false_and, if_false] at hfiles
    exact .inl ⟨e, t, hran, hS.files ht (hfiles _) fun q hq => by rwa [hfiles]⟩
  | ok u =>
    simp only [true_and] at hfiles
    refine .inr ⟨(), t, hran, ?_⟩
    have hrel := Path.relative?_join hroot hnames (by simp)
    have hitem : Project.relativePath S.root (join root (Bytes.joinWith [slash] (init ++ [n]))) =
        .ok (itemOf (Bytes.joinWith [slash] (init ++ [n]))) := by
      rw [hS.root_eq, Project.relativePath, hrel]
      rfl
    have hshown : shown S.root (join root (Bytes.joinWith [slash] (init ++ [n]))) =
        Bytes.joinWith [slash] (init ++ [n]) := by
      rw [hS.root_eq, shown, hrel]
      rfl
    have hrest := hS.removed hps hnames hmatch rfl hproject ht hfiles
      (e := removalEntry S.root (join root (Bytes.joinWith [slash] (init ++ [n])))
        (S.project.removeItems (itemOf (Bytes.joinWith [slash] (init ++ [n])))).1) rfl hshown
    simp only [ran_get_bind, hitem]
    exact hrest

theorem keeps_removeFiles (hroot : root ≠ []) (hpass : Passes pattern path) :
    Keeps (Kept before root path pattern G R) (removeFiles (σ := σ) pattern) := by
  intro S hS
  unfold removeFiles
  rw [ran_get_bind, hS.root_eq]
  refine keeps_onFiles_bind (keeps_onFiles_kept fun files =>
    (Files.keeps_find (LawfulStore.quiet files) _ _).tryCatch fun _ => .throw _) ?_ hS
  intro S found t hS hfind hnext
  obtain ⟨ps, hps, hfound⟩ := LawfulStore.found_of_find hS.sound hroot (Ends.tryCatch_iff.1 hfind)
  exact Keeps.forM (fun path hpath => keeps_removeFile hroot hpass hps (hfound path hpath)) hnext

theorem keeps_editFile {file : Bytes} (hfile : normalize file ≠ normalize path)
    (edit : Bytes → Except Fault Bytes) :
    Keeps (Kept before root path pattern G R) (editFile (σ := σ) file edit) := by
  refine (keeps_onFiles_kept fun files =>
    ((LawfulStore.quiet files).read file).tryCatch fun _ => .throw _).bind fun text => ?_
  refine (Keeps.ofExcept _).bind fun edited => .ite ?_ (.pure _)
  refine keeps_change fun S hS => ?_
  obtain ⟨r, t, hran, ht, hfiles⟩ := LawfulStore.write_wrapped _ _ _ hS.sound
  have hkept : Kept before root path pattern G R { S with files := t } := by
    refine hS.files ht ?_ fun q hq => ?_
    · rw [hfiles, if_neg fun h => hfile h.2.symm]
    · rw [hfiles]
      split
      · rfl
      · exact hq
  cases r with
  | error e => exact .inl ⟨e, t, hran, hkept⟩
  | ok u => exact .inr ⟨(), t, hran, hkept.entry nofun nofun⟩

theorem keeps_saveProject (detail : Bytes) :
    Keeps (Kept before root path pattern G R) (saveProject (σ := σ) detail) := by
  intro S hS
  unfold saveProject
  rw [ran_get_bind]
  split
  · rw [ran_bind, ran_onFiles, Project.save, ran_bind]
    obtain ⟨r, t, hran, ht, hfiles⟩ := LawfulStore.write_wrapped (fun f => f.wrap .fileWrite
      (("failed to write project file " : Bytes) ++ S.project.path) [("file", .text S.project.path)])
      S.project.path S.project.toBytes hS.sound
    rw [hran]
    cases r with
    | error e =>
      simp only [reduceCtorEq, false_and, if_false] at hfiles
      exact hS.files ht (hfiles _) fun q hq => by rwa [hfiles]
    | ok u =>
      simp only [true_and, hS.path_eq] at hfiles
      exact (hS.saved ht hfiles).entry (by rintro ⟨⟩) (by rintro ⟨⟩)
  · exact hS

theorem keeps_dropLegacyReferences {o : Settings.Project} (hroot : root ≠ [])
    (hpass : Passes o.assemblyInfo path) :
    Keeps (Kept before root path pattern G R) (dropLegacyReferences (σ := σ) o) := by
  have hstrip : ∀ {tag key : Bytes} {wanted : Bytes → Bool}, tag ∈ removable → tag ≠ ("Compile" : Bytes) →
      Keeps (Kept before root path pattern G R)
        (onProject (σ := σ) fun p => p.removeWhere tag key wanted) := by
    intro tag key wanted htag hother S hS
    exact hS.stripped htag hother
  refine (hstrip (by decide) (by decide)).bind fun refs => (hstrip (by decide) (by decide)).bind
    fun imports => (keeps_saveProject _).bind fun _ => ?_
  intro S hS
  rw [ran_get_bind, hS.root_eq]
  refine keeps_onFiles_bind (keeps_onFiles_kept fun files =>
    (Files.keeps_findFirst? (LawfulStore.quiet files) _ _).tryCatch fun _ => .throw _) ?_ hS
  intro S info t hS hfind hnext
  cases info with
  | none => exact hnext
  | some file =>
    obtain ⟨ps, hps, hfound⟩ :=
      LawfulStore.found_of_findFirst? hS.sound hroot (Ends.tryCatch_iff.1 hfind)
    exact keeps_editFile (normalize_ne_of_passes hroot hpass hps hfound) _ hnext

/-! ## Workflows -/

theorem keeps_migrateWorkflow (hroot : root ≠ []) (hpath : (".csproj" : Bytes) <:+ base (normalize path))
    (s : Settings) (registry : Option Registry) {unit : Bytes} (hunit : Path.Below root unit) :
    Keeps (Kept before root path pattern G R) (migrateWorkflow (σ := σ) s registry unit) := by
  refine keeps_onFiles_bind (keeps_onFiles_kept fun files =>
    Workflow.keeps_load (LawfulStore.quiet files) s registry unit) fun S w t hS hload hnext => ?_
  refine (Keeps.ofExcept _).bind (fun out => ?_) hnext
  have hseen := seen_destination hunit hroot hload out
  -- no project file has the ending of a source
  have hproject : normalize (destination w out) ≠ normalize path := by
    obtain ⟨init, n, hn, hsuffix, hdest⟩ := normalize_destination hload out
    intro heq
    rw [← heq, hdest, base_key init (hn n (by simp))] at hpath
    have hshort := List.suffix_of_suffix_length_le hsuffix hpath (by decide)
    exact absurd hshort (by decide)
  refine keeps_change fun S hS => ?_
  obtain ⟨r, t, hran, ht, hfiles⟩ := LawfulStore.write_wrapped _ (destination w out) _ hS.sound
  cases r with
  | error e =>
    simp only [reduceCtorEq, false_and, if_false] at hfiles
    exact .inl ⟨e, t, hran, hS.files ht (hfiles _) fun q hq => by rwa [hfiles]⟩
  | ok u =>
    simp only [true_and] at hfiles
    refine .inr ⟨(), t, hran, ?_⟩
    obtain ⟨rel, hrel, -⟩ := id hseen
    have hitem : Project.relativePath S.root (destination w out) = .ok (itemOf rel) := by
      rw [hS.root_eq, Project.relativePath, hrel]
      rfl
    have hshown : shown S.root (destination w out) = rel := by
      rw [hS.root_eq, shown, hrel]
      rfl
    have hrest := hS.generated hseen hrel rfl hproject ht hfiles
      (e := generateEntry S.root unit w out) rfl hshown
    rw [ran_get_bind]
    show Kept before root path pattern G R
      (ran (MonadExcept.ofExcept (Project.relativePath S.root (destination w out)) >>= _) _).2
    rw [hitem]
    exact hrest

theorem keeps_migrateUnits (hroot : root ≠ []) (hpath : (".csproj" : Bytes) <:+ base (normalize path))
    (s : Settings) (registry : Option Registry) (cancelled : List Bytes → Bool) {units : List Bytes}
    (hunits : ∀ unit ∈ units, Path.Below root unit) :
    Keeps (Kept before root path pattern G R) (migrateUnits (σ := σ) s registry cancelled units) := by
  induction units with
  | nil => exact .pure _
  | cons unit units ih =>
    refine (Keeps.ite (.throw _) (.pure _)).bind fun _ => Keeps.bind ?_ fun _ => ih ?_
    · exact keeps_migrateWorkflow hroot hpath s registry (hunits unit List.mem_cons_self)
    · exact fun u hu => hunits u (List.mem_cons_of_mem _ hu)

/-- A migration of workflows keeps the books, wherever it stops. -/
theorem keeps_migrateWorkflows (hroot : root ≠ [])
    (hpath : (".csproj" : Bytes) <:+ base (normalize path)) {s : Settings}
    (hlegacy : Passes "*.xoml*" path) (hinfo : Passes s.project.assemblyInfo path)
    (registry : Option Registry) (cancelled : List Bytes → Bool) {units : List Bytes}
    (hunits : ∀ unit ∈ units, Path.Below root unit) :
    Keeps (Kept before root path "*.xoml*" G R) (migrateWorkflows (σ := σ) s registry cancelled units) :=
  (keeps_migrateUnits hroot hpath s registry cancelled hunits).bind fun _ =>
    (keeps_removeFiles hroot hlegacy).bind fun _ => keeps_dropLegacyReferences hroot hinfo

/-! ## Activities -/

theorem keeps_migrateSources (s : Settings) (cancelled : List Bytes → Bool) {files : List Bytes}
    (hfiles : ∀ file ∈ files, normalize file ≠ normalize path) :
    Keeps (Kept before root path pattern G R) (migrateSources (σ := σ) s cancelled files) := by
  induction files with
  | nil => exact .pure _
  | cons file files ih =>
    refine (Keeps.ite (.throw _) (.pure _)).bind fun _ => Keeps.bind ?_ fun _ => ih ?_
    · exact keeps_editFile (hfiles file List.mem_cons_self) _
    · exact fun f hf => hfiles f (List.mem_cons_of_mem _ hf)

/-- A migration of activities keeps the books, wherever it stops. -/
theorem keeps_migrateActivities (hroot : root ≠ []) {s : Settings}
    (hdesigner : Passes s.activities.designerPattern path)
    (hsource : Passes s.activities.filePattern path) (hinfo : Passes s.project.assemblyInfo path)
    (cancelled : List Bytes → Bool) :
    Keeps (Kept before root path s.activities.designerPattern G R)
      (migrateActivities (σ := σ) s cancelled) := by
  refine (keeps_removeFiles hroot hdesigner).bind fun _ S hS => ?_
  rw [ran_get_bind, hS.root_eq]
  refine keeps_onFiles_bind (keeps_onFiles_kept fun files =>
    (Files.keeps_find (LawfulStore.quiet files) _ _).tryCatch fun _ => .throw _) ?_ hS
  intro S found t hS hfind hnext
  obtain ⟨ps, hps, hfound⟩ := LawfulStore.found_of_find hS.sound hroot (Ends.tryCatch_iff.1 hfind)
  exact (keeps_migrateSources s cancelled fun file hfile =>
    normalize_ne_of_passes hroot hsource hps (hfound file hfile)).bind
      (fun _ => keeps_dropLegacyReferences hroot hinfo) hnext

end Session

namespace Run

/-! ## The project file of a directory -/

def OnFile (m : Memory) (path : Bytes) (p : Project) : Prop :=
  ∃ data, m.fileAt? (normalize path) = some data ∧ Project.ofBytes path data = .ok p

/-- Where the project is found, and that no pattern of the clean-up matches it. -/
theorem project_of_open {dir : Bytes} {m t : Memory} {p : Project} (hm : Sound m) (hdir : dir ≠ [])
    (hopen : Ends (openProject dir) m p t) (hname : ¬ legacyWord <:+: base (normalize p.path)) :
    Same m t ∧ OnFile m p.path p ∧ (".csproj" : Bytes) <:+ base (normalize p.path) ∧
      Session.Passes "*.xoml*" p.path := by
  have hsame := (keeps_openProject (quiet_same m) dir).ends (.refl m) hopen
  obtain ⟨t₁, data, hfirst, hread, hbytes⟩ := openProject_iff.1 hopen
  obtain ⟨rfl, -⟩ := Files.findFirst?_ends hm hdir hfirst
  obtain ⟨-, hdata, -⟩ := read_iff.1 hread
  obtain ⟨init, n, hn, hsuffix, hpath⟩ := normalize_of_openProject hm hdir hopen
  rw [hpath, base_key init (hn n (by simp))] at hname ⊢
  refine ⟨hsame, ⟨data, hdata, hbytes⟩, hsuffix, fun ps hps => ?_⟩
  obtain rfl := Option.some.inj (hps.symm.trans parse?_legacy)
  rw [hpath, base_key init (hn n (by simp))]
  exact eq_false_of_ne_true fun hmatch =>
    hname ((Glob.matchesName_around_iff _ (hn n (by simp)).no_slash).1 hmatch)

end Run

end Flowsmith
