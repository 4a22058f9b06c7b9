import Flowsmith.Proofs.Migration.Account
import Flowsmith.Proofs.Migration.Cleanup
import Flowsmith.Proofs.Migration.Listing
import Flowsmith.Proofs.Migration.Migrator
import Flowsmith.Proofs.Migration.Written
import Flowsmith.Proofs.Project.Edited

/-!
# The project file and the directory

When a migration of workflows has ended the project file is in step with its directory: the files that
are gone are not listed, the flow classes are there and listed, and nothing refers to the legacy engine.

* `Session.tame_of_names` : what the names in a report have to be like;
* `Kept.begin`, `Kept.in_step` : the books at the beginning and at the end of a migration;
* `Run.workflows_in_step` : what a migration of workflows leaves behind;
* `Run.workflows_out_of_step` : names that differ in their separators are not told apart.
-/

namespace Flowsmith

open Flowsmith.Path Memory Project

namespace Session

variable {before : Bytes → Option Bytes} {root path pattern : Bytes} {G R : List Bytes}

/-! ## Names in reports -/

/-- What a path ends in is what the name ends in that it leads to. -/
theorem suffix_base {n rel : Bytes} (hroot : root ≠ []) (hslash : slash ∉ n) (hlength : 2 < n.length)
    (h : n <:+ rel) : n <:+ base (normalize (join root rel)) := by
  obtain ⟨init, last, hresolve, hlast, hsuffix⟩ := exists_resolve_snoc hslash hlength h (fromRoot root)
  rw [normalize_eq, fromRoot_join hroot, hresolve, base_key init hlast]
  exact hsuffix

/-- A path from the root of a project to a legacy file, without a backslash in its name. -/
def IsLegacy (rel : Bytes) : Prop :=
  ∃ init n, (∀ k ∈ init ++ [n], IsEntry k) ∧ legacyWord <:+: n ∧ 0x5C ∉ n ∧
    rel = Bytes.joinWith [slash] (init ++ [n])

/-- Entries are tame when all removed files are legacy files and no generated one is. -/
theorem tame_of_names {es : List Entry} (hroot : root ≠ [])
    (hlegal : ∀ g ∈ pathsOf .generate es, Xml.isLegal g = true ∧ 0x0D ∉ g)
    (hgenerated : ∀ g ∈ G ++ pathsOf .generate es, ¬ legacyWord <:+: base (normalize (join root g)))
    (hremoved : ∀ r ∈ R ++ pathsOf .remove es, IsLegacy r) : Tame root G R es := by
  refine ⟨hlegal, fun g hg r hr heq => ?_, fun g hg r hr heq => ?_⟩
  · obtain ⟨init, n, hnames, hword, hback, rfl⟩ := hremoved r hr
    have hn := hnames n (by simp)
    have hlength : 2 < n.length := Nat.lt_of_lt_of_le (by decide) hword.length_le
    have hend : n <:+ Bytes.joinWith [slash] (init ++ [n]) := by
      cases init with
      | nil => exact List.suffix_refl n
      | cons k init =>
        rw [Bytes.joinWith_append (by simp) (by simp)]
        exact (List.suffix_cons _ _).trans (List.suffix_append _ _)
    -- as the last name of an item it ends the generated path too
    have hitem := (suffix_itemOf_iff hn.no_slash hback).2 hend
    rw [← heq, suffix_itemOf_iff hn.no_slash hback] at hitem
    exact hgenerated g hg (hword.trans (suffix_base hroot hn.no_slash hlength hitem).isInfix)
  · obtain ⟨init, n, hnames, hword, -, rfl⟩ := hremoved r (List.mem_append_right _ hr)
    refine hgenerated g (List.mem_append_right _ hg) ?_
    rw [heq, Files.normalize_names hroot hnames, Files.base_key_names hnames]
    exact hword

section Books

variable {σ : Type} [FileStore σ] [LawfulStore σ] {S : Session σ}

/-- The files that a clean-up names as removed are legacy files. -/
theorem Kept.isLegacy (h : Kept before root path "*.xoml*" G R S) (hroot : root ≠ [])
    (hback : ∀ r ∈ pathsOf .remove S.entries, 0x5C ∉ base (normalize (join root r))) :
    ∀ r ∈ pathsOf .remove S.entries, IsLegacy r := by
  intro r hr
  obtain ⟨ps, init, n, hps, hnames, hmatch, rfl⟩ := h.named r hr
  obtain rfl := Option.some.inj (hps.symm.trans Run.parse?_legacy)
  refine ⟨init, n, hnames, (Glob.matchesName_around_iff _ (hnames n (by simp)).no_slash).1 hmatch, ?_, rfl⟩
  have hclean := hback _ hr
  rwa [Files.normalize_names hroot hnames, Files.base_key_names hnames] at hclean

/-! ## The books of a migration -/

/-- The project that was loaded lists what it did when it was saved. -/
theorem Kept.opened {files t : σ} {p : Project} {data : Bytes} (ht : LawfulStore.Sound t)
    (hsame : LawfulStore.fileAt? t = LawfulStore.fileAt? files) (hfit : p.Fit)
    (hdata : LawfulStore.fileAt? files (normalize p.path) = some data)
    (hbytes : Project.ofBytes p.path data = .ok p)
    (hlisted : ∀ g ∈ G, p.Lists "Compile" "Include" (itemOf g))
    (hunlisted : ∀ r ∈ R, p.Omits (itemOf r)) :
    Kept (LawfulStore.fileAt? files) root p.path pattern G R { files := t, root := root, project := p } := by
  refine ⟨ht, rfl, rfl, fun q hq => .inl ?_, nofun, fun _ => ⟨hfit, ?_, nofun, ?_, ?_⟩⟩
  · show (LawfulStore.fileAt? t q).isSome = true
    rwa [hsame]
  · exact ⟨data, p, by rw [← hdata, ← hsame], hbytes, hfit, fun _ _ _ _ => Iff.rfl⟩
  · intro g hg
    exact hlisted g ((List.mem_append.1 hg).resolve_right nofun)
  · intro r hr
    exact hunlisted r ((List.mem_append.1 hr).resolve_right nofun)

theorem Kept.on_disk (h : Kept before root path pattern G R S) (htame : Tame root G R S.entries)
    (hsaved : S.project.modified = false) :
    ∃ data q, LawfulStore.fileAt? S.files (normalize path) = some data ∧ Project.ofBytes path data = .ok q ∧
      (∀ tag key v, q.Lists tag key v ↔ S.project.Lists tag key v) ∧
      (∀ r ∈ R ++ pathsOf .remove S.entries, q.Omits (itemOf r)) ∧
      ∀ g ∈ G ++ pathsOf .generate S.entries, q.Lists "Compile" "Include" (itemOf g) := by
  obtain ⟨-, ⟨data, q, hdata, hbytes, -, hlists⟩, -, hlisted, hunlisted⟩ := h.booked htame
  refine ⟨data, q, hdata, hbytes, hlists hsaved, fun r hr tag htag hq => ?_, fun g hg => ?_⟩
  · exact hunlisted r hr tag htag ((hlists hsaved tag _ _).1 hq)
  · exact (hlists hsaved _ _ _).2 (hlisted g hg)

theorem Kept.lost (h : Kept before root path pattern G R S) (hroot : root ≠ []) {names : List Bytes}
    (hnames : ∀ k ∈ names, IsEntry k) (hthere : (before (key (fromRoot root ++ names))).isSome)
    (hgone : LawfulStore.fileAt? S.files (key (fromRoot root ++ names)) = none) :
    Bytes.joinWith [slash] names ∈ pathsOf .remove S.entries := by
  rcases h.gone _ hthere with hstill | ⟨r, hr, hplace⟩
  · rw [hgone] at hstill
    cases hstill
  · obtain ⟨ps, init, n, -, hentries, -, rfl⟩ := h.named r hr
    rw [Files.normalize_names hroot hentries] at hplace
    have hall : ∀ {ns : List Bytes}, (∀ k ∈ ns, IsEntry k) → ∀ k ∈ fromRoot root ++ ns, IsEntry k :=
      fun hns k hk => (List.mem_append.1 hk).elim (isEntry_fromRoot root k) (hns k)
    have heq := key_inj (hall hnames) (hall hentries) hplace
    rw [List.append_cancel_left heq]
    exact hr

end Books

variable {S : Session Memory} {m t : Memory}

/-- The books of a migration in memory begin with the project that was loaded. -/
theorem Kept.begin {p : Project} (hm : Sound m) (hsame : Same m t) (hfit : p.Fit)
    (hfile : Run.OnFile m p.path p)
    (hlisted : ∀ g ∈ G, p.Lists "Compile" "Include" (itemOf g))
    (hunlisted : ∀ r ∈ R, p.Omits (itemOf r)) :
    Kept m.fileAt? root p.path pattern G R ({ files := t, root := root, project := p } : Session Memory) := by
  obtain ⟨data, hdata, hbytes⟩ := hfile
  have hfiles : LawfulStore.fileAt? t = LawfulStore.fileAt? m := hsame.fileAt?
  exact .opened (hm.congr hsame.table) hfiles hfit hdata hbytes hlisted hunlisted

theorem Kept.in_step (h : Kept before root path pattern G R S) (htame : Tame root G R S.entries)
    (hsaved : S.project.modified = false) :
    ∃ q, Run.OnFile S.files path q ∧ (∀ tag key v, q.Lists tag key v ↔ S.project.Lists tag key v) ∧
      (∀ r ∈ R ++ pathsOf .remove S.entries, q.Omits (itemOf r)) ∧
      ∀ g ∈ G ++ pathsOf .generate S.entries, q.Lists "Compile" "Include" (itemOf g) := by
  obtain ⟨data, q, hdata, hbytes, hlists⟩ := h.on_disk htame hsaved
  exact ⟨q, ⟨data, hdata, hbytes⟩, hlists⟩

/-! ## Legacy files -/

/-- Migrating workflows adds entries for flow classes only. -/
theorem entries_migrateUnits {s : Settings} {registry : Option Registry} {cancelled : List Bytes → Bool}
    {units : List Bytes} {S S' : Session Memory} {u : Unit} (hroot : S.root ≠ [])
    (hunits : ∀ path ∈ units, Path.Below S.root path)
    (h : Ends (migrateUnits s registry cancelled units) S u S') :
    S.entries <+: S'.entries ∧ pathsOf .remove S'.entries = pathsOf .remove S.entries := by
  obtain ⟨es, hentries, hes⟩ := migrateUnits_entries s registry cancelled hroot hunits
  rw [show ran (migrateUnits s registry cancelled units) S = _ from h] at hentries
  replace hentries : S'.entries = S.entries ++ es := hentries
  have hnone : es.filter (·.action == .remove) = [] := by
    refine List.filter_eq_nil_iff.2 fun e he => ?_
    obtain ⟨path, w, out, -, rfl⟩ := (hes e).1 he
    nofun
  rw [hentries]
  exact ⟨List.prefix_append _ _, by rw [pathsOf, List.filter_append, hnone, List.append_nil, pathsOf]⟩

/-- While flow classes are written that are no legacy files, the legacy files stay as they are. -/
theorem legacy_kept {s : Settings} {registry : Option Registry} {cancelled : List Bytes → Bool}
    {units : List Bytes}
    {S S' : Session Memory} {u : Unit} (hS : Sound S.files) (hroot : S.root ≠ [])
    (hunits : ∀ path ∈ units, Path.Below S.root path)
    (hnames : ∀ g ∈ pathsOf .generate S'.entries, ¬ legacyWord <:+: base (normalize (join S.root g)))
    (h : Ends (migrateUnits s registry cancelled units) S u S') :
    ∀ q, legacyWord <:+: base q → S'.files.fileAt? q = S.files.fileAt? q := by
  induction units generalizing S with
  | nil =>
    obtain ⟨-, rfl⟩ := Ends.pure_iff.1 h
    exact fun _ _ => rfl
  | cons path units ih =>
    obtain ⟨-, T, hfirst, hrest⟩ := migrateUnits_cons_iff.1 h
    obtain ⟨w, out, t, t', item, hload, -, hwrite, -, hT⟩ := migrateWorkflow_iff.1 hfirst
    have hquiet := (Workflow.keeps_load (quiet_same _) s registry path).ends (.refl S.files) hload
    obtain ⟨hsound, -, hfiles⟩ := write_ends (hS.congr hquiet.table) hwrite
    have hrootT : T.root = S.root := by rw [← hT]
    have hunitsT : ∀ p ∈ units, Path.Below T.root p := fun p hp => by
      rw [hrootT]
      exact hunits p (List.mem_cons_of_mem _ hp)
    have hsoundT : Sound T.files := by rwa [← hT]
    have hkept := ih hsoundT (by rwa [hrootT]) hunitsT (by rwa [hrootT]) hrest
    refine fun q hq => (hkept q hq).trans ?_
    rw [← hT, hfiles, hquiet.fileAt?, if_neg]
    rintro rfl
    -- what was written is reported
    have hentry : generateEntry S.root path w out ∈ S'.entries := by
      refine (entries_migrateUnits (by rwa [hrootT]) hunitsT hrest).1.subset ?_
      rw [← hT]
      exact List.mem_append_right _ List.mem_cons_self
    have hseen := seen_destination (hunits path List.mem_cons_self) hroot hload out
    refine hnames _ (mem_pathsOf.2 ⟨_, hentry, rfl, rfl⟩) ?_
    rw [← hseen.normalize_shown] at hq
    exact hq

end Session

namespace Run

open Session

variable {s : Settings} {dir : Bytes} {registry : Option Registry} {cancelled : List Bytes → Bool} {m t : Memory}
  {p : Project}

/-! ## Migrations of workflows -/

/-- The generated paths can be written in a project file, and none is that of a legacy file. -/
def Outcome.Plain {σ : Type} (dir : Bytes) (out : Outcome σ) : Prop :=
  ∀ g ∈ out.reported .generate,
    Xml.isLegal g = true ∧ 0x0D ∉ g ∧ ¬ legacyWord <:+: base (normalize (join dir g))

/-- The project `q` is in step with the directory of a migration that began with the files `m`. -/
structure InStep (s : Settings) (dir : Bytes) (m : Memory) (out : Outcome Memory) (q : Project) : Prop where
  legacy : ∀ path c, out.files.fileAt? path = some c → fromRoot dir <+: fromRoot (directory path) →
    ¬ legacyWord <:+: base path
  lost : ∀ names, (∀ k ∈ names, IsEntry k) → (m.fileAt? (key (fromRoot dir ++ names))).isSome →
    out.files.fileAt? (key (fromRoot dir ++ names)) = none →
    q.Omits (itemOf (Bytes.joinWith [slash] names))
  references : ∀ v ∈ s.project.legacyReferences, ¬ q.Lists "Reference" "Include" v
  targets : ¬ q.Lists "Import" "Project" s.project.workflowTargets
  there : ∀ g ∈ out.reported .generate, (out.files.fileAt? (normalize (join dir g))).isSome
  listed : ∀ g ∈ out.reported .generate, q.Lists "Compile" "Include" (itemOf g)

/-- **After a migration of workflows the project file is in step with its directory.** No legacy file is
left. The project lists no file that is gone and nothing of the legacy engine, and every flow class that
is reported is there and listed. No legacy file may have a backslash in its name, which its item would
not tell from a slash. -/
theorem workflows_in_step (hm : Made m) (hdir : dir ≠ []) (hopen : Ends (openProject dir) m p t)
    (hplain : p.Plain) (hname : ¬ legacyWord <:+: base (normalize p.path))
    (hinfo : Passes s.project.assemblyInfo p.path)
    (hend : (workflowsIn s dir registry cancelled m).fault? = none)
    (hgenerated : (workflowsIn s dir registry cancelled m).Plain dir)
    (hremoved : ∀ r ∈ (workflowsIn s dir registry cancelled m).reported .remove,
      0x5C ∉ base (normalize (join dir r))) :
    ∃ q, OnFile (workflowsIn s dir registry cancelled m).files p.path q ∧
      InStep s dir m (workflowsIn s dir registry cancelled m) q := by
  replace hm := hm.sound
  obtain ⟨p', units, t', S, hopen', hmigrate, heq⟩ := exists_workflowsIn hend
  obtain ⟨t₁, hopen', hunits⟩ := openWorkflows_iff.1 hopen'
  obtain ⟨rfl, rfl⟩ := hopen.det hopen'
  obtain ⟨hsame, hfile, hproject, hpass⟩ := project_of_open hm hdir hopen hname
  have ht : Sound t := hm.congr hsame.table
  have hbelow := LawfulStore.below_of_find ht hdir hunits
  obtain ⟨rfl, -⟩ := Files.find_ends ht hdir hunits
  obtain ⟨data, -, hbytes⟩ := id hfile
  have hbegin : Kept m.fileAt? dir p.path "*.xoml*" [] []
      ({ files := t', root := dir, project := p } : Session Memory) :=
    .begin hm hsame (hplain.fit hbytes) hfile nofun nofun
  have hkept := (keeps_migrateWorkflows hdir hproject hpass hinfo registry cancelled hbelow).ends hbegin
    hmigrate
  rw [heq] at hgenerated hremoved ⊢
  simp only [Outcome.Plain, reported_one] at hgenerated hremoved
  have htame : Tame dir [] [] S.entries :=
    tame_of_names hdir (fun g hg => ⟨(hgenerated g hg).1, (hgenerated g hg).2.1⟩)
      (fun g hg => (hgenerated g hg).2.2) (hkept.isLegacy hdir hremoved)
  obtain ⟨S₁, S₂, hwrite, hremove, hdrop⟩ := migrateWorkflows_iff.1 hmigrate
  obtain ⟨hsaved, hnodes, -⟩ := dropLegacyReferences_frame hdrop
  obtain ⟨q, hq, hlists, hunlisted, hlisted⟩ := hkept.in_step htame hsaved
  have hstripped : ∀ tag key v, q.Lists tag key v → (stripped s.project S₂.project).Lists tag key v :=
    fun tag key v h => (lists_congr hnodes).1 ((hlists tag key v).1 h)
  have hwritten := (keeps_migrateUnits hdir hproject s registry cancelled hbelow).ends hbegin hwrite
  refine ⟨q, hq, ?_, ?_, ?_, ?_, ?_, ?_⟩
  · intro path c hfile hinside
    exact cleanup_gone hwritten.sound (by rwa [hwritten.root_eq]) (by rwa [hwritten.path_eq]) hremove hdrop
      hfile (by rwa [hwritten.root_eq])
  · intro names hnames hthere hgone
    exact hunlisted _ (hkept.lost hdir hnames hthere hgone)
  · intro v hv h
    refine not_lists_removeWhere ?_ (lists_of_removeWhere (hstripped _ _ _ h))
    simpa using hv
  · intro h
    exact not_lists_removeWhere (by simp) (hstripped _ _ _ h)
  · rw [reported_one]
    exact (hkept.booked htame).there
  · rw [reported_one]
    exact hlisted

/-! ## What is reported -/

/-- A migration without a fault reports the flow classes it wrote, and the legacy files that were there
when they were written. -/
theorem exists_reported (hm : Sound m) (hdir : dir ≠ [])
    (hend : (workflowsIn s dir registry cancelled m).fault? = none) :
    ∃ p units t S, ∃ found : List Bytes, Ends (openProject dir) m p t ∧
    Ends (Files.find dir "*.xoml.cs") t units t ∧
      Ends (Session.migrateUnits s registry cancelled units) { files := t, root := dir, project := p } () S ∧
      (workflowsIn s dir registry cancelled m).reported .generate = pathsOf .generate S.entries ∧
      (workflowsIn s dir registry cancelled m).reported .remove = found.map (shown dir) ∧
      ∀ path ∈ found, ∃ names, Files.Hit S.files (.star :: (legacyWord.map .byte ++ [.star])) dir names ∧
        path = join dir (Bytes.joinWith [slash] names) := by
  obtain ⟨p, units, t, S, hopen, hmigrate, heq⟩ := exists_workflowsIn hend
  obtain ⟨t₁, hopen, hunits⟩ := openWorkflows_iff.1 hopen
  have hsame := (keeps_openProject (quiet_same m) dir).ends (.refl m) hopen
  have ht : Sound t₁ := hm.congr hsame.table
  have hbelow := LawfulStore.below_of_find ht hdir hunits
  obtain ⟨rfl, -⟩ := Files.find_ends ht hdir hunits
  obtain ⟨S₁, S₂, hwrite, hremove, hdrop⟩ := migrateWorkflows_iff.1 hmigrate
  obtain ⟨hroot, -⟩ := migrateUnits_frame hwrite
  replace hroot : S₁.root = dir := hroot
  obtain ⟨-, hnone⟩ := entries_migrateUnits (S := ⟨t, dir, p, []⟩) hdir hbelow hwrite
  replace hnone : pathsOf .remove S₁.entries = [] := hnone
  have hsound : Sound S₁.files := sound_migrateUnits (S := ⟨t, dir, p, []⟩) ht hwrite
  obtain ⟨found, ps, hps, hfound, hgone⟩ := removeFiles_removed hsound (by rwa [hroot]) hremove
  obtain rfl := Option.some.inj (hps.symm.trans parse?_legacy)
  have hreport := (dropLegacyReferences_frame hdrop).2.2
  refine ⟨p, units, t, S₁, found, hopen, hunits, hwrite, ?_, ?_, fun path hpath => ?_⟩
  · rw [heq, reported_one, hreport _ (.inl rfl), hgone.reported, if_neg (by nofun), List.append_nil]
  · rw [heq, reported_one, hreport _ (.inr rfl), hgone.reported, hnone, if_pos rfl, hroot, List.nil_append]
  · rw [← hroot]
    exact (hfound path).1 hpath

theorem removed_there (hm : Sound m) (hdir : dir ≠ [])
    (hend : (workflowsIn s dir registry cancelled m).fault? = none)
    (hgenerated : (workflowsIn s dir registry cancelled m).Plain dir) :
    ∀ r ∈ (workflowsIn s dir registry cancelled m).reported .remove,
      (m.fileAt? (normalize (join dir r))).isSome ∧ legacyWord <:+: base (normalize (join dir r)) := by
  obtain ⟨p, units, t, S, found, hopen, hunits, hwrite, hgenerate, hremove, hfound⟩ :=
    exists_reported hm hdir hend
  have hsame := (keeps_openProject (quiet_same m) dir).ends (.refl m) hopen
  have ht : Sound t := hm.congr hsame.table
  have hnames : ∀ g ∈ pathsOf .generate S.entries, ¬ legacyWord <:+: base (normalize (join dir g)) :=
    fun g hg => (hgenerated g (hgenerate ▸ hg)).2.2
  have hkept := legacy_kept (S := ⟨t, dir, p, []⟩) ht hdir
    (LawfulStore.below_of_find ht hdir hunits) hnames hwrite
  intro r hr
  rw [hremove] at hr
  obtain ⟨path, hpath, rfl⟩ := List.mem_map.1 hr
  obtain ⟨names, ⟨hentries, ⟨c, hc⟩, above, n, rfl, hmatch⟩, rfl⟩ := hfound path hpath
  have hbase : base (key (fromRoot dir ++ (above ++ [n]))) = n := Files.base_key_names hentries
  have hword := (Glob.matchesName_around_iff _ (hentries n (by simp)).no_slash).1 hmatch
  rw [shown, Path.relative?_join hdir hentries (by simp), Option.getD_some,
    Files.normalize_names hdir hentries, hbase]
  refine ⟨?_, hword⟩
  rw [← hsame.fileAt?, ← hkept _ (by rwa [hbase]), hc]
  rfl

/-! ## A project with one workflow -/

/-- A project with a workflow in a directory that is named like a legacy file, and one more file. -/
def beside (extra : Bytes) : Memory where
  table := [("/", .directory), ("/p.csproj", .file "<P/>"), ("/x.xoml", .directory),
    ("/x.xoml/B.xoml", .file "<S/>"), ("/x.xoml/B.xoml.cs", .file "class B\x7b\x7d"), (extra, .file [])]
  writes := 4

/-- A definition without a workflow, and a file whose name is the path of the flow class with a
backslash. -/
def extras : List Bytes := ["/C.xoml", "/x.xoml\\B.cs"]

theorem made_beside {extra : Bytes} (h : extra ∈ extras) : Made (beside extra) := by
  have hwritten : ∀ extra ∈ extras, beside extra = (ran (Memory.write extra [])
      (ran (Memory.write "/x.xoml/B.xoml.cs" "class B\x7b\x7d")
        (ran (Memory.write "/x.xoml/B.xoml" "<S/>")
          (ran (Memory.write "/p.csproj" "<P/>") .empty).2).2).2).2 := by decide +kernel
  rw [hwritten extra h]
  exact .write _ _ (.write _ _ (.write _ _ (.write _ _ .empty)))

theorem open_beside {extra : Bytes} (h : extra ∈ extras) (k : Nat) :
    Open { beside extra with reads := k } "/" :=
  ⟨(made_beside h).sound.congr rfl, rfl, rfl, rfl⟩

def besideFlow : Workflow :=
  Workflow.assemble oneStep none "/x.xoml/B.xoml.cs" "class B\x7b\x7d" "/x.xoml/B.xoml" "<S/>"

theorem load_beside {extra : Bytes} (h : extra ∈ extras) (k : Nat) :
    Ends (Workflow.load oneStep none "/x.xoml/B.xoml.cs") { beside extra with reads := k } besideFlow
      { beside extra with reads := k + 2 } := by
  have hopen : Open { beside extra with reads := k } "/x.xoml" :=
    ⟨(made_beside h).sound.congr rfl, rfl, rfl, rfl⟩
  refine load_of_table hopen rfl (by decide) ?_ rfl
  simp only [extras, List.mem_cons, List.not_mem_nil, or_false] at h
  rcases h with rfl | rfl <;> rfl

theorem given_beside {extra : Bytes} (h : extra ∈ extras) : ∃ out,
    Session.Given oneStep none (beside extra) "/x.xoml/B.xoml.cs" besideFlow out ∧
      destination besideFlow out = "/x.xoml/B.cs" := by
  obtain ⟨out, hout⟩ : ∃ out, besideFlow.transpile oneStep = .ok out := exists_ok (by decide +kernel)
  have hgiven : Session.Given oneStep none (beside extra) "/x.xoml/B.xoml.cs" besideFlow out :=
    ⟨⟨_, load_beside h 0⟩, hout⟩
  refine ⟨out, hgiven, ?_⟩
  rw [hgiven.destination_eq]
  decide

theorem open_project_beside {extra : Bytes} (h : extra ∈ extras) {p : Project}
    (hload : Project.ofBytes "/p.csproj" "<P/>" = .ok p) :
    Ends (openProject "/") (beside extra) p { beside extra with reads := 1 } := by
  have hfound : ({ beside extra with reads := 0 } : Memory).filesBelow "/"
      ((".csproj" : Bytes).isSuffixOf ·) = [("/p.csproj" : Bytes)] := by
    simp only [extras, List.mem_cons, List.not_mem_nil, or_false] at h
    rcases h with rfl | rfl <;> rfl
  exact openProject_of_table (open_beside h 0) hfound (List.pairwise_singleton _ _) rfl hload

theorem find_beside {extra : Bytes} (h : extra ∈ extras) (k : Nat) :
    Ends (Files.find "/" "*.xoml.cs") { beside extra with reads := k } ["/x.xoml/B.xoml.cs"]
      { beside extra with reads := k } := by
  refine Files.find_ending (open_beside h k) parse?_units ?_ (List.pairwise_singleton _ _)
  simp only [extras, List.mem_cons, List.not_mem_nil, or_false] at h
  rcases h with rfl | rfl <;> rfl

/-- The run comes to its end, and reports the flow class. -/
theorem workflows_beside {extra : Bytes} (h : extra ∈ extras) :
    (workflowsIn oneStep "/" none never (beside extra)).fault? = none ∧
      (workflowsIn oneStep "/" none never (beside extra)).reported .generate =
        [("x.xoml/B.cs" : Bytes)] := by
  obtain ⟨p, hload, -⟩ := exists_project
  obtain ⟨out, hgiven, hdest⟩ := given_beside h
  have hdir : Ends (requireDirectory "/") (beside extra) () (beside extra) :=
    requireDirectory_of_open (open_beside h 0)
  have hregistry : Ends (openRegistry { workflowDir := "/" }) (beside extra) none (beside extra) := rfl
  have hprepare : Ends (prepareWorkflows { workflowDir := "/" }) (beside extra)
      (none, p, ["/x.xoml/B.xoml.cs"]) { beside extra with reads := 1 } :=
    prepareWorkflows_iff.2 ⟨_, _, _, hdir, hregistry, open_project_beside h hload, find_beside h 1⟩
  have hplace : ∀ extra ∈ extras, (beside extra).lookup (normalize "/x.xoml/B.cs") ≠ some .directory := by
    decide
  have hready : Ready oneStep none (beside extra) "/x.xoml/B.xoml.cs" := by
    refine ⟨besideFlow, out, hgiven, ?_, ?_, ?_⟩ <;> rw [hdest]
    · rfl
    · exact hplace extra h
    · decide
  have hrun := workflows_ok (made_beside h).sound rfl hprepare Session.uncancelled_never
    (List.forall_mem_singleton.2 hready)
    (Option.isSome_of_eq_some (Glob.parse?_letters (by decide)))
  rw [workflows_eq_in (o := { workflowDir := "/" }) hdir hregistry] at hrun
  refine ⟨hrun.1, ?_⟩
  obtain ⟨g, gs, ⟨w, out', hgiven', rfl⟩, hnil, hreport⟩ := List.forall₂_cons_left_iff.1 hrun.2
  obtain rfl := List.forall₂_nil_left_iff.1 hnil
  obtain ⟨rfl, rfl⟩ := hgiven.det hgiven'
  refine hreport.trans ?_
  rw [hdest]
  decide

/-- Nothing else stands in the way of keeping the project file in step. -/
theorem plain_beside {extra : Bytes} (h : extra ∈ extras) :
    ∃ p, Ends (openProject "/") (beside extra) p { beside extra with reads := 1 } ∧ p.path = "/p.csproj" ∧
      p.Plain ∧ ¬ legacyWord <:+: base (normalize p.path) ∧ Passes oneStep.project.assemblyInfo p.path ∧
      (workflowsIn oneStep "/" none never (beside extra)).Plain "/" := by
  obtain ⟨p, hload, hplain, -⟩ := exists_project
  have hpath := Project.ofBytes_path hload
  refine ⟨p, open_project_beside h hload, hpath, hplain, ?_, passes_nil ?_, ?_⟩
  · rw [hpath]
    decide
  · rw [hpath]
    decide
  · unfold Outcome.Plain
    rw [(workflows_beside h).2]
    decide +kernel

/-- A legacy file without a backslash in its name: the project file is in step. -/
theorem workflows_in_step_beside :
    (workflowsIn oneStep "/" none never (beside "/C.xoml")).fault? = none ∧
    ∃ q, OnFile (workflowsIn oneStep "/" none never (beside "/C.xoml")).files "/p.csproj" q ∧
      InStep oneStep "/" (beside "/C.xoml") (workflowsIn oneStep "/" none never (beside "/C.xoml")) q := by
  have h : ("/C.xoml" : Bytes) ∈ extras := List.mem_cons_self
  have hdir : ("/" : Bytes) ≠ [] := List.cons_ne_nil _ _
  obtain ⟨hend, -⟩ := workflows_beside h
  obtain ⟨p, hopen, hpath, hplain, hname, hinfo, hgenerated⟩ := plain_beside h
  -- the removed files are among those that were there
  have hnames : ∀ entry ∈ (beside "/C.xoml").table, 0x5C ∉ base entry.1 := by decide
  refine ⟨hend, hpath ▸ workflows_in_step (made_beside h) hdir hopen hplain hname hinfo hend hgenerated
    fun r hr => ?_⟩
  obtain ⟨hthere, -⟩ := removed_there (made_beside h).sound hdir hend hgenerated r hr
  obtain ⟨c, hc⟩ := Option.isSome_iff_exists.1 hthere
  have hname' := hnames _ (mem_of_lookup (fileAt?_eq_some.1 hc))
  exact hname'

/-- A legacy file may have the path of a flow class as its name, with a backslash. Its item is that of the
flow class, and is removed with it: the project file does not list the flow class. -/
theorem workflows_out_of_step :
    ¬ ∀ (s : Settings) (dir : Bytes) (registry : Option Registry) (cancelled : List Bytes → Bool) (m t : Memory)
      (p : Project), Made m → dir ≠ [] → Ends (openProject dir) m p t → p.Plain →
      ¬ legacyWord <:+: base (normalize p.path) → Passes s.project.assemblyInfo p.path →
      (workflowsIn s dir registry cancelled m).fault? = none →
      (workflowsIn s dir registry cancelled m).Plain dir →
      ∃ q, OnFile (workflowsIn s dir registry cancelled m).files p.path q ∧
        InStep s dir m (workflowsIn s dir registry cancelled m) q := by
  intro hall
  have h : ("/x.xoml\\B.cs" : Bytes) ∈ extras := List.mem_cons_of_mem _ List.mem_cons_self
  have hdir : ("/" : Bytes) ≠ [] := List.cons_ne_nil _ _
  obtain ⟨hend, hreport⟩ := workflows_beside h
  obtain ⟨p, hopen, hpath, hplain, hname, hinfo, hgenerated⟩ := plain_beside h
  obtain ⟨q, -, hstep⟩ := hall oneStep "/" none never _ _ p (made_beside h) hdir hopen hplain hname hinfo
    hend hgenerated
  have hlisted := hstep.listed "x.xoml/B.cs" (by rw [hreport]; exact List.mem_cons_self)
  have hentry : ∀ k ∈ [("x.xoml\\B.cs" : Bytes)], IsEntry k := by
    intro k hk
    rw [List.mem_singleton.1 hk]
    refine ⟨?_, ?_, ?_, ?_⟩ <;> decide
  have hitem : itemOf (Bytes.joinWith [slash] ["x.xoml\\B.cs"]) = itemOf "x.xoml/B.cs" := by decide
  have homits := hstep.lost ["x.xoml\\B.cs"] hentry (by decide) ?_
  · rw [hitem] at homits
    exact homits "Compile" (.inl rfl) hlisted
  by_contra hthere
  obtain ⟨c, hc⟩ := Option.ne_none_iff_exists'.1 hthere
  exact hstep.legacy _ c hc (by decide) (by decide)

end Run

end Flowsmith
