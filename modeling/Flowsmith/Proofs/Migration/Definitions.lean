import Flowsmith.Proofs.Migration.Success

/-!
# Definitions that are removed

Workflows are found by their code-behind files, and files are removed by a wider pattern. A definition
is removed only after all workflows were written, and by then it was read when it stands in reach of a
code-behind file of its name.

* `Run.removed_migrated` : a definition with a code-behind file in reach is removed only after its
  workflow was migrated;
* `Run.removed_unmigrated` : one without is removed unmigrated.
-/

namespace Flowsmith

open Flowsmith.Path Memory

/-! ## Files that stay -/

section Holds

variable {σ : Type} [FileStore σ] [LawfulStore σ] {q : Bytes}

def Holds (q : Bytes) (t : σ) : Prop := LawfulStore.Sound t ∧ (LawfulStore.fileAt? t q).isSome

theorem quiet_holds : Quiet (Holds (σ := σ) q) :=
  LawfulStore.quiet_of_files (fun _ ht => ht.1) fun t t' ht' hfiles ht => ⟨ht', by rw [hfiles]; exact ht.2⟩

theorem keeps_holds_write (p c : Bytes) : Keeps (Holds (σ := σ) q) (FileStore.write p c) := by
  intro t ht
  obtain ⟨r, t', hran, ht', hfiles⟩ := LawfulStore.write p c ht.1
  rw [hran]
  refine ⟨ht', ?_⟩
  rw [hfiles]
  split
  · rfl
  · exact ht.2

end Holds

namespace Run

variable {s : Settings} {o : Options} {files : Memory}

/-- A file that a run removes is removed after all workflows were migrated. -/
theorem migrateUnits_ends_of_gone {path : Bytes} (hheld : Holds path files)
    (hgone : (workflows s o files).files.fileAt? path = none) :
    ∃ registry project units t T, Ends (prepareWorkflows o) files (registry, project, units) t ∧
      Ends (Session.migrateUnits s registry o.cancelled.workflows units)
        { files := t, root := o.workflowDir, project := project } () T := by
  obtain ⟨r, t, hran⟩ : ∃ r t, ran (prepareWorkflows o) files = (r, t) := ⟨_, _, rfl⟩
  have hbegin := keeps_prepareWorkflows quiet_holds o hheld
  unfold workflows at hgone
  rw [show (prepareWorkflows o).run files = _ from hran] at hgone
  rw [hran] at hbegin
  have hstays : ∀ {t : Memory}, Holds path t → t.fileAt? path ≠ none := fun ht hnone => by
    have hsome := ht.2
    rw [show LawfulStore.fileAt? _ path = none from hnone] at hsome
    cases hsome
  match r, hran with
  | .error f, _ => exact absurd hgone (hstays hbegin)
  | .ok (registry, project, units), hran =>
    have hkeeps : Keeps (Session.Filed (Holds (σ := Memory) path))
        (Session.migrateUnits s registry o.cancelled.workflows units) :=
      Session.keeps_filed_migrateUnits quiet_holds keeps_holds_write units
    have hkept := hkeeps
      (show Session.Filed (Holds path) { files := t, root := o.workflowDir, project := project }
        from hbegin)
    obtain ⟨r, T, hunits⟩ : ∃ r T, ran (Session.migrateUnits s registry o.cancelled.workflows units)
      { files := t, root := o.workflowDir, project := project } = (r, T) := ⟨_, _, rfl⟩
    cases r with
    | ok u => exact ⟨registry, project, units, t, T, hran, hunits⟩
    | error f =>
      have hlast : (ran (Session.migrateWorkflows s registry o.cancelled.workflows units)
          { files := t, root := o.workflowDir, project := project }).2 = T := by
        rw [Session.migrateWorkflows, ran_bind, hunits]
      rw [hunits] at hkept
      refine absurd ?_ (hstays hkept)
      rw [← hlast]
      exact hgone

/-- The definition of a workflow is the file of its name that lies in reach of the code-behind file. -/
theorem markupPath_of_load {registry : Option Registry} {dir n : Bytes} {ds below : List Bytes}
    {t t' : Memory} {w : Workflow} (hdir : dir ≠ [])
    (hcode : ∀ k ∈ ds ++ [n ++ (".cs" : Bytes)], IsEntry k) (hbelow : ∀ k ∈ below ++ [n], IsEntry k)
    (hself : ∃ ps, Glob.parse? n = some ps ∧ Glob.matchesName ps n = true)
    (hthere : Holds (key (fromRoot dir ++ ds ++ (below ++ [n]))) t)
    (h : Ends (Workflow.load s registry
      (join dir (Bytes.joinWith [slash] (ds ++ [n ++ (".cs" : Bytes)])))) t w t') :
    normalize w.markupPath = key (fromRoot dir ++ ds ++ (below ++ [n])) := by
  obtain ⟨text, t₁, markupPath, t₂, markup, hread, hfind, -, rfl⟩ := Workflow.load_iff.1 h
  have hthere := (quiet_holds.read _).ends hthere hread
  have hrootDir := fromRoot_directory_join hdir hcode
  rw [Workflow.markupName_join hdir hcode] at hfind
  obtain ⟨-, ps, hps, hfound⟩ := Files.find_ends hthere.1 (directory_ne_nil _) hfind
  obtain ⟨ps', hps', hmatch⟩ := hself
  obtain rfl := Option.some.inj (hps.symm.trans hps')
  obtain ⟨c, hc⟩ := Option.isSome_iff_exists.1 hthere.2
  have hhit : Files.Hit t₁ ps
      (directory (join dir (Bytes.joinWith [slash] (ds ++ [n ++ (".cs" : Bytes)])))) (below ++ [n]) :=
    ⟨hbelow, ⟨c, by rw [hrootDir]; exact hc⟩, below, n, rfl, hmatch⟩
  have hmarkup := List.mem_singleton.1 ((hfound _).2 ⟨below ++ [n], hhit, rfl⟩)
  show normalize markupPath = _
  rw [← hmarkup, normalize_eq, fromRoot_join (directory_ne_nil _), resolve_names hbelow, hrootDir]

/-- A definition that a run removes, when its name stands for itself as a pattern and a code-behind
file of its name lies in its directory or in one above that belongs to the project, is the definition
of a workflow that the run loaded, transpiled and wrote. -/
theorem removed_migrated (s : Settings) (o : Options) (files : Memory) (hmade : Memory.Made files)
    {path codeBehind content code : Bytes} (hfile : files.fileAt? path = some content)
    (hgone : (workflows s o files).files.fileAt? path = none)
    (hname : (".xoml" : Bytes) <:+ base path)
    (hself : ∃ ps, Glob.parse? (base path) = some ps ∧ Glob.matchesName ps (base path) = true)
    (hcode : files.fileAt? codeBehind = some code)
    (hbase : base codeBehind = base path ++ (".cs" : Bytes))
    (hroot : fromRoot o.workflowDir <+: fromRoot (directory codeBehind))
    (habove : fromRoot (directory codeBehind) <+: fromRoot (directory path)) :
    ∃ codePath w out, Migrated s o files codePath w out ∧ normalize w.markupPath = path := by
  have hm := hmade.sound
  obtain ⟨ns, n, hns, hpath, hpathBase, hpathDir⟩ := exists_key_of_fileAt? hm hfile
  obtain ⟨cs, k, hcs, hcodeKey, hcodeBase, hcodeDir⟩ := exists_key_of_fileAt? hm hcode
  -- the names from the directory of the run to the two files
  rw [hpathDir, hcodeDir] at habove
  rw [hcodeDir] at hroot
  rw [hpathBase] at hname hself
  obtain rfl : k = n ++ (".cs" : Bytes) := by rw [← hcodeBase, hbase, hpathBase]
  obtain ⟨below, rfl⟩ := habove
  obtain ⟨ds, rfl⟩ := hroot
  rw [List.append_assoc] at hcs hcodeKey hns hpath
  have hdown : ∀ j ∈ ds ++ [n ++ (".cs" : Bytes)], IsEntry j := fun j hj =>
    hcs j (List.mem_append_right _ hj)
  have hbelow : ∀ j ∈ below ++ [n], IsEntry j := fun j hj => hns j (List.mem_append_right _ hj)
  have hheld : Holds path files := ⟨hm, Option.isSome_iff_exists.2 ⟨content, hfile⟩⟩
  obtain ⟨registry, project, units, t, T, hprepare, hend⟩ := migrateUnits_ends_of_gone hheld hgone
  have hmem : join o.workflowDir (Bytes.joinWith [slash] (ds ++ [n ++ (".cs" : Bytes)])) ∈ units := by
    refine (mem_units_iff hm hprepare _).2 ⟨ds, _, hdown, ?_, ⟨code, hcodeKey ▸ hcode⟩, rfl⟩
    obtain ⟨u, rfl⟩ := hname
    exact ⟨u, by rw [List.append_assoc]; rfl⟩
  obtain ⟨w, out, hmigrated⟩ := Session.migrateUnits_migrated hend hmem
  refine ⟨_, w, out, ⟨registry, project, units, t, hprepare, hmigrated⟩, ?_⟩
  obtain ⟨before, after, S, -, hbefore, -, t₁, t₂, hload, -, -⟩ := hmigrated
  -- the definition was still there when its code-behind file was loaded
  have hbegin : Session.Filed (Holds path)
      { files := t, root := o.workflowDir, project := project } :=
    (keeps_prepareWorkflows quiet_holds o).ends hheld hprepare
  have hthere : Holds path S.files :=
    (Session.keeps_filed_migrateUnits quiet_holds keeps_holds_write before).ends hbegin hbefore
  obtain ⟨t₃, t₄, t₅, hdir, -⟩ := prepareWorkflows_iff.1 hprepare
  rw [hpath] at hthere ⊢
  exact markupPath_of_load (ne_nil_of_requireDirectory hdir) hdown hbelow hself hthere hload

/-- In a project with two workflows the definition of the first is removed, and was migrated. -/
theorem removed_migrated_pair :
    (workflows oneStep { workflowDir := "/" } (pair "class B\x7b\x7d")).files.fileAt? "/A.xoml" = none ∧
    ∃ codePath w out, Migrated oneStep { workflowDir := "/" } (pair "class B\x7b\x7d") codePath w out ∧
      normalize w.markupPath = "/A.xoml" := by
  obtain ⟨project, hload, -⟩ := exists_project
  have hgone : (workflows oneStep { workflowDir := "/" } (pair "class B\x7b\x7d")).files.fileAt? "/A.xoml" =
      none := by
    by_contra hne
    obtain ⟨c, hc⟩ := Option.ne_none_iff_exists'.1 hne
    refine legacy_gone (made_pair _).sound fault?_apart (prepare_pair _ hload) ?_ hc (by decide)
      (by decide)
    rw [Project.ofBytes_path hload]
    decide
  have hfile : (pair "class B\x7b\x7d").fileAt? "/A.xoml" = some "<S/>" := rfl
  have hcode : (pair "class B\x7b\x7d").fileAt? "/A.xoml.cs" = some "using X;class A\x7b\x7d" := rfl
  exact ⟨hgone, removed_migrated oneStep { workflowDir := "/" } (pair "class B\x7b\x7d") (made_pair _)
    hfile hgone (by decide) (Glob.matchesName_self (by decide)) hcode (by decide)
    (by decide) (by decide)⟩

/-- A project with a definition and no code-behind file. -/
def lone : Memory where
  table := [("/", .directory), ("/p.csproj", .file "<P/>"), ("/A.xoml", .file "<S/>")]
  writes := 2

/-- A definition without a code-behind file is removed, and nothing was migrated. -/
theorem removed_unmigrated :
    Memory.Made lone ∧ lone.fileAt? "/A.xoml" = some "<S/>" ∧
    (workflows oneStep { workflowDir := "/" } lone).files.fileAt? "/A.xoml" = none ∧
    ¬ ∃ codePath w out, Migrated oneStep { workflowDir := "/" } lone codePath w out ∧
      normalize w.markupPath = "/A.xoml" := by
  have hmade : Made lone := .write "/A.xoml" "<S/>" (.write "/p.csproj" "<P/>" .empty)
  obtain ⟨project, hproject, -⟩ := exists_project
  have hprojects : lone.filesBelow "/" ((".csproj" : Bytes).isSuffixOf ·) = ["/p.csproj"] := by
    rfl
  have hprepare : Ends (prepareWorkflows { workflowDir := "/" }) lone (none, project, [])
      { lone with reads := 1 } :=
    prepare_of_table ⟨hmade.sound, rfl, rfl, rfl⟩ rfl hprojects (List.pairwise_singleton _ _) rfl
      hproject (by rfl) .nil
  have hend : (workflows oneStep { workflowDir := "/" } lone).fault? = none :=
    (workflows_ok hmade.sound rfl hprepare Session.uncancelled_never nofun
      (Option.isSome_of_eq_some (Glob.parse?_letters (by decide)))).1
  refine ⟨hmade, rfl, ?_, ?_⟩
  · by_contra hne
    obtain ⟨c, hc⟩ := Option.ne_none_iff_exists'.1 hne
    refine legacy_gone hmade.sound hend hprepare ?_ hc (by decide) (by decide)
    rw [Project.ofBytes_path hproject]
    decide
  · rintro ⟨codePath, w, out, ⟨registry, project', units, t, hprepare', hmigrated⟩, -⟩
    obtain ⟨heq, -⟩ := hprepare.det hprepare'
    cases heq
    obtain ⟨before, after, S, hunits, -⟩ := hmigrated
    simp at hunits

end Run

end Flowsmith
