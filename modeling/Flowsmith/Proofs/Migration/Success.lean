import Flowsmith.Proofs.Files.Steady
import Flowsmith.Proofs.Migration.Cleanup
import Flowsmith.Proofs.Migration.Units
import Flowsmith.Proofs.Project.Edited
import Mathlib

/-!
# Runs that succeed

Where no path is refused, a run comes to its end as soon as every workflow can be loaded and
transpiled: what it writes lands beside files that are there, and what it removes it has found.

* `Session.removeFiles_ok`, `Session.dropLegacyReferences_ok` : the clean-up;
* `Session.Ready`, `Session.migrateUnits_ok` : workflows that can be migrated;
* `Run.workflows_ok` : a run without a fault.
-/

namespace Flowsmith

open Flowsmith.Path Memory

namespace Session

variable {s : Settings} {registry : Option Registry} {S S' : Session Memory} {m₀ : Memory}

/-! ## The clean-up -/

theorem removeFile_ok {path c : Bytes} (hS : Steady m₀ S.files) (hroot : S.root ≠ [])
    (hbelow : Below S.root path) (hthere : S.files.fileAt? (normalize path) = some c) :
    ∃ T, Ends (removeFile path) S () T ∧ Steady m₀ T.files ∧ Removed [path] S T := by
  obtain ⟨m, hremove, hm⟩ := hS.remove hthere
  obtain ⟨item, hitem⟩ := (Seen.of_below hbelow hroot).exists_relativePath
  have hstep : Ends (removeFile path) S () _ := removeFile_iff.2 ⟨m, item, hremove, hitem, rfl⟩
  exact ⟨_, hstep, hm, (Removed.nil hS.sound).snoc hstep⟩

theorem removeAll_ok {paths : List Bytes} (hS : Steady m₀ S.files) (hroot : S.root ≠ [])
    (hbelow : ∀ path ∈ paths, Below S.root path) (hnodup : (paths.map normalize).Nodup)
    (hthere : ∀ path ∈ paths, ∃ c, S.files.fileAt? (normalize path) = some c) :
    ∃ S', Ends (paths.forM removeFile) S () S' ∧ Steady m₀ S'.files := by
  induction paths generalizing S with
  | nil => exact ⟨S, rfl, hS⟩
  | cons path paths ih =>
    obtain ⟨c, hc⟩ := hthere path List.mem_cons_self
    obtain ⟨T, hstep, hT, hremoved⟩ := removeFile_ok hS hroot (hbelow path List.mem_cons_self) hc
    obtain ⟨hfresh, hnodup⟩ := List.nodup_cons.1 hnodup
    obtain ⟨S', hrest, hS'⟩ := ih hT (by rwa [hremoved.root])
      (fun p hp => by rw [hremoved.root]; exact hbelow p (List.mem_cons_of_mem _ hp)) hnodup
      fun p hp => by
        rw [hremoved.files, if_neg]
        · exact hthere p (List.mem_cons_of_mem _ hp)
        · intro hmem
          have heq := List.mem_singleton.1 hmem
          exact hfresh (List.mem_map.2 ⟨p, hp, heq⟩)
    exact ⟨S', Ends.bind_iff.2 ⟨(), T, hstep, hrest⟩, hS'⟩

theorem removeFiles_ok {pattern : Bytes} (hS : Steady m₀ S.files) (hroot : S.root ≠ [])
    (hdir : m₀.lookup (normalize S.root) = some .directory) (hpattern : (Glob.parse? pattern).isSome) :
    ∃ S', Ends (removeFiles pattern) S () S' ∧ Steady m₀ S'.files := by
  obtain ⟨found, hfind⟩ := (Files.find_ok_iff hS.sound hroot).2 ⟨hpattern, hS.listable hdir⟩
  obtain ⟨-, ps, -, hfound⟩ := Files.find_ends hS.sound hroot hfind
  -- different paths lead to different files
  have hnodup : (found.map normalize).Nodup := by
    refine (Files.nodup_find hS.sound hroot hfind).map_on fun p hp q hq heq => ?_
    obtain ⟨names, ⟨hnames, -⟩, rfl⟩ := (hfound p).1 hp
    obtain ⟨names', ⟨hnames', -⟩, rfl⟩ := (hfound q).1 hq
    rw [Files.normalize_names hroot hnames, Files.normalize_names hroot hnames'] at heq
    have hall : ∀ {names : List Bytes}, (∀ n ∈ names, IsEntry n) →
        ∀ n ∈ fromRoot S.root ++ names, IsEntry n := fun h n hn =>
      (List.mem_append.1 hn).elim (isEntry_fromRoot _ n) (h n)
    rw [List.append_cancel_left (key_inj (hall hnames) (hall hnames') heq)]
  have hthere : ∀ path ∈ found, ∃ c, S.files.fileAt? (normalize path) = some c := by
    intro p hp
    obtain ⟨names, ⟨hnames, hfile, -⟩, rfl⟩ := (hfound p).1 hp
    rwa [Files.normalize_names hroot hnames]
  obtain ⟨S', hremove, hend⟩ :=
    removeAll_ok hS hroot (LawfulStore.below_of_find hS.sound hroot hfind) hnodup hthere
  exact ⟨S', removeFiles_iff.2 ⟨found, S.files, hfind, hremove⟩, hend⟩

theorem saveProject_ok (detail : Bytes) (hS : Steady m₀ S.files)
    (hparent : m₀.lookup (directory (normalize S.project.path)) = some .directory)
    (hplace : m₀.lookup (normalize S.project.path) ≠ some .directory) :
    ∃ S', Ends (saveProject detail) S () S' ∧ Steady m₀ S'.files ∧ S'.root = S.root := by
  cases hmodified : S.project.modified with
  | false => exact ⟨S, saveProject_iff.2 (.inl ⟨hmodified, rfl⟩), hS, rfl⟩
  | true =>
    obtain ⟨m, hwrite, hm⟩ := hS.write S.project.toBytes hparent hplace
    exact ⟨_, saveProject_iff.2 (.inr ⟨hmodified, m, hwrite, rfl⟩), hm, rfl⟩

theorem editFile_ok {path text : Bytes} (edit : Bytes → Bytes) (hS : Steady m₀ S.files)
    (hthere : S.files.fileAt? (normalize path) = some text) :
    ∃ S', Ends (editFile path fun text => .ok (edit text)) S () S' := by
  have hread := read_ok hS.refused hthere
  have hplace : S.files.lookup (normalize path) ≠ some .directory := by
    rw [fileAt?_eq_some.1 hthere]
    nofun
  obtain ⟨m, hwrite, -⟩ := (hS.count (S.files.reads + 1)).write (edit text)
    ((hS.directories _).1 (hS.sound.parent_of_file hthere)) fun hd => hplace ((hS.directories _).2 hd)
  by_cases hsame : edit text = text
  · exact ⟨_, editFile_iff.2 ⟨text, _, _, hread, rfl, .inl ⟨hsame, rfl⟩⟩⟩
  · exact ⟨_, editFile_iff.2 ⟨text, _, _, hread, rfl, .inr ⟨hsame, m, hwrite, rfl⟩⟩⟩

theorem dropLegacyReferences_ok {o : Settings.Project} (hS : Steady m₀ S.files) (hroot : S.root ≠ [])
    (hdir : m₀.lookup (normalize S.root) = some .directory)
    (hparent : m₀.lookup (directory (normalize S.project.path)) = some .directory)
    (hplace : m₀.lookup (normalize S.project.path) ≠ some .directory)
    (hinfo : (Glob.parse? o.assemblyInfo).isSome) :
    ∃ S', Ends (dropLegacyReferences o) S () S' := by
  obtain ⟨T, hsave, hT, hrootT⟩ := saveProject_ok (strippedDetail o S.project)
    (S := { S with project := stripped o S.project }) hS hparent hplace
  replace hrootT : T.root = S.root := hrootT
  rw [← hrootT] at hroot hdir
  obtain ⟨found, hfind⟩ := (Files.find_ok_iff hT.sound hroot).2 ⟨hinfo, hT.listable hdir⟩
  have hfirst := Files.findFirst?_of_find hfind
  cases hinfo : found.head? with
  | none =>
    rw [hinfo] at hfirst
    exact ⟨_, dropLegacyReferences_iff.2 ⟨T, none, T.files, hsave, hfirst, rfl⟩⟩
  | some path =>
    rw [hinfo] at hfirst
    obtain ⟨-, hhit⟩ := Files.findFirst?_ends hT.sound hroot hfirst
    obtain ⟨ps, names, -, ⟨hnames, ⟨text, htext⟩, -⟩, rfl⟩ := hhit path rfl
    rw [← Files.normalize_names hroot hnames] at htext
    obtain ⟨S', hedit⟩ := editFile_ok Activity.stripWorkflowUsings hT htext
    exact ⟨S', dropLegacyReferences_iff.2 ⟨T, some _, T.files, hsave, hfirst, hedit⟩⟩

/-! ## Workflows -/

/-- A workflow can be migrated from the files: it is loaded and transpiled, and its flow class has a
place beside it that is no directory and not that of a legacy file. -/
def Ready (s : Settings) (registry : Option Registry) (m₀ : Memory) (path : Bytes) : Prop :=
  ∃ w out, Given s registry m₀ path w out ∧
    m₀.lookup (directory (normalize (destination w out))) = some .directory ∧
    m₀.lookup (normalize (destination w out)) ≠ some .directory ∧
    ¬ legacyWord <:+: base (normalize (destination w out))

theorem migrateUnits_ok {cancelled : List Bytes → Bool} {units : List Bytes}
    (hgoes : Uncancelled cancelled units) (hm₀ : Sound m₀) (hS : Steady m₀ S.files)
    (hsame : SameNamed legacyWord m₀ S.files) (hroot : S.root ≠ [])
    (hpaths : ∀ path ∈ units, IsCodeBehind S.root path)
    (hdirs : ∀ path ∈ units, m₀.lookup (normalize (directory path)) = some .directory)
    (hready : ∀ path ∈ units, Ready s registry m₀ path) :
    ∃ S', Ends (migrateUnits s registry cancelled units) S () S' ∧ Steady m₀ S'.files ∧
      S'.root = S.root ∧ S'.project.path = S.project.path ∧
      ∃ es, S'.entries = S.entries ++ es ∧ List.Forall₂ (fun path e => ∃ w out,
        Given s registry m₀ path w out ∧ e = generateEntry S.root path w out) units es := by
  induction units generalizing S with
  | nil => exact ⟨S, rfl, hS, rfl, rfl, [], (List.append_nil _).symm, .nil⟩
  | cons path units ih =>
    obtain ⟨w, out, ⟨⟨t, hload⟩, hout⟩, hparent, hplace, hname⟩ := hready path List.mem_cons_self
    have hpath := hpaths path List.mem_cons_self
    obtain ⟨t', hload'⟩ := Workflow.load_same hm₀ hS.sound hsame hroot hpath
      (hS.listable (hdirs path List.mem_cons_self)) hload
    have hquiet := (Workflow.keeps_load (quiet_same _) s registry path).ends (.refl S.files) hload'
    have ht' : Steady m₀ t' :=
      ⟨hS.sound.congr hquiet.table, hquiet.refused.trans hS.refused, fun q => by
        rw [hquiet.lookup, hS.directories]⟩
    obtain ⟨m, hwrite, hm⟩ := ht'.write out.source hparent hplace
    obtain ⟨init, u, hnames, hjoin⟩ := hpath
    obtain ⟨item, hitem⟩ := (seen_destination ⟨_, by simp, hnames, hjoin⟩ hroot hload' out).exists_relativePath
    obtain ⟨T, hstep, rfl, hT, hTpath, hentries⟩ : ∃ T, Ends (migrateWorkflow s registry path) S () T ∧
        T.files = m ∧ T.root = S.root ∧ T.project.path = S.project.path ∧
        T.entries = S.entries ++ [generateEntry S.root path w out] :=
      ⟨_, migrateWorkflow_iff.2 ⟨w, out, t', m, item, hload', hout, hwrite, hitem, rfl⟩, rfl, rfl,
        Project.addCompile_path _ _, rfl⟩
    -- no legacy file was written
    have hsame' : SameNamed legacyWord m₀ T.files := by
      refine ⟨hsame.refused.trans (hS.refused.trans hm.refused.symm), fun q hq => ?_⟩
      rw [(write_ends ht'.sound hwrite).2.2, hquiet.fileAt?, if_neg, hsame.files q hq]
      rintro rfl
      exact hname hq
    obtain ⟨S', hrest, hS', hroot', hpath', es, hes, hgiven⟩ := ih hgoes.tail hm hsame' (by rwa [hT])
      (fun p hp => by rw [hT]; exact hpaths p (List.mem_cons_of_mem _ hp))
      (fun p hp => hdirs p (List.mem_cons_of_mem _ hp)) fun p hp => hready p (List.mem_cons_of_mem _ hp)
    refine ⟨S', migrateUnits_cons_iff.2 ⟨hgoes _ (List.cons_ne_nil _ _) List.suffix_rfl, T, hstep, hrest⟩,
      hS', hroot'.trans hT, hpath'.trans hTpath, generateEntry S.root path w out :: es, ?_, ?_⟩
    · rw [hes, hentries, List.append_assoc]
      rfl
    · rw [hT] at hgiven
      exact .cons ⟨w, out, ⟨⟨t, hload⟩, hout⟩, rfl⟩ hgiven

/-- The entries of flow classes name where they are written. -/
theorem forall₂_generated {root : Bytes} {units : List Bytes} {es : List Entry}
    (h : List.Forall₂ (fun path e => ∃ w out, Given s registry m₀ path w out ∧
      e = generateEntry root path w out) units es) :
    List.Forall₂ (fun path g => ∃ w out, Given s registry m₀ path w out ∧
      g = shown root (destination w out)) units (pathsOf .generate es) := by
  induction h with
  | nil => exact .nil
  | cons hfirst _ ih =>
    obtain ⟨w, out, hgiven, rfl⟩ := hfirst
    exact .cons ⟨w, out, hgiven, rfl⟩ ih

end Session

namespace Run

variable {s : Settings} {o : Options} {files : Memory}

/-- **Where no path is refused, a run that has found its workflows comes to its end without a fault**
when it is not cancelled, every workflow can be migrated, and the pattern of the assembly information
can be read. It reports the flow class of each. -/
theorem workflows_ok (hm : Sound files) (hrefused : files.refused = [])
    {registry : Option Registry} {project : Project} {units : List Bytes} {t : Memory}
    (hprepare : Ends (prepareWorkflows o) files (registry, project, units) t)
    (hgoes : Session.Uncancelled o.cancelled.workflows units)
    (hready : ∀ path ∈ units, Session.Ready s registry files path)
    (hinfo : (Glob.parse? s.project.assemblyInfo).isSome) :
    (workflows s o files).fault? = none ∧
      List.Forall₂ (fun path g => ∃ w out, Session.Given s registry files path w out ∧
        g = Session.shown o.workflowDir (Session.destination w out)) units
        ((workflows s o files).reported .generate) := by
  have hbegin := prepared hm hprepare
  have hsteady : Steady files t := .of_same hm hrefused hbegin.same
  have hsame : SameNamed legacyWord files t :=
    ⟨hbegin.same.refused.symm, fun q _ => by rw [hbegin.same.fileAt?]⟩
  obtain ⟨S₁, hmigrate, hS₁, hroot₁, hpath₁, es, hes, hgiven⟩ := Session.migrateUnits_ok hgoes
    (S := { files := t, root := o.workflowDir, project := project }) hm hsteady hsame hbegin.dir
    hbegin.codeBehind (fun path hpath => (hbegin.listable path hpath).directory) hready
  have hroot : S₁.root ≠ [] := by
    rw [hroot₁]
    exact hbegin.dir
  have hdir : files.lookup (normalize S₁.root) = some .directory := by
    rw [hroot₁]
    exact hbegin.searched.directory
  obtain ⟨S₂, hremove, hS₂⟩ := Session.removeFiles_ok hS₁ hroot hdir (by rw [parse?_legacy]; rfl)
  obtain ⟨found, ps, -, -, hremoved⟩ := Session.removeFiles_removed hS₁.sound hroot hremove
  -- the project is saved where it was loaded
  have hpath : S₂.project.path = project.path := hremoved.path.trans hpath₁
  obtain ⟨data, hdata, -⟩ := hbegin.loaded
  have hlookup := fileAt?_eq_some.1 hdata
  obtain ⟨S₃, hdrop⟩ := Session.dropLegacyReferences_ok (o := s.project) hS₂ (by rwa [hremoved.root])
    (by rwa [hremoved.root])
    (by rw [hpath]; exact hm.parent_of_file hdata)
    (by rw [hpath, hlookup]; nofun) hinfo
  have hsteps : Steps s o files registry project units t S₁ S₂ S₃ :=
    ⟨hprepare, hmigrate, hremove, hdrop⟩
  rw [hsteps.workflows_eq, reported_one, (Session.dropLegacyReferences_frame hdrop).2.2 _ (.inl rfl),
    hremoved.reported, if_neg nofun, List.append_nil, hes, List.nil_append]
  exact ⟨rfl, Session.forall₂_generated hgiven⟩

theorem requireDirectory_of_open {dir : Bytes} (h : files.Open dir) :
    Ends (requireDirectory dir) files () files := by
  have hne : dir ≠ [] := by
    rw [← h.normal, normalize_eq]
    exact List.cons_ne_nil _ _
  have hdir := isDirectory_ok h.refused hne
  rw [h.normal, h.directory] at hdir
  exact requireDirectory_iff.2 hdir

theorem openProject_of_table {dir : Bytes} (h : files.Open dir) {path data : Bytes} {more : List Bytes}
    {project : Project}
    (hprojects : files.filesBelow dir ((".csproj" : Bytes).isSuffixOf ·) = path :: more)
    (hfirst : (path :: more).Pairwise fun s t => Bytes.le s t)
    (hdata : files.fileAt? (normalize path) = some data)
    (hload : Project.ofBytes path data = .ok project) :
    Ends (openProject dir) files project { files with reads := files.reads + 1 } := by
  obtain rfl := Project.ofBytes_path hload
  exact openProject_iff.2 ⟨files, data,
    Files.findFirst?_of_find (Files.find_ending h parse?_project hprojects hfirst),
    read_ok h.refused hdata, hload⟩

/-- What a run without a registry begins with, as the table of the files lists it. -/
theorem prepare_of_table (h : files.Open o.workflowDir) (hnone : o.registryPath = [])
    {path data : Bytes} {more units : List Bytes} {project : Project}
    (hprojects : files.filesBelow o.workflowDir ((".csproj" : Bytes).isSuffixOf ·) = path :: more)
    (hfirst : (path :: more).Pairwise fun s t => Bytes.le s t)
    (hdata : files.fileAt? (normalize path) = some data)
    (hload : Project.ofBytes path data = .ok project)
    (hunits : files.filesBelow o.workflowDir ((".xoml.cs" : Bytes).isSuffixOf ·) = units)
    (hsorted : units.Pairwise fun s t => Bytes.le s t) :
    Ends (prepareWorkflows o) files (none, project, units) { files with reads := files.reads + 1 } := by
  have hregistry : Ends (openRegistry o) files none files := by
    rw [openRegistry, hnone]
    rfl
  have hopen : Open { files with reads := files.reads + 1 } o.workflowDir :=
    ⟨h.sound.congr rfl, h.refused, h.normal, h.directory⟩
  exact prepareWorkflows_iff.2 ⟨files, files, _, requireDirectory_of_open h, hregistry,
    openProject_of_table h hprojects hfirst hdata hload,
    Files.find_ending hopen parse?_units hunits hsorted⟩

/-- A workflow whose definition is the one file with its name, as the table of the files lists it. -/
theorem load_of_table {registry : Option Registry} {path code markupPath markup : Bytes}
    (h : files.Open (directory path)) (hcode : files.fileAt? (normalize path) = some code)
    (hletters : ∀ c ∈ Workflow.markupName path, c ∉ Glob.marks)
    (hfound : files.filesBelow (directory path) (· == Workflow.markupName path) = [markupPath])
    (hmarkup : files.fileAt? (normalize markupPath) = some markup) :
    Ends (Workflow.load s registry path) files (Workflow.assemble s registry path code markupPath markup)
      { files with reads := files.reads + 2 } := by
  have hopen : Open { files with reads := files.reads + 1 } (directory path) :=
    ⟨h.sound.congr rfl, h.refused, h.normal, h.directory⟩
  exact Workflow.load_iff.2 ⟨_, _, _, _, _, read_ok h.refused hcode,
    Files.find_name hopen hletters hfound (List.pairwise_singleton _ _), read_ok hopen.refused hmarkup, rfl⟩

/-! ## A project with two workflows -/

def oneStep : Settings := { flow := { sequenceElements := ["S"] } }

/-- A project with two workflows, of which the second has a given code-behind source. -/
def pair (code : Bytes) : Memory where
  table := [("/", .directory), ("/p.csproj", .file "<P/>"), ("/A.xoml", .file "<S/>"),
    ("/A.xoml.cs", .file "using X;class A\x7b\x7d"), ("/B.xoml", .file "<S/>"),
    ("/B.xoml.cs", .file code)]
  writes := 5

theorem made_pair (code : Bytes) : Made (pair code) :=
  .write "/B.xoml.cs" code (.write "/B.xoml" "<S/>" (.write "/A.xoml.cs" "using X;class A\x7b\x7d"
    (.write "/A.xoml" "<S/>" (.write "/p.csproj" "<P/>" .empty))))

theorem open_pair (code : Bytes) (k : Nat) : Open { pair code with reads := k } "/" :=
  ⟨(made_pair code).sound.congr rfl, rfl, rfl, rfl⟩

set_option maxRecDepth 20000 in
theorem exists_project : ∃ p, Project.ofBytes "/p.csproj" "<P/>" = .ok p ∧ p.Plain ∧
    p.modified = false ∧ Session.stripped oneStep.project p = p := by
  obtain ⟨p, hload, hroot, hflat, helements, hmodified, hstripped⟩ :
      ∃ p, Project.ofBytes "/p.csproj" "<P/>" = .ok p ∧ Xml.rootName? p.nodes = some ⟨[], "P"⟩ ∧
        Xml.areFlat (Project.isTagged Project.removable) (Project.isTagged Project.grown) p.nodes = true ∧
        Xml.breadthFirst p.nodes = [⟨⟨[], "P"⟩, []⟩] ∧ p.modified = false ∧
        Session.stripped oneStep.project p = p := by
      repeat rw [Bytes.ofString_ofList]
      decide +kernel
  refine ⟨p, hload, ⟨fun name hname => ?_, hflat, ?_⟩, hmodified, hstripped⟩
  · obtain rfl := Option.some.inj (hroot.symm.trans hname)
    decide
  · rw [helements]
    intro e he
    rw [List.mem_singleton.1 he]
    intro a ha
    cases ha

theorem prepare_pair (code : Bytes) {project : Project}
    (hload : Project.ofBytes "/p.csproj" "<P/>" = .ok project) :
    Ends (prepareWorkflows { workflowDir := "/" }) (pair code)
      (none, project, ["/A.xoml.cs", "/B.xoml.cs"]) { pair code with reads := 1 } := by
  have hprojects : (pair code).filesBelow "/" ((".csproj" : Bytes).isSuffixOf ·) = ["/p.csproj"] := by
    rfl
  exact prepare_of_table (open_pair code 0) rfl hprojects (List.pairwise_singleton _ _) rfl hload (by rfl)
    (by decide)

def firstFlow : Workflow :=
  Workflow.assemble oneStep none "/A.xoml.cs" "using X;class A\x7b\x7d" "/A.xoml" "<S/>"

def secondFlow (code : Bytes) : Workflow :=
  Workflow.assemble oneStep none "/B.xoml.cs" code "/B.xoml" "<S/>"

theorem load_first (code : Bytes) (k : Nat) :
    Ends (Workflow.load oneStep none "/A.xoml.cs") { pair code with reads := k } firstFlow
      { pair code with reads := k + 2 } :=
  load_of_table (open_pair code k) rfl (by decide) (by rfl) rfl

theorem load_second (code : Bytes) (k : Nat) :
    Ends (Workflow.load oneStep none "/B.xoml.cs") { pair code with reads := k } (secondFlow code)
      { pair code with reads := k + 2 } :=
  load_of_table (open_pair code k) rfl (by decide) (by rfl) rfl

theorem exists_ok {α : Type} {r : Except Fault α} (h : r.toOption.isSome = true) : ∃ a, r = .ok a := by
  cases r with
  | error f => cases h
  | ok a => exact ⟨a, rfl⟩

theorem given_first (code : Bytes) : ∃ out,
    Session.Given oneStep none (pair code) "/A.xoml.cs" firstFlow out ∧
    normalize (Session.destination firstFlow out) = "/A.cs" := by
  obtain ⟨out, hout⟩ : ∃ out, firstFlow.transpile oneStep = .ok out := exists_ok (by decide +kernel)
  have hgiven : Session.Given oneStep none (pair code) "/A.xoml.cs" firstFlow out :=
    ⟨⟨_, load_first code 0⟩, hout⟩
  refine ⟨out, hgiven, ?_⟩
  rw [hgiven.destination_eq]
  decide

theorem given_second {code q : Bytes} (hout : ((secondFlow code).transpile oneStep).toOption.isSome = true)
    (hdest : normalize (join (secondFlow code).dir ((secondFlow code).name ++ (".cs" : Bytes))) = q) :
    ∃ out, Session.Given oneStep none (pair code) "/B.xoml.cs" (secondFlow code) out ∧
      normalize (Session.destination (secondFlow code) out) = q := by
  obtain ⟨out, hout⟩ := exists_ok hout
  have hgiven : Session.Given oneStep none (pair code) "/B.xoml.cs" (secondFlow code) out :=
    ⟨⟨_, load_second code 0⟩, hout⟩
  exact ⟨out, hgiven, by rw [hgiven.destination_eq, hdest]⟩

/-- The run ends without a fault when the second workflow can be migrated too. -/
theorem fault?_pair {code : Bytes} (h : Session.Ready oneStep none (pair code) "/B.xoml.cs") :
    (workflows oneStep { workflowDir := "/" } (pair code)).fault? = none := by
  obtain ⟨project, hload, -⟩ := exists_project
  refine (workflows_ok (made_pair code).sound rfl (prepare_pair code hload) Session.uncancelled_never
    (fun path hpath => ?_)
    (Option.isSome_of_eq_some (Glob.parse?_letters (by decide)))).1
  rcases List.mem_cons.1 hpath with rfl | hpath
  · obtain ⟨out, hgiven, hdest⟩ := given_first code
    refine ⟨firstFlow, out, hgiven, ?_, ?_, ?_⟩ <;> rw [hdest]
    · rfl
    · nofun
    · decide
  · rwa [List.mem_singleton.1 hpath]

theorem given_apart : ∃ out,
    Session.Given oneStep none (pair "class B\x7b\x7d") "/B.xoml.cs" (secondFlow "class B\x7b\x7d") out ∧
      normalize (Session.destination (secondFlow "class B\x7b\x7d") out) = "/B.cs" :=
  given_second (by decide +kernel) (by decide +kernel)

theorem fault?_apart :
    (workflows oneStep { workflowDir := "/" } (pair "class B\x7b\x7d")).fault? = none := by
  obtain ⟨out, hgiven, hdest⟩ := given_apart
  refine fault?_pair ⟨_, out, hgiven, ?_, ?_, ?_⟩ <;> rw [hdest]
  · rfl
  · nofun
  · decide

end Run

end Flowsmith
