import Flowsmith.Proofs.Files.Walk
import Flowsmith.Proofs.Migration.Session
import Flowsmith.Proofs.Outcome

/-!
# Workflows of a project

A run looks for workflows by their code-behind files. What a workflow is depends on the files with
legacy names only, so that writing other files leaves it as it is.

* `Memory.SameNamed` : stores with the same files under names with a word in them;
* `Workflow.load_same` : loading depends on the legacy files only;
* `Session.Passes` : a pattern does not match the name of a file;
* `Run.mem_units_iff` : the code-behind files that a run finds;
* `Run.Prepared` : what a run has when it begins to migrate workflows.
-/

namespace Flowsmith

open Flowsmith.Path Memory

/-! ## Stores with the same legacy files -/

/-- The stores refuse the same paths and hold the same files under names with a word in them. -/
structure Memory.SameNamed (word : Bytes) (m m₀ : Memory) : Prop where
  refused : m.refused = m₀.refused
  files : ∀ q, word <:+: base q → m.fileAt? q = m₀.fileAt? q

namespace Memory.SameNamed

variable {word : Bytes} {m m₀ t : Memory}

theorem count (h : SameNamed word m m₀) (k k₀ : Nat) :
    SameNamed word { m with reads := k } { m₀ with reads := k₀ } := ⟨h.refused, h.files⟩

theorem read (h : SameNamed word m m₀) {p c : Bytes} (hp : word <:+: base (normalize p))
    (hread : Ends (Memory.read p) m c t) :
    Ends (Memory.read p) m₀ c { m₀ with reads := m₀.reads + 1 } := by
  obtain ⟨-, hfile, hrefusal⟩ := read_iff.1 hread
  refine read_iff.2 ⟨rfl, ?_, ?_⟩
  · rw [← h.files _ hp, hfile]
  · rw [← hrefusal, refusal?, refusal?, h.refused]

/-- A search for names with the word finds the same in both stores. -/
theorem find (hm : Sound m) (hm₀ : Sound m₀) (h : SameNamed word m m₀) {dir pattern : Bytes}
    {found : List Bytes} (hdir : dir ≠ [])
    (hword : ∀ ps n, Glob.parse? pattern = some ps → Glob.matchesName ps n = true → word <:+: n)
    (hlist : m₀.Listable dir) (hfind : Ends (Files.find dir pattern) m found t) :
    ∃ found₀, Ends (Files.find dir pattern) m₀ found₀ m₀ ∧ found₀.Perm found := by
  obtain ⟨rfl, ps, hps, hfound⟩ := Files.find_ends hm hdir hfind
  obtain ⟨found₀, hfind₀⟩ :=
    (Files.find_ok_iff hm₀ hdir).2 ⟨Option.isSome_iff_exists.2 ⟨ps, hps⟩, hlist⟩
  obtain ⟨-, ps₀, hps₀, hfound₀⟩ := Files.find_ends hm₀ hdir hfind₀
  obtain rfl := Option.some.inj (hps.symm.trans hps₀)
  refine ⟨found₀, hfind₀, (List.perm_ext_iff_of_nodup (Files.nodup_find hm₀ hdir hfind₀)
    (Files.nodup_find hm hdir hfind)).2 fun path => ?_⟩
  rw [hfound₀, hfound]
  refine exists_congr fun names => and_congr_left fun _ => ?_
  have hfile : ∀ ns n, (∀ k ∈ ns ++ [n], IsEntry k) → Glob.matchesName ps n = true →
      t.fileAt? (key (fromRoot dir ++ (ns ++ [n]))) =
        m₀.fileAt? (key (fromRoot dir ++ (ns ++ [n]))) := by
    intro ns n hns hmatch
    refine h.files _ ?_
    rw [Files.base_key_names hns]
    exact hword ps n hps hmatch
  constructor
  · rintro ⟨hnames, hthere, ns, n, rfl, hmatch⟩
    exact ⟨hnames, by rwa [hfile ns n hnames hmatch], ns, n, rfl, hmatch⟩
  · rintro ⟨hnames, hthere, ns, n, rfl, hmatch⟩
    exact ⟨hnames, by rwa [← hfile ns n hnames hmatch], ns, n, rfl, hmatch⟩

end Memory.SameNamed

/-- The word that the names of all legacy files hold. -/
def legacyWord : Bytes := ".xoml"

/-- A code-behind file: its path goes down from a directory and ends in a name of that kind. -/
def IsCodeBehind (dir path : Bytes) : Prop :=
  ∃ init u, (∀ k ∈ init ++ [u ++ legacyWord ++ (".cs" : Bytes)], IsEntry k) ∧
    path = join dir (Bytes.joinWith [slash] (init ++ [u ++ legacyWord ++ (".cs" : Bytes)]))

namespace Workflow

variable {s : Settings} {registry : Option Registry} {m m₀ t : Memory} {w : Workflow}

/-- The definition beside a code-behind file has its name without the ending. -/
theorem markupName_join {dir n : Bytes} {init : List Bytes} (hdir : dir ≠ [])
    (h : ∀ k ∈ init ++ [n ++ (".cs" : Bytes)], IsEntry k) :
    markupName (join dir (Bytes.joinWith [slash] (init ++ [n ++ (".cs" : Bytes)]))) = n := by
  rw [markupName, base_join hdir h, trimEnd, Bytes.dropEnd?,
    if_pos (List.isSuffixOf_iff_suffix.2 (List.suffix_append n _))]
  simp

/-- A workflow that is loaded from a store is also loaded from one with the same legacy files. -/
theorem load_same (hm : Sound m) (hm₀ : Sound m₀) (hsame : SameNamed legacyWord m m₀)
    {dir path : Bytes} (hdir : dir ≠ []) (hpath : IsCodeBehind dir path)
    (hlist : m₀.Listable (directory path)) (h : Ends (load s registry path) m w t) :
    ∃ t', Ends (load s registry path) m₀ w t' := by
  obtain ⟨init, u, hnames, hjoin⟩ := hpath
  obtain ⟨text, t₁, markupPath, t₂, markup, hread, hfind, hmarkup, rfl⟩ := load_iff.1 h
  have hread₀ := hsame.read (p := path) ?_ hread
  swap
  · rw [hjoin, Files.normalize_names hdir hnames, Files.base_key_names hnames]
    exact ⟨u, _, rfl⟩
  obtain ⟨rfl, -, -⟩ := read_iff.1 hread
  -- what is found for the definition has a name that ends like the one that is looked for
  have hname : markupName path = u ++ legacyWord := by
    rw [hjoin]
    exact markupName_join hdir hnames
  have hword : ∀ ps n, Glob.parse? (markupName path) = some ps → Glob.matchesName ps n = true →
      legacyWord <:+: n := fun ps n hps hmatch => by
    rw [hname] at hps
    exact (Glob.suffix_of_matchesName (by decide) hps hmatch).isInfix
  have hsound : Sound { m with reads := m.reads + 1 } := hm.congr rfl
  have hsound₀ : Sound { m₀ with reads := m₀.reads + 1 } := hm₀.congr rfl
  have hcount := hsame.count (m.reads + 1) (m₀.reads + 1)
  have hbeside := directory_ne_nil path
  obtain ⟨found, hfind₀, hperm⟩ := SameNamed.find hsound hsound₀ hcount hbeside hword
    ⟨hlist.directory, hlist.free⟩ hfind
  obtain rfl := List.perm_singleton.1 hperm
  obtain ⟨rfl, ps, hps, hfound⟩ := Files.find_ends hsound hbeside hfind
  obtain ⟨names, ⟨hentries, -, above, n, rfl, hmatch⟩, rfl⟩ :=
    (hfound markupPath).1 (List.mem_singleton.2 rfl)
  have hread₁ := hcount.read ?_ hmarkup
  · exact ⟨_, load_iff.2 ⟨text, _, _, _, markup, hread₀, hfind₀, hread₁, rfl⟩⟩
  · rw [Files.normalize_names hbeside hentries, Files.base_key_names hentries]
    exact hword ps n hps hmatch

end Workflow

/-- From the files `m` the workflow `w` is loaded at `path` and transpiled to `out`. -/
def Session.Given (s : Settings) (registry : Option Registry) (m : Memory) (path : Bytes) (w : Workflow)
    (out : Transpiled) : Prop :=
  (∃ t, Ends (Workflow.load s registry path) m w t) ∧ w.transpile s = .ok out

theorem Session.Given.det {s : Settings} {registry : Option Registry} {m : Memory} {path : Bytes}
    {w w' : Workflow} {out out' : Transpiled}
    (h : Given s registry m path w out) (h' : Given s registry m path w' out') : w = w' ∧ out = out' := by
  obtain ⟨⟨t, hload⟩, hout⟩ := h
  obtain ⟨⟨t', hload'⟩, hout'⟩ := h'
  obtain ⟨rfl, -⟩ := hload.det hload'
  exact ⟨rfl, Except.ok.inj (hout.symm.trans hout')⟩

theorem Workflow.transpile_name {s : Settings} {w : Workflow} {out : Transpiled}
    (h : w.transpile s = .ok out) : out.name = w.name := by
  obtain ⟨flow, -, h⟩ := bind_eq_ok h
  obtain ⟨source, -, h⟩ := bind_eq_ok h
  obtain ⟨carried, -, h⟩ := bind_eq_ok h
  cases h
  rfl

/-- The flow class of a workflow is written beside it, under its name. -/
theorem Session.Given.destination_eq {s : Settings} {registry : Option Registry} {m : Memory}
    {path : Bytes} {w : Workflow} {out : Transpiled} (h : Given s registry m path w out) :
    destination w out = join w.dir (w.name ++ (".cs" : Bytes)) := by
  rw [destination, Workflow.transpile_name h.2]

/-! ## Patterns -/

namespace Session

variable {pattern path : Bytes}

/-- A pattern does not match the name at the end of a path. -/
def Passes (pattern path : Bytes) : Prop :=
  ∀ ps, Glob.parse? pattern = some ps → Glob.matchesName ps (base (normalize path)) = false

theorem passes_letters {w : Bytes} (hw : ∀ c ∈ w, c ∉ Glob.marks) (h : base (normalize path) ≠ w) :
    Passes w path := by
  intro ps hps
  obtain rfl := Option.some.inj (hps.symm.trans (Glob.parse?_letters hw))
  exact eq_false_of_ne_true fun hmatch => h ((Glob.matchesName_letters_iff _ _).1 hmatch)

/-- The empty pattern matches no name. -/
theorem passes_nil (h : base (normalize path) ≠ []) : Passes [] path := passes_letters (fun _ => nofun) h

theorem passes_ending {w : Bytes} (hps : Glob.parse? pattern = some (.star :: w.map .byte))
    (hslash : slash ∉ base (normalize path)) (h : ¬ w <:+ base (normalize path)) : Passes pattern path := by
  intro ps hps'
  obtain rfl := Option.some.inj (hps'.symm.trans hps)
  exact eq_false_of_ne_true fun hmatch => h ((Glob.matchesName_after_iff _ hslash).1 hmatch)

end Session

namespace Run

variable {s : Settings} {o : Options} {files : Memory}

/-- The pattern of code-behind files. -/
theorem parse?_units :
    Glob.parse? "*.xoml.cs" = some (.star :: (".xoml.cs" : Bytes).map .byte) := Glob.parse?_after (by decide)

theorem parse?_legacy :
    Glob.parse? "*.xoml*" = some (.star :: (legacyWord.map .byte ++ [.star])) := by decide +kernel

theorem parse?_project :
    Glob.parse? "*.csproj" = some (.star :: (".csproj" : Bytes).map .byte) := Glob.parse?_after (by decide)

/-- The code-behind files that are found are the files below the directory with such a name. -/
theorem mem_find_iff (hm : Sound files) {dir : Bytes} (hdir : dir ≠ []) {units : List Bytes}
    {t : Memory} (h : Ends (Files.find dir "*.xoml.cs") files units t) (path : Bytes) :
    path ∈ units ↔ ∃ init n, (∀ k ∈ init ++ [n], IsEntry k) ∧ (".xoml.cs" : Bytes) <:+ n ∧
      (∃ c, files.fileAt? (key (fromRoot dir ++ (init ++ [n]))) = some c) ∧
      path = join dir (Bytes.joinWith [slash] (init ++ [n])) := by
  obtain ⟨-, ps, hps, hunits⟩ := Files.find_ends hm hdir h
  rw [parse?_units] at hps
  cases hps
  rw [hunits]
  constructor
  · rintro ⟨names, ⟨hnames, hfile, init, n, rfl, hmatch⟩, rfl⟩
    exact ⟨init, n, hnames,
      (Glob.matchesName_after_iff _ (hnames n (by simp)).no_slash).1 hmatch, hfile, rfl⟩
  · rintro ⟨init, n, hnames, hsuffix, hfile, rfl⟩
    exact ⟨init ++ [n], ⟨hnames, hfile, init, n, rfl,
      (Glob.matchesName_after_iff _ (hnames n (by simp)).no_slash).2 hsuffix⟩, rfl⟩

/-- A run goes through the code-behind files that are found at its beginning. -/
theorem mem_units_iff (hm : Sound files) {registry : Option Registry} {p : Project}
    {units : List Bytes} {t : Memory} (h : Ends (prepareWorkflows o) files (registry, p, units) t)
    (path : Bytes) :
    path ∈ units ↔ ∃ init n, (∀ k ∈ init ++ [n], IsEntry k) ∧ (".xoml.cs" : Bytes) <:+ n ∧
      (∃ c, files.fileAt? (key (fromRoot o.workflowDir ++ (init ++ [n]))) = some c) ∧
      path = join o.workflowDir (Bytes.joinWith [slash] (init ++ [n])) := by
  obtain ⟨t₁, t₂, t₃, hdir, hregistry, hopen, hfind⟩ := prepareWorkflows_iff.1 h
  have hquiet := quiet_same files
  have h₁ := (keeps_requireDirectory hquiet _).ends (.refl _) hdir
  have h₂ := (keeps_openRegistry hquiet _).ends h₁ hregistry
  have h₃ := (keeps_openProject hquiet _).ends h₂ hopen
  rw [mem_find_iff (hm.congr h₃.table) (ne_nil_of_requireDirectory hdir) hfind, h₃.fileAt?]

/-- The last name of where a project file was found. -/
theorem normalize_of_openProject {dir : Bytes} {p : Project} {t : Memory} (hm : Sound files) (hdir : dir ≠ [])
    (hopen : Ends (openProject dir) files p t) :
    ∃ init n, (∀ k ∈ init ++ [n], IsEntry k) ∧ (".csproj" : Bytes) <:+ n ∧
      normalize p.path = key (init ++ [n]) := by
  obtain ⟨t₁, data, hfirst, -⟩ := openProject_iff.1 hopen
  obtain ⟨-, hfound⟩ := Files.findFirst?_ends hm hdir hfirst
  obtain ⟨ps, names, hps, ⟨hnames, -, above, n, rfl, hmatch⟩, hpath⟩ := hfound _ rfl
  obtain rfl := Option.some.inj (hps.symm.trans parse?_project)
  refine ⟨fromRoot dir ++ above, n, fun k hk => ?_,
    (Glob.matchesName_after_iff _ (hnames n (by simp)).no_slash).1 hmatch, ?_⟩
  · rw [List.append_assoc] at hk
    exact (List.mem_append.1 hk).elim (isEntry_fromRoot dir k) (hnames k)
  · rw [hpath, Files.normalize_names hdir hnames, List.append_assoc]

theorem listable_directory (hm : Sound files) (hdir : dir ≠ []) (hlist : files.Listable dir)
    {init : List Bytes} {n c : Bytes} (hnames : ∀ k ∈ init ++ [n], IsEntry k)
    (hfile : files.fileAt? (key (fromRoot dir ++ (init ++ [n]))) = some c) :
    files.Listable (directory (join dir (Bytes.joinWith [slash] (init ++ [n])))) := by
  have hroot := fromRoot_directory_join hdir hnames
  have hinit : ∀ k ∈ init, IsEntry k := fun k hk => hnames k (List.mem_append_left _ hk)
  refine hlist.down hinit hroot ?_
  rw [normalize_eq, hroot]
  rw [← List.append_assoc] at hfile
  refine hm.parent_key (fun k hk => ?_) (hnames n (by simp)) (fileAt?_eq_some.1 hfile)
  exact (List.mem_append.1 hk).elim (isEntry_fromRoot _ k) (hinit k)

/-- What a run has when it begins to migrate workflows. -/
structure Prepared (o : Options) (files : Memory) (registry : Option Registry) (project : Project)
    (units : List Bytes) (t : Memory) : Prop where
  same : Same files t
  dir : o.workflowDir ≠ []
  searched : files.Listable o.workflowDir
  opened : ∃ t', Ends (openRegistry o) files registry t'
  loaded : ∃ data, files.fileAt? (normalize project.path) = some data ∧
    Project.ofBytes project.path data = .ok project
  name : (".csproj" : Bytes) <:+ base (normalize project.path)
  nodup : units.Nodup
  codeBehind : ∀ path ∈ units, IsCodeBehind o.workflowDir path
  listable : ∀ path ∈ units, files.Listable (directory path)

theorem prepared (hm : Sound files) {registry : Option Registry} {p : Project} {units : List Bytes}
    {t : Memory} (h : Ends (prepareWorkflows o) files (registry, p, units) t) :
    Prepared o files registry p units t := by
  have hmem := mem_units_iff hm h
  obtain ⟨t₁, t₂, t₃, hdir, hregistry, hopen, hfind⟩ := prepareWorkflows_iff.1 h
  have hne := ne_nil_of_requireDirectory hdir
  obtain ⟨rfl, -⟩ := Files.isDirectory_ends (requireDirectory_iff.1 hdir)
  have h₂ := (keeps_openRegistry (quiet_same t₁) _).ends (.refl _) hregistry
  obtain ⟨t₄, data, hfirst, hread, hbytes⟩ := openProject_iff.1 hopen
  have hm₂ : Sound t₂ := hm.congr h₂.table
  obtain ⟨rfl, hproject⟩ := Files.findFirst?_ends hm₂ hne hfirst
  obtain ⟨rfl, hdata, -⟩ := read_iff.1 hread
  have hm₃ : Sound { t₄ with reads := t₄.reads + 1 } := hm₂.congr rfl
  obtain ⟨rfl, -⟩ := Files.find_ends hm₃ hne hfind
  have h₃ : Same t₁ { t₄ with reads := t₄.reads + 1 } := ⟨h₂.table, h₂.refused⟩
  have hlist : t₁.Listable o.workflowDir := ((Files.find_ok_iff hm₃ hne).1 ⟨units, hfind⟩).2.of_same h₃
  refine ⟨h₃, hne, hlist, ⟨_, hregistry⟩, ⟨data, ?_, hbytes⟩, ?_,
    Files.nodup_find hm₃ hne hfind, ?_, ?_⟩
  · rw [← h₂.fileAt?]
    exact hdata
  · obtain ⟨ps, names, hps, ⟨hnames, -, above, n, rfl, hmatch⟩, hpath⟩ := hproject _ rfl
    rw [hpath, Files.normalize_names hne hnames, Files.base_key_names hnames]
    rw [parse?_project] at hps
    cases hps
    exact (Glob.matchesName_after_iff _ (hnames n (by simp)).no_slash).1 hmatch
  · intro path hpath
    obtain ⟨init, n, hnames, ⟨u, rfl⟩, -, rfl⟩ := (hmem path).1 hpath
    exact ⟨init, u, by rwa [List.append_assoc], by rw [List.append_assoc]; rfl⟩
  · intro path hpath
    obtain ⟨init, n, hnames, -, ⟨c, hc⟩, rfl⟩ := (hmem path).1 hpath
    exact listable_directory hm hne hlist hnames hc

end Run

end Flowsmith
