import Flowsmith.Proofs.Migration.Success

/-!
# Flow classes that stay

The flow class of a workflow is written beside its code-behind file, under the name of the workflow.
Unless another workflow is written to the same place, or the clean-up takes it for a legacy file, it is
there at the end of the run, and it is what the workflow gives as it was at the beginning: what is
written for one workflow is never read for another.

* `Session.Written` : workflows that were written, and all other files as they were;
* `Run.written_stays` : the flow classes at the end of a run;
* `Run.written_lost` : of two workflows with one destination, one is lost.
-/

namespace Flowsmith

open Flowsmith.Path Memory

namespace Session

variable {s : Settings} {registry : Option Registry} {cancelled : List Bytes → Bool} {S₀ S S' : Session Memory}

/-! ## Writing one workflow after the other -/

/-- The workflows at the paths were written as they were at the beginning, in the session `S₀`, each
over those written before it, and all other files are as they were. -/
structure Written (s : Settings) (registry : Option Registry) (S₀ : Session Memory)
    (done : List Bytes) (S : Session Memory) : Prop where
  sound : Sound S.files
  refused : S.files.refused = S₀.files.refused
  root : S.root = S₀.root
  project : S.project.path = S₀.project.path
  given : ∀ path ∈ done, ∃ w out, Given s registry S₀.files path w out
  /-- Where several workflows are written, the last is there. -/
  written : ∀ before path after w out, done = before ++ path :: after →
    Given s registry S₀.files path w out →
    (∀ p ∈ after, ∀ w' out', Given s registry S₀.files p w' out' →
      normalize (destination w' out') ≠ normalize (destination w out)) →
    S.files.fileAt? (normalize (destination w out)) = some out.source
  kept : ∀ q, (∀ path ∈ done, ∀ w out, Given s registry S₀.files path w out →
    q ≠ normalize (destination w out)) → S.files.fileAt? q = S₀.files.fileAt? q

theorem Written.nil (hS₀ : Sound S₀.files) (h : Same S₀.files S.files) (hroot : S.root = S₀.root)
    (hproject : S.project.path = S₀.project.path) : Written s registry S₀ [] S where
  sound := hS₀.congr h.table
  refused := h.refused
  root := hroot
  project := hproject
  given := nofun
  written before path after _ _ hnil := absurd hnil (by simp)
  kept q _ := by rw [h.fileAt?]

/-- No workflow at the paths is written as a legacy file. -/
def NotLegacy (s : Settings) (registry : Option Registry) (m : Memory) (units : List Bytes) : Prop :=
  ∀ path ∈ units, ∀ w out, Given s registry m path w out →
    ¬ legacyWord <:+: base (normalize (destination w out))

theorem Written.sameNamed {done : List Bytes} (h : Written s registry S₀ done S)
    (hnames : NotLegacy s registry S₀.files done) : SameNamed legacyWord S.files S₀.files where
  refused := h.refused
  files q hq := h.kept q fun path hpath w out hgiven heq => hnames path hpath w out hgiven (heq ▸ hq)

theorem Written.snoc (hS₀ : Sound S₀.files) {done : List Bytes} {path : Bytes} {u : Unit}
    (h : Written s registry S₀ done S) (hnames : NotLegacy s registry S₀.files done) {dir : Bytes}
    (hdir : dir ≠ []) (hpath : IsCodeBehind dir path) (hlist : S₀.files.Listable (directory path))
    (hstep : Ends (migrateWorkflow s registry path) S u S') :
    Written s registry S₀ (done ++ [path]) S' := by
  obtain ⟨w, out, t, t', item, hload, hout, hwrite, hitem, rfl⟩ := migrateWorkflow_iff.1 hstep
  have hgiven : Given s registry S₀.files path w out :=
    ⟨Workflow.load_same h.sound hS₀ (h.sameNamed hnames) hdir hpath hlist hload, hout⟩
  have hquiet := (Workflow.keeps_load (quiet_same _) s registry path).ends (.refl S.files) hload
  obtain ⟨hsound, hrefused, hfiles⟩ := write_ends (h.sound.congr hquiet.table) hwrite
  rw [hquiet.refused] at hrefused
  rw [hquiet.fileAt?] at hfiles
  refine ⟨hsound, hrefused.trans h.refused, h.root, (Project.addCompile_path _ _).trans h.project,
    fun p hp => ?_, fun before p after w' out' hdone hgiven' hlast => ?_, fun q hq => ?_⟩
  · rcases List.mem_append.1 hp with hp | hp
    · exact h.given p hp
    · rw [List.mem_singleton.1 hp]
      exact ⟨w, out, hgiven⟩
  · show t'.fileAt? _ = _
    rcases List.eq_nil_or_concat after with rfl | ⟨after, p', rfl⟩
    · obtain ⟨rfl, hp⟩ := List.append_inj' hdone rfl
      obtain rfl := (List.cons.inj hp).1
      obtain ⟨rfl, rfl⟩ := hgiven.det hgiven'
      rw [hfiles, if_pos rfl]
    · rw [List.concat_eq_append, ← List.cons_append, ← List.append_assoc] at hdone
      obtain ⟨hbefore, hp⟩ := List.append_inj' hdone rfl
      obtain rfl := (List.cons.inj hp).1
      rw [hfiles, if_neg]
      · exact h.written before p after w' out' hbefore hgiven' fun p'' hp'' =>
          hlast p'' (by simp [hp''])
      · exact fun heq => hlast path (by simp) w out hgiven heq.symm
  · show t'.fileAt? q = _
    rw [hfiles, if_neg (hq path (by simp) w out hgiven)]
    exact h.kept q fun p hp => hq p (List.mem_append_left _ hp)

/-- A run through the workflows writes them all. -/
theorem migrateUnits_written (hS₀ : Sound S₀.files) {dir : Bytes} (hdir : dir ≠ [])
    {done units : List Bytes} {u : Unit} (hnames : NotLegacy s registry S₀.files (done ++ units))
    (hpaths : ∀ path ∈ units, IsCodeBehind dir path ∧ S₀.files.Listable (directory path))
    (hdone : Written s registry S₀ done S)
    (h : Ends (migrateUnits s registry cancelled units) S u S') :
    Written s registry S₀ (done ++ units) S' := by
  induction units generalizing done S with
  | nil =>
    obtain ⟨-, rfl⟩ := Ends.pure_iff.1 h
    rwa [List.append_nil]
  | cons path units ih =>
    obtain ⟨-, T, hfirst, hrest⟩ := migrateUnits_cons_iff.1 h
    obtain ⟨hpath, hlist⟩ := hpaths path List.mem_cons_self
    have hnow := hdone.snoc hS₀ (fun p hp => hnames p (List.mem_append_left _ hp)) hdir hpath hlist hfirst
    rw [List.append_cons] at hnames ⊢
    exact ih hnames (fun p hp => hpaths p (List.mem_cons_of_mem _ hp)) hnow hrest

end Session

namespace Run

variable {s : Settings} {o : Options} {files : Memory}

/-- From the files at the beginning of a run the workflow `w` is loaded at `path` and transpiled to
`out`. -/
def Given (s : Settings) (o : Options) (files : Memory) (path : Bytes) (w : Workflow)
    (out : Transpiled) : Prop :=
  ∃ registry t, Ends (openRegistry o) files registry t ∧ Session.Given s registry files path w out

theorem given_iff {registry : Option Registry} {t : Memory} (h : Ends (openRegistry o) files registry t)
    {path : Bytes} {w : Workflow} {out : Transpiled} :
    Given s o files path w out ↔ Session.Given s registry files path w out := by
  constructor
  · rintro ⟨registry', t', h', hgiven⟩
    obtain ⟨rfl, -⟩ := h.det h'
    exact hgiven
  · exact fun hgiven => ⟨registry, t, h, hgiven⟩

/-- In a run without a fault the workflows are written as they were at its beginning. -/
theorem Steps.written (hm : Sound files) {registry : Option Registry} {project : Project}
    {units : List Bytes} {t : Memory} {S₁ S₂ S₃ : Session Memory}
    (h : Steps s o files registry project units t S₁ S₂ S₃)
    (hnames : Session.NotLegacy s registry files units) :
    Session.Written s registry { files := files, root := o.workflowDir, project := project } units S₁ := by
  have hready := prepared hm h.prepare
  have hbegin : Session.Written s registry
      { files := files, root := o.workflowDir, project := project } []
      { files := t, root := o.workflowDir, project := project } := .nil hm hready.same rfl rfl
  exact Session.migrateUnits_written hm hready.dir hnames
    (fun path hpath => ⟨hready.codeBehind path hpath, hready.listable path hpath⟩) hbegin h.migrate

/-- The flow class of a workflow is not written over the project file. -/
theorem destination_ne_project {registry : Option Registry} {project : Project} {units : List Bytes}
    {t : Memory} (hready : Prepared o files registry project units t) {path : Bytes} {w : Workflow}
    {out : Transpiled} (hgiven : Session.Given s registry files path w out) :
    normalize (Session.destination w out) ≠ normalize project.path := by
  obtain ⟨⟨t₂, hload⟩, -⟩ := hgiven
  obtain ⟨init, n, hn, hsuffix, hdest⟩ := Session.normalize_destination hload out
  intro heq
  have hbase := hready.name
  rw [← heq, hdest, base_key init (hn n (by simp))] at hbase
  have hshort := List.suffix_of_suffix_length_le hsuffix hbase (by decide)
  exact absurd hshort (by decide)

/-- **The flow class of every workflow is there when the run has ended**, as it was given by the files
at the beginning; the clean-up may only have stripped its workflow usings when its name is that of the
assembly information. Workflows that are written to one place, or as legacy files, are left out. -/
theorem written_stays (s : Settings) (o : Options) (files : Memory) (hmade : Memory.Made files)
    (hend : (workflows s o files).fault? = none) {units : List Bytes} {t : Memory}
    (hunits : Ends (Workflow.find o.workflowDir) files units t)
    (hnames : ∀ path ∈ units, ∀ w out, Given s o files path w out →
      ¬ (".xoml" : Bytes) <:+: base (normalize (Session.destination w out)))
    (hplaces : ∀ path ∈ units, ∀ path' ∈ units, ∀ w out w' out', Given s o files path w out →
      Given s o files path' w' out' →
      normalize (Session.destination w out) = normalize (Session.destination w' out') → path = path')
    {path : Bytes} (hpath : path ∈ units) :
    ∃ w out text, Given s o files path w out ∧
      (workflows s o files).files.fileAt? (normalize (Session.destination w out)) = some text ∧
      (text = out.source ∨ text = Activity.stripWorkflowUsings out.source ∧
        ∃ ps, Glob.parse? s.project.assemblyInfo = some ps ∧
          Glob.matchesName ps (base (normalize (Session.destination w out))) = true) := by
  have hm := hmade.sound
  obtain ⟨registry, project, found, t', S₁, S₂, S₃, hsteps⟩ := exists_steps hend
  have hready := prepared hm hsteps.prepare
  obtain ⟨t₁, hregistry⟩ := hready.opened
  have hsame : ∀ path, path ∈ units ↔ path ∈ found := fun path => by
    rw [mem_find_iff hm hready.dir (Ends.tryCatch_iff.1 hunits), mem_units_iff hm hsteps.prepare]
  simp only [given_iff hregistry, hsame] at hnames hplaces hpath
  have hwritten := hsteps.written hm hnames
  obtain ⟨w, out, hgiven⟩ := hwritten.given path hpath
  -- no workflow that is written later has its place
  obtain ⟨before, after, hfound⟩ := List.append_of_mem hpath
  have hthere := hwritten.written before path after w out hfound hgiven fun p hp w' out' hgiven' heq => by
    obtain rfl := hplaces p (by simp [hfound, hp]) path hpath w' out' w out hgiven' hgiven heq
    have hnodup := hready.nodup
    rw [hfound] at hnodup
    exact (List.nodup_cons.1 (List.nodup_append.1 hnodup).2.1).1 hp
  have hroot : S₁.root ≠ [] := by
    rw [hwritten.root]
    exact hready.dir
  have hproject : normalize (Session.destination w out) ≠ normalize S₁.project.path := by
    rw [hwritten.project]
    exact destination_ne_project hready hgiven
  obtain ⟨text, htext, hkind⟩ := Session.cleanup_stays hwritten.sound hroot hproject
    (hnames path hpath w out hgiven) hthere hsteps.remove hsteps.drop
  rw [hsteps.workflows_eq]
  exact ⟨w, out, text, (given_iff hregistry).2 hgiven, htext, hkind⟩

/-- The code-behind files of the project with two workflows. -/
theorem find_pair (code : Bytes) :
    Ends (Workflow.find "/") (pair code) ["/A.xoml.cs", "/B.xoml.cs"] (pair code) :=
  Ends.tryCatch_iff.2 (Files.find_ending (open_pair code 0) parse?_units (by rfl) (by decide))

/-- The places of the two flow classes, when that of the second is known. -/
theorem destination_pair {code q : Bytes} {out : Transpiled}
    (h : Session.Given oneStep none (pair code) "/B.xoml.cs" (secondFlow code) out)
    (hdest : normalize (Session.destination (secondFlow code) out) = q) {path : Bytes}
    (hpath : path ∈ (["/A.xoml.cs", "/B.xoml.cs"] : List Bytes)) {w' : Workflow} {out' : Transpiled}
    (h' : Session.Given oneStep none (pair code) path w' out') :
    normalize (Session.destination w' out') =
      if path = ("/A.xoml.cs" : Bytes) then ("/A.cs" : Bytes) else q := by
  rcases List.mem_cons.1 hpath with rfl | hpath
  · obtain ⟨outA, hA, hdestA⟩ := given_first code
    obtain ⟨rfl, rfl⟩ := hA.det h'
    rw [hdestA, if_pos rfl]
  · obtain rfl := List.mem_singleton.1 hpath
    obtain ⟨rfl, rfl⟩ := h.det h'
    rw [hdest, if_neg (by decide)]

/-- Two workflows with names of their own: the second is there at the end. -/
theorem written_stays_pair :
    (workflows oneStep { workflowDir := "/" } (pair "class B\x7b\x7d")).fault? = none ∧
    ∃ w out text, Given oneStep { workflowDir := "/" } (pair "class B\x7b\x7d") "/B.xoml.cs" w out ∧
      (workflows oneStep { workflowDir := "/" } (pair "class B\x7b\x7d")).files.fileAt?
        (normalize (Session.destination w out)) = some text ∧
      (text = out.source ∨ text = Activity.stripWorkflowUsings out.source ∧
        ∃ ps, Glob.parse? oneStep.project.assemblyInfo = some ps ∧
          Glob.matchesName ps (base (normalize (Session.destination w out))) = true) := by
  obtain ⟨out, hgiven, hdest⟩ := given_apart
  have hregistry : Ends (openRegistry { workflowDir := "/" }) (pair "class B\x7b\x7d") none
    (pair "class B\x7b\x7d") := rfl
  refine ⟨fault?_apart, written_stays oneStep { workflowDir := "/" } (pair "class B\x7b\x7d") (made_pair _)
    fault?_apart (find_pair _) ?_ ?_ (by simp)⟩
  · intro path hpath w' out' h'
    rw [destination_pair hgiven hdest hpath ((given_iff hregistry).1 h')]
    split <;> decide
  · intro path hpath path' hpath' w₁ out₁ w₂ out₂ h₁ h₂ heq
    rw [destination_pair hgiven hdest hpath ((given_iff hregistry).1 h₁),
      destination_pair hgiven hdest hpath' ((given_iff hregistry).1 h₂)] at heq
    simp only [List.mem_cons, List.not_mem_nil, or_false] at hpath hpath'
    rcases hpath with rfl | rfl <;> rcases hpath' with rfl | rfl
    · rfl
    · exact absurd heq (by decide)
    · exact absurd heq (by decide)
    · rfl

/-- A project whose two workflows have classes of one name. -/
def crowded : Memory := pair "partial class A : C\x7b\x7d"

/-- Of two workflows whose classes have one name, the first is overwritten. -/
theorem written_lost :
    Memory.Made crowded ∧ (workflows oneStep { workflowDir := "/" } crowded).fault? = none ∧
    Ends (Workflow.find "/") crowded ["/A.xoml.cs", "/B.xoml.cs"] crowded ∧
    ∃ w out, Given oneStep { workflowDir := "/" } crowded "/A.xoml.cs" w out ∧
      (workflows oneStep { workflowDir := "/" } crowded).files.fileAt?
        (normalize (Session.destination w out)) ≠ some out.source := by
  obtain ⟨outA, hA, hdestA⟩ := given_first "partial class A : C\x7b\x7d"
  obtain ⟨outB, hB, hdestB⟩ : ∃ out, Session.Given oneStep none crowded "/B.xoml.cs"
      (secondFlow "partial class A : C\x7b\x7d") out ∧
      normalize (Session.destination (secondFlow "partial class A : C\x7b\x7d") out) = "/A.cs" :=
    given_second (by decide +kernel) (by decide +kernel)
  have hend : (workflows oneStep { workflowDir := "/" } crowded).fault? = none := by
    refine fault?_pair ⟨_, outB, hB, ?_, ?_, ?_⟩ <;> rw [hdestB]
    · rfl
    · nofun
    · decide
  have hregistry : Ends (openRegistry { workflowDir := "/" }) crowded none crowded := rfl
  refine ⟨made_pair _, hend, find_pair _, firstFlow, outA, (given_iff hregistry).2 hA, ?_⟩
  obtain ⟨registry, project, units, t, S₁, S₂, S₃, hsteps⟩ := exists_steps hend
  obtain ⟨project', hload, -⟩ := exists_project
  have hprepare := prepare_pair "partial class A : C\x7b\x7d" hload
  obtain ⟨heq, rfl⟩ := hprepare.det hsteps.prepare
  cases heq
  have hready := prepared (made_pair _).sound hprepare
  have hwritten := hsteps.written (made_pair _).sound fun path hpath w' out' h' => by
    rw [destination_pair hB hdestB hpath h', ite_self]
    decide
  -- what the second workflow wrote is there before the clean-up, and stays
  have hthere := hwritten.written ["/A.xoml.cs"] "/B.xoml.cs" [] _ outB rfl hB nofun
  obtain ⟨text, htext, hkind⟩ := Session.cleanup_stays hwritten.sound
    (by rw [hwritten.root]; exact hready.dir)
    (by rw [hwritten.project]; exact destination_ne_project hready hB)
    (by rw [hdestB]; decide) hthere hsteps.remove hsteps.drop
  have hsource : text = outB.source := by
    rcases hkind with hsame | ⟨-, ps, hps, hmatch⟩
    · exact hsame
    · have hletters : ∀ c ∈ oneStep.project.assemblyInfo, c ∉ Glob.marks := by decide
      have hparse := Glob.parse?_letters hletters
      obtain rfl := Option.some.inj (hps.symm.trans hparse)
      rw [hdestB, ← List.append_nil (List.map Glob.Part.byte _), Glob.matchesName_bytes_iff] at hmatch
      obtain ⟨u, hu, hnil⟩ := hmatch
      obtain rfl := (Glob.matchesName_nil_iff u).1 hnil
      exact absurd hu (by decide)
  rw [hsteps.workflows_eq, hdestA, ← hdestB]
  rw [hsource] at htext
  refine fun hsame => ?_
  have heq : outB.source = outA.source := Option.some.inj (htext.symm.trans hsame)
  have hdiffer : ((secondFlow "partial class A : C\x7b\x7d").transpile oneStep).toOption.map (·.source) ≠
      (firstFlow.transpile oneStep).toOption.map (·.source) := by decide +kernel
  rw [hA.2, hB.2] at hdiffer
  exact hdiffer (congrArg some heq)

end Run

end Flowsmith
