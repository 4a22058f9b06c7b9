import Flowsmith.Proofs.Migration.Account
import Flowsmith.Proofs.Migration.DryRun

/-!
# Dry runs of both projects

The activities are migrated over the overlay that the workflows left. A flow class that was written
where no file was is not listed there, and a path that is spelled in another way is not known to be
changed. Where neither matters to the activities, the second migration goes alike too.

* `Run.Apparent` : the activities look for nothing that the workflows only wrote;
* `Run.dry_run_all_alike` : a dry run of both reports what the real run does.
-/

namespace Flowsmith.Run

open Flowsmith.Path Memory

variable {s : Settings} {o : Options} {files : Memory}

/-- What the workflows leave shows to the activities: no flow class where no file was is searched for as
an activity or as a designer file, and what lies in both projects has one path. -/
structure Apparent (s : Settings) (o : Options) (files : Memory) : Prop where
  overlooked : ∀ pattern ∈ [s.activities.designerPattern, s.activities.filePattern],
    Shadows.Overlooks (Fresh s o files) o.activities pattern
  spelled : ∀ p q, Below o.workflowDir p → Below o.activities q → normalize p = normalize q → p = q

def Inside (o : Options) (p : Bytes) : Prop :=
  (o.workflowDir ≠ [] ∧ Below o.workflowDir p) ∨ (o.activities ≠ [] ∧ Below o.activities p)

theorem Apparent.apart (h : Apparent s o files) : Apart (Inside o) := by
  rintro p q (⟨hne, hp⟩ | ⟨hne, hp⟩) (⟨-, hq⟩ | ⟨-, hq⟩) heq
  · exact apart_below hne hp hq heq
  · exact h.spelled p q hp hq heq
  · exact (h.spelled q p hq hp heq.symm).symm
  · exact apart_below hne hp hq heq

theorem overlooks_project : Shadows.Overlooks (Fresh s o files) o.activities "*.csproj" := by
  rintro p ⟨-, w, out, ⟨registry, project, t, before, path, after, -, -, -, hgiven⟩, rfl⟩ - ps hps
  obtain ⟨⟨t₂, hload⟩, -⟩ := hgiven
  obtain ⟨init, n, hn, hsuffix, hdest⟩ := Session.normalize_destination hload out
  obtain rfl := Option.some.inj (hps.symm.trans parse?_project)
  rw [hdest, base_key init (hn n (by simp))]
  refine eq_false_of_ne_true fun hmatch => ?_
  have hproject := (Glob.matchesName_after_iff _ (hn n (by simp)).no_slash).1 hmatch
  have hshort := List.suffix_of_suffix_length_le hsuffix hproject (by decide)
  exact absurd hshort (by decide)

/-- The activities overlook every flow class that was written where no file was. -/
theorem Apparent.overlooks (h : Apparent s o files)
    (hsettles : ∀ w out, Generates s o files w out → Settles s files w out) :
    ∀ pattern ∈ [("*.csproj" : Bytes), s.activities.designerPattern, s.activities.filePattern,
      s.project.assemblyInfo], Shadows.Overlooks (Fresh s o files) o.activities pattern := by
  intro pattern hpattern
  simp only [List.mem_cons, List.not_mem_nil, or_false] at hpattern
  rcases hpattern with rfl | rfl | rfl | rfl
  · exact overlooks_project
  · exact h.overlooked _ (by simp)
  · exact h.overlooked _ (by simp)
  · rintro p ⟨-, w, out, hgenerates, rfl⟩ - ps hps
    exact (hsettles w out hgenerates).notInfo ps hps

/-- **A dry run of both migrations reports what the real run does** when every flow class that the run
gives has a place of its own and, in case the workflows are migrated without a fault, what they leave
shows to the activities. -/
theorem dry_run_all_alike (s : Settings) (o : Options) (files : Memory) (hmade : Made files)
    (hrefused : files.refused = [])
    (hsettles : ∀ w out, Generates s o files w out → Settles s files w out)
    (happarent : (workflows s o files).fault? = none → Apparent s o files) :
    let dry := perform s .all { o with dryRun := true } files
    let real := perform s .all { o with dryRun := false } files
    dry.1.sections = real.1.sections ∧ dry.2.1 = real.2.1 := by
  intro dry real
  have hm := hmade.sound
  by_cases hfault : (workflows s o files).fault? = none
  · have h := happarent hfault
    have hfirst := workflows_shadowed hm hrefused h.apart (fun hne p hp => .inl ⟨hne, hp⟩) hsettles
    have hboth := hfirst.andThen fun _ => activities_shadowed hfirst.files h.apart
      (fun hne p hp => .inr ⟨hne, hp⟩) (h.overlooks hsettles)
    exact ⟨hboth.sections, hboth.fault?⟩
  · have hapart : Apart fun p => o.workflowDir ≠ [] ∧ Below o.workflowDir p :=
      fun p q hp hq => apart_below hp.1 hp.2 hq.2
    have hfirst := workflows_shadowed hm hrefused hapart (fun hne p hp => ⟨hne, hp⟩) hsettles
    have hboth : Alike _ (andThen _ (activities s o)) (andThen _ (activities s o)) :=
      hfirst.andThen fun hnone => absurd hnone hfault
    exact ⟨hboth.sections, hboth.fault?⟩

/-! ## A project with a workflow and an activity -/

/-- Settings with designer files, activities and assembly information. -/
def mixing : Settings where
  flow := { sequenceElements := ["S"] }
  activities := { designerPattern := "*.designer.cs", filePattern := "*Activity.cs" }
  project := { assemblyInfo := "AssemblyInfo.cs" }

/-- A project with a workflow, an activity and a designer file. -/
def mixed : Memory where
  table := [("/", .directory), ("/p.csproj", .file "<P/>"), ("/A.xoml", .file "<S/>"),
    ("/A.xoml.cs", .file "class A\x7b\x7d"), ("/BActivity.cs", .file "partial class B\x7b\x7d"),
    ("/B.designer.cs", .file [])]
  writes := 5

theorem made_mixed : Made mixed :=
  .write "/B.designer.cs" [] (.write "/BActivity.cs" "partial class B\x7b\x7d"
    (.write "/A.xoml.cs" "class A\x7b\x7d" (.write "/A.xoml" "<S/>" (.write "/p.csproj" "<P/>" .empty))))

theorem open_mixed (k : Nat) : Open { mixed with reads := k } "/" :=
  ⟨made_mixed.sound.congr rfl, rfl, rfl, rfl⟩

theorem prepare_mixed : ∃ project : Project,
    Ends (prepareWorkflows { workflowDir := "/" }) mixed (none, project, ["/A.xoml.cs"])
      { mixed with reads := 1 } := by
  obtain ⟨project, hload, -⟩ := exists_project
  exact ⟨project, prepare_of_table (open_mixed 0) rfl (show mixed.filesBelow "/"
    ((".csproj" : Bytes).isSuffixOf ·) = ["/p.csproj"] from rfl) (List.pairwise_singleton _ _) rfl hload
    (by rfl) (List.pairwise_singleton _ _)⟩

def mixedFlow : Workflow :=
  Workflow.assemble mixing none "/A.xoml.cs" "class A\x7b\x7d" "/A.xoml" "<S/>"

theorem given_mixed : ∃ out, Session.Given mixing none mixed "/A.xoml.cs" mixedFlow out ∧
    slash ∉ out.name ∧ normalize (Session.destination mixedFlow out) = "/A.cs" := by
  obtain ⟨out, hout⟩ : ∃ out, mixedFlow.transpile mixing = .ok out := exists_ok (by decide +kernel)
  have hgiven : Session.Given mixing none mixed "/A.xoml.cs" mixedFlow out :=
    ⟨⟨_, load_of_table (open_mixed 0) rfl (by decide) (by rfl) rfl⟩, hout⟩
  refine ⟨out, hgiven, ?_, ?_⟩
  · rw [Workflow.transpile_name hout]
    decide
  · rw [hgiven.destination_eq]
    decide

theorem place_mixed {w : Workflow} {out : Transpiled} (h : Generates mixing { workflowDir := "/" } mixed w out) :
    slash ∉ out.name ∧ normalize (Session.destination w out) = "/A.cs" := by
  obtain ⟨project, hprepare⟩ := prepare_mixed
  obtain ⟨path, hpath, hgiven⟩ := h.exists_given hprepare
  obtain rfl := List.mem_singleton.1 hpath
  obtain ⟨out', hgiven', hplace⟩ := given_mixed
  obtain ⟨rfl, rfl⟩ := hgiven'.det hgiven
  exact hplace

/-- The activities find an activity and a designer file, and not the flow class. -/
theorem apparent_mixed : Apparent mixing { workflowDir := "/" } mixed where
  overlooked := by
    refine List.forall_mem_cons.2 ⟨?_, List.forall_mem_singleton.2 ?_⟩ <;>
      rintro p ⟨-, w, out, hgenerates, rfl⟩ -
    · refine Session.passes_ending (w := ".designer.cs") (Glob.parse?_after (by decide)) ?_ ?_ <;>
        rw [(place_mixed hgenerates).2] <;> decide
    · refine Session.passes_ending (w := "Activity.cs") (Glob.parse?_after (by decide)) ?_ ?_ <;>
        rw [(place_mixed hgenerates).2] <;> decide
  spelled _ _ hp hq heq := apart_below (List.cons_ne_nil _ _) hp hq heq

/-- The workflows are migrated, and there is an activity and a designer file for the second migration. -/
theorem dry_run_all_alike_mixed :
    let dry := perform mixing .all { workflowDir := "/", dryRun := true } mixed
    let real := perform mixing .all { workflowDir := "/", dryRun := false } mixed
    (dry.1.sections = real.1.sections ∧ dry.2.1 = real.2.1) ∧
      (workflows mixing { workflowDir := "/" } mixed).fault? = none ∧
      Ends (Files.find "/" mixing.activities.designerPattern) mixed ["/B.designer.cs"] mixed ∧
      Ends (Files.find "/" mixing.activities.filePattern) mixed ["/BActivity.cs"] mixed := by
  intro dry real
  refine ⟨dry_run_all_alike mixing { workflowDir := "/" } mixed made_mixed rfl (fun w out hgenerates => ?_)
    fun _ => apparent_mixed, ?_, ?_, ?_⟩
  · obtain ⟨hname, hdest⟩ := place_mixed hgenerates
    exact settles_of_place hname hdest nofun (by decide) (by decide) (by decide)
  · obtain ⟨project, hprepare⟩ := prepare_mixed
    obtain ⟨out, hgiven, -, hdest⟩ := given_mixed
    refine (workflows_ok made_mixed.sound rfl hprepare Session.uncancelled_never
      (List.forall_mem_singleton.2 ⟨_, out, hgiven, ?_, ?_, ?_⟩)
      (Option.isSome_of_eq_some (Glob.parse?_letters (by decide)))).1 <;> rw [hdest]
    · rfl
    · nofun
    · decide
  · exact Files.find_ending (w := ".designer.cs") (open_mixed 0) (Glob.parse?_after (by decide)) (by rfl)
      (List.pairwise_singleton _ _)
  · exact Files.find_ending (w := "Activity.cs") (open_mixed 0) (Glob.parse?_after (by decide)) (by rfl)
      (List.pairwise_singleton _ _)

/-! ## A flow class that the activities take away -/

/-- Settings that take a flow class for a designer file. -/
def tidying : Settings :=
  { flow := { sequenceElements := ["S"] }, activities := { designerPattern := "A.cs" } }

/-- A project with one workflow, whose flow class is listed already. -/
def listed : Memory where
  table := [("/", .directory), ("/p.csproj", .file "<P><Compile Include='A.cs'/></P>"),
    ("/A.xoml", .file "<S/>"), ("/A.xoml.cs", .file "class A\x7b\x7d")]
  writes := 3

def classed (c : Bytes) : Memory where
  table := [("/", .directory), ("/p.csproj", .file "<P><Compile Include='A.cs'/></P>"),
    ("/A.xoml", .file "<S/>"), ("/A.xoml.cs", .file "class A\x7b\x7d"), ("/A.cs", .file c)]
  reads := 3
  writes := 4

def tidied (c : Bytes) : Memory where
  table := [("/", .directory), ("/p.csproj", .file "<P><Compile Include='A.cs'/></P>"),
    ("/A.cs", .file c)]
  reads := 3
  writes := 4

/-- What is left when the flow class is taken away too. -/
def emptied : Memory where
  table := [("/", .directory), ("/p.csproj", .file "<P><Compile Include='A.cs'/></P>")]
  reads := 4
  writes := 4

def listedFlow : Workflow :=
  Workflow.assemble tidying none "/A.xoml.cs" "class A\x7b\x7d" "/A.xoml" "<S/>"

theorem made_listed : Made listed :=
  .write "/A.xoml.cs" "class A\x7b\x7d" (.write "/A.xoml" "<S/>"
    (.write "/p.csproj" "<P><Compile Include='A.cs'/></P>" .empty))

theorem open_listed (k : Nat) : Open { listed with reads := k } "/" :=
  ⟨made_listed.sound.congr rfl, rfl, rfl, rfl⟩

set_option maxRecDepth 20000 in
theorem exists_listed : ∃ p, Project.ofBytes "/p.csproj" "<P><Compile Include='A.cs'/></P>" = .ok p ∧
    p.addCompile "A.cs" = p ∧ p.modified = false ∧ (p.removeItems "A.xoml").2 = p ∧
    (p.removeItems "A.xoml.cs").2 = p ∧ Session.stripped tidying.project p = p := by
  repeat rw [Bytes.ofString_ofList]
  decide +kernel

theorem prepare_listed {p : Project}
    (hload : Project.ofBytes "/p.csproj" "<P><Compile Include='A.cs'/></P>" = .ok p) :
    Ends (prepareWorkflows { workflowDir := "/" }) listed (none, p, ["/A.xoml.cs"])
      { listed with reads := 1 } := by
  have hprojects : listed.filesBelow "/" ((".csproj" : Bytes).isSuffixOf ·) = ["/p.csproj"] := by rfl
  exact prepare_of_table (open_listed 0) rfl hprojects (List.pairwise_singleton _ _) rfl hload (by rfl)
    (by decide)

theorem load_listed {k : Nat} : Ends (Workflow.load tidying none "/A.xoml.cs") { listed with reads := k }
    listedFlow { listed with reads := k + 2 } :=
  load_of_table (open_listed k) rfl (by decide) (by rfl) rfl

theorem destination_listed {out : Transpiled} (hout : listedFlow.transpile tidying = .ok out) :
    Session.destination listedFlow out = "/A.cs" := by
  rw [Session.destination, Workflow.transpile_name hout]
  decide

/-- The flow class is the only one that the run gives, and settles. -/
theorem settles_listed (w : Workflow) (out : Transpiled)
    (h : Generates tidying { workflowDir := "/" } listed w out) : Settles tidying listed w out := by
  obtain ⟨p, hp, -⟩ := exists_listed
  obtain ⟨path, hpath, ⟨t', hload⟩, hout⟩ := h.exists_given (prepare_listed hp)
  obtain rfl := List.mem_singleton.1 hpath
  obtain ⟨rfl, -⟩ := (load_listed (k := 0)).det hload
  have hname : slash ∉ out.name := by
    rw [Workflow.transpile_name hout]
    decide
  have hdest : normalize (Session.destination listedFlow out) = "/A.cs" := by
    rw [destination_listed hout]
    rfl
  exact settles_of_place hname hdest nofun (by decide) (by decide) (by decide)

theorem write_listed (c : Bytes) :
    Ends (FileStore.write "/A.cs" c) { listed with reads := 3 } () (classed c) := rfl

/-- The legacy files are taken away one after the other. -/
theorem remove_classed (c : Bytes) :
    ∃ m, Ends (FileStore.remove "/A.xoml") (classed c) () m ∧
      Ends (FileStore.remove "/A.xoml.cs") m () (tidied c) := ⟨_, rfl, rfl⟩

theorem workflows_listed : ∃ es c, workflows tidying { workflowDir := "/" } listed =
    { sections := [⟨"workflows", "/", es⟩], files := tidied c } ∧ Sound (tidied c) := by
  obtain ⟨p, hload, hadd, hmodified, hdefinition, hcode, hstripped⟩ := exists_listed
  obtain ⟨out, hout⟩ : ∃ out, listedFlow.transpile tidying = .ok out := exists_ok (by decide +kernel)
  have hdest := destination_listed hout
  have hwrite : Ends (FileStore.write (Session.destination listedFlow out) out.source)
      { listed with reads := 3 } () (classed out.source) := by
    rw [hdest]
    exact write_listed out.source
  have hitem : Project.relativePath "/" (Session.destination listedFlow out) = .ok "A.cs" := by
    rw [hdest]
    rfl
  obtain ⟨S₁, hmigrate, rfl⟩ : ∃ S₁, Ends (Session.migrateUnits tidying none never ["/A.xoml.cs"])
      { files := { listed with reads := 1 }, root := "/", project := p } () S₁ ∧ S₁ =
      { files := classed out.source, root := "/", project := p
        entries := [Session.generateEntry "/" "/A.xoml.cs" listedFlow out] } :=
    ⟨_, Session.migrateUnits_cons_iff.2 ⟨rfl, _, Session.migrateWorkflow_iff.2 ⟨listedFlow, out, _, _,
      "A.cs", load_listed, hout, hwrite, hitem, rfl⟩, Ends.pure_iff.2 ⟨rfl, rfl⟩⟩, by simp [hadd]⟩
  have hread : Sound { listed with reads := 3 } := made_listed.sound.congr rfl
  have hsound : Sound (classed out.source) := (write_ends hread (write_listed out.source)).1
  have hfind : Ends (Files.find "/" "*.xoml*") (classed out.source) ["/A.xoml", "/A.xoml.cs"]
      (classed out.source) :=
    Files.find_around ⟨hsound, rfl, rfl, rfl⟩ parse?_legacy (by cbv) (by decide)
  obtain ⟨S₂, hremove, hfiles, hroot, hproject⟩ : ∃ S₂, Ends (Session.removeFiles "*.xoml*")
      { files := classed out.source, root := "/", project := p
        entries := [Session.generateEntry "/" "/A.xoml.cs" listedFlow out] } () S₂ ∧
      S₂.files = tidied out.source ∧ S₂.root = "/" ∧ S₂.project = p := by
    obtain ⟨m, hfirst, hsecond⟩ := remove_classed out.source
    have hitems : Project.relativePath "/" "/A.xoml" = .ok "A.xoml" ∧
        Project.relativePath "/" "/A.xoml.cs" = .ok "A.xoml.cs" := ⟨rfl, rfl⟩
    refine ⟨_, Session.removeFiles_iff.2 ⟨_, _, hfind, Ends.bind_iff.2 ⟨(), _,
      Session.removeFile_iff.2 ⟨m, _, hfirst, hitems.1, rfl⟩, Ends.bind_iff.2 ⟨(), _,
      Session.removeFile_iff.2 ⟨_, _, hsecond, hitems.2, rfl⟩, rfl⟩⟩⟩, rfl, rfl, ?_⟩
    simp [hdefinition, hcode]
  obtain ⟨found, ps, -, -, hremoved⟩ :=
    Session.removeFiles_removed hsound (List.cons_ne_nil _ _) hremove
  have htidied : Sound (tidied out.source) := by
    rw [← hfiles]
    exact hremoved.sound
  have hdrop : Ends (Session.dropLegacyReferences tidying.project) S₂ () S₂ := by
    refine Session.dropLegacyReferences_unchanged (by rw [hproject, hmodified])
      (by rw [hproject, hstripped]) ?_
    rw [hroot, hfiles]
    exact Files.find_name ⟨htidied, rfl, rfl, rfl⟩ (by decide) (by cbv) .nil
  have hsteps : Steps tidying { workflowDir := "/" } listed none p ["/A.xoml.cs"] _ _ S₂ S₂ :=
    ⟨prepare_listed hload, hmigrate, hremove, hdrop⟩
  exact ⟨S₂.entries, out.source, by rw [hsteps.workflows_eq, hfiles], htidied⟩

theorem prepare_tidied {c : Bytes} (hsound : Sound (tidied c)) {p : Project}
    (hload : Project.ofBytes "/p.csproj" "<P><Compile Include='A.cs'/></P>" = .ok p) :
    Ends (prepareActivities { workflowDir := "/" }) (tidied c) p { tidied c with reads := 4 } := by
  have hopen : Open (tidied c) "/" := ⟨hsound, rfl, rfl, rfl⟩
  have hprojects : (tidied c).filesBelow "/" ((".csproj" : Bytes).isSuffixOf ·) = ["/p.csproj"] := by cbv
  exact Ends.bind_iff.2 ⟨(), _, requireDirectory_of_open hopen,
    openProject_of_table hopen hprojects (List.pairwise_singleton _ _) rfl hload⟩

/-- The real migration of the activities takes the flow class away. -/
theorem activities_tidied {c : Bytes} (hsound : Sound (tidied c)) : ∃ e es,
    (activities tidying { workflowDir := "/" } (tidied c)).sections = [⟨"activities", "/", e :: es⟩] := by
  obtain ⟨p, hload, -⟩ := exists_listed
  have hprepare := prepare_tidied hsound hload
  have hread : Sound { tidied c with reads := 4 } := hsound.congr rfl
  have hfind : Ends (Files.find "/" "A.cs") { tidied c with reads := 4 } ["/A.cs"]
      { tidied c with reads := 4 } :=
    Files.find_name ⟨hread, rfl, rfl, rfl⟩ (by decide) (by cbv) (List.pairwise_singleton _ _)
  have hgone : Ends (FileStore.remove "/A.cs") { tidied c with reads := 4 } () emptied := rfl
  have hremove : Ends (Session.removeFiles tidying.activities.designerPattern)
      { files := { tidied c with reads := 4 }, root := "/", project := p } ()
      { files := emptied, root := "/", project := (p.removeItems "A.cs").2
        entries := [Session.removalEntry "/" "/A.cs" (p.removeItems "A.cs").1] } := by
    refine Session.removeFiles_iff.2 ⟨_, _, hfind, Ends.bind_iff.2 ⟨(), _, ?_, rfl⟩⟩
    exact Session.removeFile_iff.2 ⟨emptied, "A.cs", hgone, rfl, rfl⟩
  obtain ⟨es, hes⟩ := Session.extends_migrateActivities never hremove
  refine ⟨Session.removalEntry "/" "/A.cs" (p.removeItems "A.cs").1, es, ?_⟩
  rw [activities_eq hprepare, sections_inSession]
  exact congrArg (fun es => [Section.mk "activities" "/" es]) hes.symm

/-- In a dry run the migration of the activities does not find the flow class. -/
theorem activities_shadowed_tidied {P : Bytes → Prop} {c : Bytes} {ov : Overlay Memory}
    (h : Shadows P (Fresh tidying { workflowDir := "/" } listed) listed ov (tidied c))
    (hbelow : ∀ p, Below "/" p → P p) (hsound : Sound (tidied c)) :
    (activities tidying { workflowDir := "/" } ov).sections = [⟨"activities", "/", []⟩] := by
  obtain ⟨p, hload, -, hmodified, -, -, hstripped⟩ := exists_listed
  obtain ⟨ov', hprepare, h'⟩ := (meets_prepareActivities (o := { workflowDir := "/" }) h
    (fun _ => hbelow) overlooks_project).ends (prepare_tidied hsound hload)
  have hdir : ("/" : Bytes) ≠ [] := List.cons_ne_nil _ _
  have hdesigner : Ends (Files.find "/" "A.cs") ov' [] ov' := h'.find_nothing hdir
    (Files.find_name (open_listed 0) (by decide) (by rfl) .nil)
  have hnothing : Ends (Files.find "/" []) ov' [] ov' := h'.find_nothing hdir
    (Files.find_name (open_listed 0) (by decide) (by rfl) .nil)
  have hmigrate : Ends (Session.migrateActivities tidying never)
      { files := ov', root := "/", project := p } ()
      { files := ov', root := "/", project := p } := by
    refine Ends.bind_iff.2 ⟨(), _, Session.removeFiles_iff.2 ⟨[], ov', hdesigner, rfl⟩, ?_⟩
    refine Ends.get_bind_iff.2 (Ends.bind_iff.2 ⟨[], _, Session.onFiles_iff.2
      ⟨ov', Ends.tryCatch_iff.2 hnothing, rfl⟩, Ends.bind_iff.2 ⟨(), _, rfl, ?_⟩⟩)
    exact Session.dropLegacyReferences_unchanged hmodified hstripped hnothing
  rw [activities_eq hprepare, sections_inSession]
  exact congrArg (fun r => [Section.mk "activities" "/" r.2.entries]) hmigrate

/-- **A dry run may report less than the real run**: a flow class that was not there is not listed by the
overlay, and so the activities do not take it away. -/
theorem dry_run_all_unlike :
    Made listed ∧ listed.refused = [] ∧
    (perform tidying .all { workflowDir := "/", dryRun := true } listed).1.sections ≠
      (perform tidying .all { workflowDir := "/", dryRun := false } listed).1.sections := by
  refine ⟨made_listed, rfl, fun hsame => ?_⟩
  obtain ⟨es, c, hreal, htidied⟩ := workflows_listed
  obtain ⟨e, more, hactivities⟩ := activities_tidied htidied
  have hapart : Apart (Below "/") := apart_below (List.cons_ne_nil _ _)
  have hfirst := workflows_shadowed (o := { workflowDir := "/" }) made_listed.sound rfl hapart
    (fun _ _ hp => hp) settles_listed
  rw [hreal] at hfirst
  have hdry := activities_shadowed_tidied hfirst.files (fun _ hp => hp) htidied
  -- the first sections agree, the second do not
  change (andThen (workflows tidying { workflowDir := "/" } ({ base := listed } : Overlay Memory))
      (activities tidying { workflowDir := "/" })).sections =
    (andThen (workflows tidying { workflowDir := "/" } listed)
      (activities tidying { workflowDir := "/" })).sections at hsame
  simp only [andThen, hreal, hfirst.fault?, hfirst.sections, hactivities, hdry] at hsame
  simp at hsame

end Flowsmith.Run
