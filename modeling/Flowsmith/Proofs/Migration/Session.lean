import Flowsmith.Migration.Run
import Flowsmith.Proofs.Files.Lawful
import Flowsmith.Proofs.Project.Items

/-!
# Steps of a migration

What a step of a migration that ends did to the files, the project and the report, and what is kept by
a step that may also fail. Nothing here depends on the kind of store.

* `Workflow.keeps_load`, `Run.keeps_prepareWorkflows` : loading leaves true what looking at files does;
* `removeFile_iff`, `editFile_iff`, `saveProject_iff`, `migrateWorkflow_iff` : what changes files;
* `Session.Migrated`, `Run.Migrated` : a workflow that a run loaded, transpiled and wrote;
* `migrateUnits_migrated` : a run through all workflows migrates each of them;
* `Run.Steps`, `Run.exists_steps` : the steps of a run without a fault.
-/

namespace Flowsmith

/-! ## Looking at files -/

section Quiet

variable {σ : Type} [FileStore σ] {I : σ → Prop}

theorem Workflow.keeps_find (h : Quiet I) (dir : Bytes) :
    Keeps I (Workflow.find dir : FileM σ (List Bytes)) :=
  (Files.keeps_find h _ _).tryCatch fun _ => .throw _

theorem Workflow.keeps_load (h : Quiet I) (s : Settings) (registry : Option Registry) (path : Bytes) :
    Keeps I (Workflow.load s registry path : FileM σ Workflow) := by
  unfold Workflow.load
  refine ((h.read path).tryCatch fun _ => .throw _).bind fun codeBehind => ?_
  refine ((Files.keeps_find h _ _).tryCatch fun _ => .throw _).bind fun found => ?_
  split
  · exact ((h.read _).tryCatch fun _ => .throw _).bind fun _ => .pure _
  · exact .throw _

theorem Registry.keeps_load (h : Quiet I) (path : Bytes) :
    Keeps I (Registry.load path : FileM σ Registry) :=
  ((h.read path).tryCatch fun _ => .throw _).bind fun _ => .ofExcept _

theorem Project.keeps_findFile (h : Quiet I) (dir : Bytes) :
    Keeps I (Project.findFile dir : FileM σ Bytes) := by
  unfold Project.findFile
  refine ((Files.keeps_findFirst? h _ _).tryCatch fun _ => .throw _).bind fun found => ?_
  split
  · exact .pure _
  · exact .throw _

theorem Project.keeps_load (h : Quiet I) (path : Bytes) :
    Keeps I (Project.load path : FileM σ Project) :=
  ((h.read path).tryCatch fun _ => .throw _).bind fun _ => .ofExcept _

theorem Run.keeps_openProject (h : Quiet I) (dir : Bytes) :
    Keeps I (Run.openProject dir : FileM σ Project) :=
  (Project.keeps_findFile h dir).bind fun _ => Project.keeps_load h _

theorem Run.keeps_requireDirectory (h : Quiet I) (dir : Bytes) :
    Keeps I (Run.requireDirectory dir : FileM σ Unit) := by
  refine (Files.keeps_isDirectory h dir).bind fun d => ?_
  exact .ite (.throw _) (.pure _)

def Run.openRegistry (o : Run.Options) : FileM σ (Option Registry) :=
  if o.registryPath.isEmpty then pure none else some <$> Registry.load o.registryPath

theorem Run.prepareWorkflows_eq (o : Run.Options) :
    (Run.prepareWorkflows o : FileM σ _) = do
      Run.requireDirectory o.workflowDir
      let registry ← Run.openRegistry o
      let project ← Run.openProject o.workflowDir
      let units ← Workflow.find o.workflowDir
      return (registry, project, units) := by
  unfold Run.prepareWorkflows Run.openRegistry
  split <;> rfl

theorem Run.keeps_openRegistry (h : Quiet I) (o : Run.Options) :
    Keeps I (Run.openRegistry o : FileM σ _) :=
  .ite (.pure _) ((Registry.keeps_load h _).bind fun r => .pure (some r))

theorem Run.keeps_prepareWorkflows (h : Quiet I) (o : Run.Options) :
    Keeps I (Run.prepareWorkflows o : FileM σ _) := by
  rw [Run.prepareWorkflows_eq]
  exact (Run.keeps_requireDirectory h _).bind fun _ => (Run.keeps_openRegistry h o).bind fun _ =>
    (Run.keeps_openProject h _).bind fun _ => (Workflow.keeps_find h _).bind fun _ => .pure _

theorem Run.keeps_prepareActivities (h : Quiet I) (o : Run.Options) :
    Keeps I (Run.prepareActivities o : FileM σ Project) :=
  (Run.keeps_requireDirectory h _).bind fun _ => Run.keeps_openProject h _

end Quiet

namespace Workflow

variable {σ : Type} [FileStore σ]

/-- The workflow that is made of a code-behind source and a definition. -/
def assemble (s : Settings) (registry : Option Registry) (path codeBehind markupPath markup : Bytes) :
    Workflow :=
  let space := spaceOf s codeBehind
  let className := classNameOf path codeBehind
  { dir := Path.directory path
    codeBehindPath := path
    markupPath := markupPath
    codeBehind := codeBehind
    markup := markup
    space := space
    className := className
    name := (registry.bind (·.lookup? space className)).getD className }

theorem load_iff {s : Settings} {registry : Option Registry} {path : Bytes} {t t' : σ} {w : Workflow} :
    Ends (load s registry path) t w t' ↔
      ∃ codeBehind t₁ markupPath t₂ markup, Ends (FileStore.read path) t codeBehind t₁ ∧
        Ends (Files.find (Path.directory path) (markupName path)) t₁ [markupPath] t₂ ∧
        Ends (FileStore.read markupPath) t₂ markup t' ∧
        assemble s registry path codeBehind markupPath markup = w := by
  unfold load
  simp only [Ends.bind_iff, Ends.tryCatch_iff]
  constructor
  · rintro ⟨codeBehind, t₁, hread, found, t₂, hfind, h⟩
    split at h
    · rename_i markupPath
      simp only [Ends.bind_iff, Ends.tryCatch_iff, Ends.pure_iff] at h
      obtain ⟨markup, t₃, hmarkup, hw, rfl⟩ := h
      exact ⟨codeBehind, t₁, markupPath, t₂, markup, hread, hfind, hmarkup, hw⟩
    · simp at h
  · rintro ⟨codeBehind, t₁, markupPath, t₂, markup, hread, hfind, hmarkup, hw⟩
    refine ⟨codeBehind, t₁, hread, [markupPath], t₂, hfind, ?_⟩
    simp only [Ends.bind_iff, Ends.tryCatch_iff, Ends.pure_iff]
    exact ⟨markup, t', hmarkup, hw, rfl⟩

end Workflow

/-! ## Opening a project -/

section Opening

variable {σ : Type} [FileStore σ] {t t' : σ}

theorem Project.load_iff {path : Bytes} {p : Project} :
    Ends (Project.load path) t p t' ↔
      ∃ data, Ends (FileStore.read path) t data t' ∧ Project.ofBytes path data = .ok p := by
  simp only [Project.load, Ends.bind_iff, Ends.tryCatch_iff, Ends.ofExcept_iff]
  constructor
  · rintro ⟨data, t₁, hread, hbytes, rfl⟩
    exact ⟨data, hread, hbytes⟩
  · rintro ⟨data, hread, hbytes⟩
    exact ⟨data, t', hread, hbytes, rfl⟩

theorem Project.findFile_iff {dir path : Bytes} :
    Ends (Project.findFile dir) t path t' ↔
      Ends (Files.findFirst? dir "*.csproj") t (some path) t' := by
  unfold Project.findFile
  simp only [Ends.bind_iff, Ends.tryCatch_iff]
  constructor
  · rintro ⟨found, t₁, hfind, h⟩
    split at h
    · obtain ⟨rfl, rfl⟩ := Ends.pure_iff.1 h
      exact hfind
    · simp at h
  · intro hfind
    exact ⟨some path, t', hfind, Ends.pure_iff.2 ⟨rfl, rfl⟩⟩

theorem Run.requireDirectory_iff {dir : Bytes} {u : Unit} :
    Ends (Run.requireDirectory dir) t u t' ↔ Ends (Files.isDirectory dir) t true t' := by
  unfold Run.requireDirectory
  rw [Ends.bind_iff]
  constructor
  · rintro ⟨d, t₁, hdir, h⟩
    cases d with
    | false => simp at h
    | true =>
      obtain ⟨-, rfl⟩ := Ends.pure_iff.1 h
      exact hdir
  · intro hdir
    exact ⟨true, t', hdir, Ends.pure_iff.2 ⟨rfl, rfl⟩⟩

theorem Run.ne_nil_of_requireDirectory {dir : Bytes} {u : Unit}
    (h : Ends (Run.requireDirectory dir) t u t') : dir ≠ [] := by
  rintro rfl
  obtain ⟨hfalse, -⟩ := Ends.pure_iff.1 (Run.requireDirectory_iff.1 h)
  cases hfalse

theorem Run.openProject_iff {dir : Bytes} {p : Project} :
    Ends (Run.openProject dir) t p t' ↔
      ∃ t₁ data, Ends (Files.findFirst? dir "*.csproj") t (some p.path) t₁ ∧
        Ends (FileStore.read p.path) t₁ data t' ∧ Project.ofBytes p.path data = .ok p := by
  simp only [Run.openProject, Ends.bind_iff, Project.findFile_iff, Project.load_iff]
  constructor
  · rintro ⟨path, t₁, hfind, data, hread, hbytes⟩
    obtain rfl := Project.ofBytes_path hbytes
    exact ⟨t₁, data, hfind, hread, hbytes⟩
  · rintro ⟨t₁, data, hfind, hread, hbytes⟩
    exact ⟨p.path, t₁, hfind, data, hread, hbytes⟩

theorem Run.prepareWorkflows_iff {o : Run.Options} {registry : Option Registry} {p : Project}
    {units : List Bytes} :
    Ends (Run.prepareWorkflows o) t (registry, p, units) t' ↔
      ∃ t₁ t₂ t₃, Ends (Run.requireDirectory o.workflowDir) t () t₁ ∧
        Ends (Run.openRegistry o) t₁ registry t₂ ∧ Ends (Run.openProject o.workflowDir) t₂ p t₃ ∧
        Ends (Files.find o.workflowDir "*.xoml.cs") t₃ units t' := by
  rw [Run.prepareWorkflows_eq]
  simp only [Ends.bind_iff, Ends.pure_iff, Workflow.find, Ends.tryCatch_iff, Prod.mk.injEq]
  constructor
  · rintro ⟨_, t₁, hdir, _, t₂, hregistry, _, t₃, hopen, _, _, hfind, ⟨rfl, rfl, rfl⟩, rfl⟩
    exact ⟨t₁, t₂, t₃, hdir, hregistry, hopen, hfind⟩
  · rintro ⟨t₁, t₂, t₃, hdir, hregistry, hopen, hfind⟩
    exact ⟨_, t₁, hdir, _, t₂, hregistry, _, t₃, hopen, _, _, hfind, ⟨rfl, rfl, rfl⟩, rfl⟩

end Opening

/-! ## Cancellation -/

def Run.never : List Bytes → Bool := fun _ => false

namespace Session

variable {cancelled : List Bytes → Bool} {path : Bytes} {paths before after : List Bytes}

/-- A run through paths that is not cancelled before any of them. -/
def Uncancelled (cancelled : List Bytes → Bool) (paths : List Bytes) : Prop :=
  ∀ left, left ≠ [] → left <:+ paths → cancelled left = false

theorem uncancelled_never : Uncancelled Run.never paths := fun _ _ _ => rfl

theorem Uncancelled.cons (hfirst : cancelled (path :: paths) = false) (h : Uncancelled cancelled paths) :
    Uncancelled cancelled (path :: paths) := by
  intro left hne hleft
  rcases List.suffix_cons_iff.1 hleft with rfl | hleft
  · exact hfirst
  · exact h left hne hleft

theorem Uncancelled.tail (h : Uncancelled cancelled (path :: paths)) : Uncancelled cancelled paths :=
  fun left hne hleft => h left hne (hleft.trans (List.suffix_cons _ _))

theorem Uncancelled.mono {again : List Bytes → Bool} (h : Uncancelled cancelled paths)
    (hle : ∀ left, again left = true → cancelled left = true) : Uncancelled again paths := by
  intro left hne hleft
  refine eq_false_of_ne_true fun hagain => ?_
  exact absurd (hle left hagain) (by simp [h left hne hleft])

/-- A run through `before` comes to `after`: it is not cancelled on the way, and not there. -/
def Reaches (cancelled : List Bytes → Bool) (before after : List Bytes) : Prop :=
  ∀ left, left <:+ before → cancelled (left ++ after) = false

theorem reaches_nil (h : cancelled after = false) : Reaches cancelled [] after := by
  intro left hleft
  rw [List.suffix_nil.1 hleft, List.nil_append, h]

theorem Reaches.cons (hfirst : cancelled (path :: before ++ after) = false)
    (h : Reaches cancelled before after) : Reaches cancelled (path :: before) after := by
  intro left hleft
  rcases List.suffix_cons_iff.1 hleft with rfl | hleft
  · exact hfirst
  · exact h left hleft

end Session

/-! ## Reports -/

def pathsOf (a : Action) (es : List Entry) : List Bytes := (es.filter (·.action == a)).map (·.path)

theorem mem_pathsOf {a : Action} {es : List Entry} {p : Bytes} :
    p ∈ pathsOf a es ↔ ∃ e ∈ es, e.action = a ∧ e.path = p := by
  simp [pathsOf, and_assoc]

theorem pathsOf_snoc (a : Action) (es : List Entry) (e : Entry) :
    pathsOf a (es ++ [e]) = pathsOf a es ++ if e.action = a then [e.path] else [] := by
  by_cases h : e.action = a <;> simp [pathsOf, h]

def Run.Outcome.reported {σ : Type} (a : Action) (out : Run.Outcome σ) : List Bytes :=
  out.sections.flatMap fun part => pathsOf a part.entries

theorem Run.reported_one {σ : Type} (a : Action) (name dir : Bytes) (es : List Entry) (files : σ) :
    ({ sections := [⟨name, dir, es⟩], files := files } : Run.Outcome σ).reported a = pathsOf a es :=
  List.append_nil _

namespace Session

variable {σ α : Type} {S S' : Session σ}

/-! ## Parts of steps -/

theorem ran_onFiles (f : FileM σ α) (S : Session σ) :
    ran (onFiles f) S = ((ran f S.files).1, { S with files := (ran f S.files).2 }) := by
  show ran (MonadExcept.ofExcept (ran f S.files).1) { S with files := (ran f S.files).2 } = _
  rw [ran_ofExcept]

theorem onFiles_iff {f : FileM σ α} {a : α} :
    Ends (onFiles f) S a S' ↔ ∃ t, Ends f S.files a t ∧ { S with files := t } = S' := by
  unfold Ends
  rw [ran_onFiles]
  constructor
  · intro h
    obtain ⟨hr, rfl⟩ := Prod.mk.inj h
    exact ⟨_, Prod.ext hr rfl, rfl⟩
  · rintro ⟨t, h, rfl⟩
    rw [h]

@[simp] theorem report_iff {e : Entry} {u : Unit} :
    Ends (report e) S u S' ↔ { S with entries := S.entries ++ [e] } = S' := Ends.modify_iff

theorem ran_onProject (f : Project → α × Project) (S : Session σ) :
    ran (onProject f) S = (.ok (f S.project).1, { S with project := (f S.project).2 }) := rfl

@[simp] theorem onProject_iff {f : Project → α × Project} {a : α} :
    Ends (onProject f) S a S' ↔
      (f S.project).1 = a ∧ { S with project := (f S.project).2 } = S' := by
  unfold Ends
  rw [ran_onProject, Prod.mk.injEq, Except.ok.injEq]

/-- The store of the session has the property `I`. -/
def Filed (I : σ → Prop) (S : Session σ) : Prop := I S.files

theorem keeps_filed_onFiles {I : σ → Prop} {f : FileM σ α} (h : Keeps I f) :
    Keeps (Filed I) (onFiles f) := by
  intro S hS
  rw [ran_onFiles]
  exact h hS

theorem keeps_filed_onProject {I : σ → Prop} (f : Project → α × Project) :
    Keeps (Filed I) (onProject f) := fun _ hS => hS

theorem keeps_filed_report {I : σ → Prop} (e : Entry) : Keeps (Filed I) (report e) := fun _ hS => hS

/-- What follows an operation on files may count on its result and on what it left true. -/
theorem keeps_onFiles_bind {β : Type} {I : Session σ → Prop} {f : FileM σ α} {g : α → SessionM σ β}
    (hf : Keeps I (onFiles f))
    (hg : ∀ S a t, I S → Ends f S.files a t → I { S with files := t } →
      I (ran (g a) { S with files := t }).2) : Keeps I (onFiles f >>= g) := by
  refine hf.bind_of fun S a T hS h => ?_
  have hT := hf.ends hS h
  obtain ⟨t, hf, rfl⟩ := onFiles_iff.1 h
  exact hg S a t hS hf hT

/-! ## Paths in reports -/

def Seen (root path : Bytes) : Prop :=
  ∃ rel, Path.relative? root path = some rel ∧ Path.fromRoot (Path.join root rel) = Path.fromRoot path

namespace Seen

variable {root path : Bytes}

theorem normalize_shown (h : Seen root path) :
    Memory.normalize (Path.join root (shown root path)) = Memory.normalize path := by
  obtain ⟨rel, hrel, heq⟩ := h
  rw [shown, hrel]
  exact Memory.normalize_congr heq

theorem exists_relativePath (h : Seen root path) : ∃ item, Project.relativePath root path = .ok item := by
  obtain ⟨rel, hrel, -⟩ := h
  exact ⟨_, by rw [Project.relativePath, hrel]⟩

theorem of_below (h : Path.Below root path) (hroot : root ≠ []) : Seen root path := by
  obtain ⟨rel, hrel, heq⟩ := h.exists_relative hroot
  exact ⟨rel, hrel, by rw [heq]⟩

end Seen

theorem isEntry_source {last : Bytes} (h : Path.slash ∉ last) :
    Path.IsEntry (last ++ (".cs" : Bytes)) := by
  have hlength : (last ++ (".cs" : Bytes)).length = last.length + 3 := by
    rw [List.length_append]
    rfl
  refine ⟨fun hnil => ?_, fun hhere => ?_, fun habove => ?_, fun hmem => ?_⟩
  · rw [hnil, List.length_nil] at hlength
    omega
  · rw [hhere, show Path.here.length = 1 from rfl] at hlength
    omega
  · rw [habove, show Path.above.length = 2 from rfl] at hlength
    omega
  · rcases List.mem_append.1 hmem with hmem | hmem
    · exact h hmem
    · exact absurd hmem (by decide)

variable [FileStore σ]

/-! ## Removing and editing files -/

/-- The entry for a file that was removed with some project items. -/
def removalEntry (root path : Bytes) (count : Nat) : Entry :=
  { action := .remove, path := shown root path
    detail := if count = 0 then [] else Bytes.natural count ++ (" project items" : Bytes) }

theorem removeFile_iff {path : Bytes} {u : Unit} :
    Ends (removeFile path) S u S' ↔
      ∃ t item, Ends (FileStore.remove path) S.files () t ∧
        Project.relativePath S.root path = .ok item ∧
        { S with
          files := t
          project := (S.project.removeItems item).2
          entries := S.entries ++ [removalEntry S.root path (S.project.removeItems item).1] } = S' := by
  unfold removeFile
  simp only [Ends.bind_iff, onFiles_iff, Ends.tryCatch_iff, Ends.get_iff, Ends.ofExcept_iff,
    onProject_iff, report_iff]
  constructor
  · rintro ⟨_, -, ⟨t, hremove, rfl⟩, -, -, ⟨rfl, rfl⟩, item, -, ⟨hitem, rfl⟩, -, -, ⟨rfl, rfl⟩, rfl⟩
    exact ⟨t, item, hremove, hitem, rfl⟩
  · rintro ⟨t, item, hremove, hitem, rfl⟩
    exact ⟨(), _, ⟨t, hremove, rfl⟩, _, _, ⟨rfl, rfl⟩, item, _, ⟨hitem, rfl⟩, _, _, ⟨rfl, rfl⟩, rfl⟩

theorem removeFiles_iff {pattern : Bytes} {u : Unit} :
    Ends (removeFiles pattern) S u S' ↔
      ∃ found t, Ends (Files.find S.root pattern) S.files found t ∧
        Ends (found.forM removeFile) { S with files := t } u S' := by
  simp only [removeFiles, Ends.bind_iff, Ends.get_iff, onFiles_iff, Ends.tryCatch_iff]
  constructor
  · rintro ⟨_, _, ⟨rfl, rfl⟩, found, _, ⟨t, hfind, rfl⟩, h⟩
    exact ⟨found, t, hfind, h⟩
  · rintro ⟨found, t, hfind, h⟩
    exact ⟨_, _, ⟨rfl, rfl⟩, found, _, ⟨t, hfind, rfl⟩, h⟩

theorem editFile_iff {path : Bytes} {edit : Bytes → Except Fault Bytes} {u : Unit} :
    Ends (editFile path edit) S u S' ↔
      ∃ text edited t, Ends (FileStore.read path) S.files text t ∧ edit text = .ok edited ∧
        (edited = text ∧ S' = { S with files := t } ∨
          edited ≠ text ∧ ∃ t', Ends (FileStore.write path edited) t () t' ∧
            S' = { S with
              files := t'
              entries := S.entries ++ [{ action := .edit, path := shown S.root path }] }) := by
  have hblame : ∀ {r : Except Fault Bytes} {edited}, Workflow.blame path r = .ok edited ↔ r = .ok edited := by
    intro r edited
    cases r <;> simp [Workflow.blame]
  unfold editFile
  simp only [Ends.bind_iff, onFiles_iff, Ends.tryCatch_iff, Ends.ofExcept_iff, hblame]
  constructor
  · rintro ⟨text, -, ⟨t, hread, rfl⟩, edited, -, ⟨hedit, rfl⟩, h⟩
    refine ⟨text, edited, t, hread, hedit, ?_⟩
    split at h
    · rename_i hne
      simp only [Ends.bind_iff, onFiles_iff, Ends.tryCatch_iff, Ends.get_iff, report_iff] at h
      obtain ⟨_, -, ⟨t', hwrite, rfl⟩, -, -, ⟨rfl, rfl⟩, rfl⟩ := h
      exact .inr ⟨hne, t', hwrite, rfl⟩
    · rename_i heq
      obtain ⟨-, rfl⟩ := Ends.pure_iff.1 h
      exact .inl ⟨Decidable.not_not.1 heq, rfl⟩
  · rintro ⟨text, edited, t, hread, hedit, hend⟩
    refine ⟨text, _, ⟨t, hread, rfl⟩, edited, _, ⟨hedit, rfl⟩, ?_⟩
    rcases hend with ⟨rfl, rfl⟩ | ⟨hne, t', hwrite, rfl⟩
    · rw [if_neg (Decidable.not_not.2 rfl)]
      exact Ends.pure_iff.2 ⟨rfl, rfl⟩
    · rw [if_pos hne]
      simp only [Ends.bind_iff, onFiles_iff, Ends.tryCatch_iff, Ends.get_iff, report_iff]
      exact ⟨(), _, ⟨t', hwrite, rfl⟩, _, _, ⟨rfl, rfl⟩, rfl⟩

theorem editFile_frame {path : Bytes} {edit : Bytes → Except Fault Bytes} {u : Unit}
    (h : Ends (editFile path edit) S u S') : S'.root = S.root ∧ S'.project = S.project := by
  obtain ⟨text, edited, t, -, -, ⟨-, rfl⟩ | ⟨-, t', -, rfl⟩⟩ := editFile_iff.1 h
  · exact ⟨rfl, rfl⟩
  · exact ⟨rfl, rfl⟩

/-- A project that was edited is written, and then counts as unchanged. -/
theorem saveProject_iff {detail : Bytes} {u : Unit} :
    Ends (saveProject detail) S u S' ↔
      S.project.modified = false ∧ S' = S ∨
        S.project.modified = true ∧ ∃ t,
          Ends (FileStore.write S.project.path S.project.toBytes) S.files () t ∧
          S' = { S with
            files := t
            project := { S.project with modified := false }
            entries := S.entries ++
              [{ action := .project, path := shown S.root S.project.path, detail := detail }] } := by
  unfold saveProject
  simp only [Ends.get_bind_iff]
  cases hmodified : S.project.modified with
  | false =>
    simp only [Bool.false_eq_true, if_false, Ends.pure_iff, false_and, or_false, true_and]
    exact eq_comm
  | true =>
    simp only [if_true, Ends.bind_iff, onFiles_iff, Ends.modify_iff, report_iff, Project.save,
      Ends.tryCatch_iff, Ends.pure_iff, Bool.true_eq_false, false_and, false_or, true_and]
    constructor
    · rintro ⟨saved, -, ⟨_, ⟨_, t, hwrite, rfl, rfl⟩, rfl⟩, -, -, rfl, rfl⟩
      exact ⟨t, hwrite, rfl⟩
    · rintro ⟨t, hwrite, rfl⟩
      exact ⟨_, _, ⟨t, ⟨(), t, hwrite, rfl, rfl⟩, rfl⟩, ⟨⟩, _, rfl, rfl⟩

/-- The project without what is removed at the end. -/
def stripped (o : Settings.Project) (p : Project) : Project :=
  ((p.removeReferences o.legacyReferences).2.removeImport o.workflowTargets).2

/-- What the report says of the project at the end. -/
def strippedDetail (o : Settings.Project) (p : Project) : Bytes :=
  ("removed " : Bytes) ++ Bytes.natural (p.removeReferences o.legacyReferences).1
    ++ (" legacy references and " : Bytes)
    ++ Bytes.natural ((p.removeReferences o.legacyReferences).2.removeImport o.workflowTargets).1
    ++ (" imports" : Bytes)

/-- At the end the project is saved without references, and then the assembly information edited. -/
theorem dropLegacyReferences_iff {o : Settings.Project} {u : Unit} :
    Ends (dropLegacyReferences o) S u S' ↔
      ∃ T info t, Ends (saveProject (strippedDetail o S.project))
          { S with project := stripped o S.project } () T ∧
        Ends (Files.findFirst? T.root o.assemblyInfo) T.files info t ∧
        match info with
        | none => S' = { T with files := t }
        | some path => Ends (editFile path fun text => .ok (Activity.stripWorkflowUsings text))
            { T with files := t } () S' := by
  simp only [dropLegacyReferences, Ends.bind_iff, Ends.get_iff, onProject_iff, onFiles_iff,
    Ends.tryCatch_iff]
  constructor
  · rintro ⟨_, _, ⟨rfl, rfl⟩, _, _, ⟨rfl, rfl⟩, _, T, hsave, _, _, ⟨rfl, rfl⟩, info, _,
      ⟨t, hfind, rfl⟩, h⟩
    refine ⟨T, info, t, hsave, hfind, ?_⟩
    cases info with
    | none => exact (Ends.pure_iff.1 h).2.symm
    | some path => exact h
  · rintro ⟨T, info, t, hsave, hfind, h⟩
    refine ⟨_, _, ⟨rfl, rfl⟩, _, _, ⟨rfl, rfl⟩, _, T, hsave, _, _, ⟨rfl, rfl⟩, info, _,
      ⟨t, hfind, rfl⟩, ?_⟩
    cases info with
    | none => exact Ends.pure_iff.2 ⟨rfl, h.symm⟩
    | some path => exact h

/-- The report names nothing more as generated or removed at the end, and the project was saved. -/
theorem dropLegacyReferences_frame {o : Settings.Project} {u : Unit}
    (h : Ends (dropLegacyReferences o) S u S') :
    S'.project.modified = false ∧ S'.project.nodes = (stripped o S.project).nodes ∧
      ∀ a, a = .generate ∨ a = .remove → pathsOf a S'.entries = pathsOf a S.entries := by
  obtain ⟨T, info, t, hsave, -, hend⟩ := dropLegacyReferences_iff.1 h
  have hT : T.project.modified = false ∧ T.project.nodes = (stripped o S.project).nodes ∧
      ∀ a, a = .generate ∨ a = .remove → pathsOf a T.entries = pathsOf a S.entries := by
    rcases saveProject_iff.1 hsave with ⟨hmodified, rfl⟩ | ⟨-, t', -, rfl⟩
    · exact ⟨hmodified, rfl, fun _ _ => rfl⟩
    · refine ⟨rfl, rfl, fun a ha => ?_⟩
      rw [pathsOf_snoc, if_neg (by rcases ha with rfl | rfl <;> nofun), List.append_nil]
  cases info with
  | none =>
    obtain rfl := hend
    exact hT
  | some path =>
    obtain ⟨text, edited, t', -, -, ⟨-, rfl⟩ | ⟨-, t₁, -, rfl⟩⟩ := editFile_iff.1 hend
    · exact hT
    · refine ⟨hT.1, hT.2.1, fun a ha => ?_⟩
      rw [pathsOf_snoc, if_neg (by rcases ha with rfl | rfl <;> nofun), List.append_nil]
      exact hT.2.2 a ha

/-- Where there is nothing to remove and no assembly information, nothing happens. -/
theorem dropLegacyReferences_unchanged {o : Settings.Project} (hmodified : S.project.modified = false)
    (hstripped : stripped o S.project = S.project)
    (hfind : Ends (Files.find S.root o.assemblyInfo) S.files [] S.files) :
    Ends (dropLegacyReferences o) S () S := by
  refine dropLegacyReferences_iff.2 ⟨S, none, S.files, ?_, ?_, rfl⟩
  · rw [hstripped]
    exact saveProject_iff.2 (.inl ⟨hmodified, rfl⟩)
  · exact Ends.bind_iff.2 ⟨[], S.files, hfind, rfl⟩

/-! ## Writing flow classes -/

/-- Where the flow class of a workflow is written. -/
def destination (w : Workflow) (out : Transpiled) : Bytes := Path.join w.dir (out.name ++ (".cs" : Bytes))

/-- The entry for a flow class that was written. -/
def generateEntry (root path : Bytes) (w : Workflow) (out : Transpiled) : Entry :=
  { action := .generate, path := shown root (destination w out), source := shown root path
    warnings := out.warnings }

theorem seen_destination {s : Settings} {registry : Option Registry} {root path : Bytes} {t t' : σ}
    {w : Workflow} (hpath : Path.Below root path) (hroot : root ≠ [])
    (h : Ends (Workflow.load s registry path) t w t') (out : Transpiled) :
    Seen root (destination w out) := by
  obtain ⟨codeBehind, t₁, markupPath, t₂, markup, -, -, -, rfl⟩ := Workflow.load_iff.1 h
  exact hpath.exists_relative_beside hroot out.name fun last hlast => isEntry_source hlast

/-- The last name of where a flow class is written. -/
theorem normalize_destination {s : Settings} {registry : Option Registry} {path : Bytes} {t t' : σ}
    {w : Workflow} (h : Ends (Workflow.load s registry path) t w t') (out : Transpiled) :
    ∃ init n, (∀ k ∈ init ++ [n], Path.IsEntry k) ∧ (".cs" : Bytes) <:+ n ∧
      Memory.normalize (destination w out) = Path.key (init ++ [n]) := by
  obtain ⟨codeBehind, t₁, markupPath, t₂, markup, -, -, -, rfl⟩ := Workflow.load_iff.1 h
  obtain ⟨init, last, -, hroot⟩ := Path.exists_fromRoot_join (Path.directory_ne_nil path) out.name
    fun last hlast => isEntry_source hlast
  refine ⟨init, last ++ (".cs" : Bytes), ?_, List.suffix_append _ _, ?_⟩
  · rw [← hroot]
    exact Path.isEntry_fromRoot _
  · rw [Memory.normalize_eq, destination, ← hroot]
    rfl

theorem migrateWorkflow_iff {s : Settings} {registry : Option Registry} {path : Bytes} {u : Unit} :
    Ends (migrateWorkflow s registry path) S u S' ↔
      ∃ w out t t' item, Ends (Workflow.load s registry path) S.files w t ∧
        w.transpile s = .ok out ∧
        Ends (FileStore.write (destination w out) out.source) t () t' ∧
        Project.relativePath S.root (destination w out) = .ok item ∧
        { S with
          files := t'
          project := S.project.addCompile item
          entries := S.entries ++ [generateEntry S.root path w out] } = S' := by
  unfold migrateWorkflow
  simp only [Ends.bind_iff, onFiles_iff, Ends.tryCatch_iff, Ends.get_iff, Ends.ofExcept_iff,
    onProject_iff, report_iff]
  constructor
  · rintro ⟨w, -, ⟨t, hload, rfl⟩, out, -, ⟨hout, rfl⟩, _, -, ⟨t', hwrite, rfl⟩, -, -, ⟨rfl, rfl⟩, item,
      -, ⟨hitem, rfl⟩, -, -, ⟨-, rfl⟩, rfl⟩
    exact ⟨w, out, t, t', item, hload, hout, hwrite, hitem, rfl⟩
  · rintro ⟨w, out, t, t', item, hload, hout, hwrite, hitem, rfl⟩
    exact ⟨w, _, ⟨t, hload, rfl⟩, out, _, ⟨hout, rfl⟩, (), _, ⟨t', hwrite, rfl⟩, _, _, ⟨rfl, rfl⟩, item,
      _, ⟨hitem, rfl⟩, (), _, ⟨trivial, rfl⟩, rfl⟩

omit [FileStore σ] in
theorem checkpoint_iff {cancelled : Bool} {u : Unit} :
    Ends (checkpoint cancelled) S u S' ↔ cancelled = false ∧ S = S' := by
  unfold checkpoint
  cases cancelled <;> simp

theorem migrateSources_frame {s : Settings} {cancelled : List Bytes → Bool} {paths : List Bytes} {u : Unit}
    (h : Ends (migrateSources s cancelled paths) S u S') :
    S'.root = S.root ∧ S'.project = S.project := by
  induction paths generalizing S with
  | nil =>
    obtain ⟨-, rfl⟩ := Ends.pure_iff.1 h
    exact ⟨rfl, rfl⟩
  | cons path paths ih =>
    simp only [migrateSources, Ends.bind_iff, checkpoint_iff] at h
    obtain ⟨_, _, ⟨-, rfl⟩, _, T, hedit, hrest⟩ := h
    obtain ⟨hroot, hproject⟩ := editFile_frame hedit
    obtain ⟨hroot', hproject'⟩ := ih hrest
    exact ⟨hroot'.trans hroot, hproject'.trans hproject⟩

/-- From a store of files the workflow `w` at `path` is loaded, transpiled to `out` and written. -/
def Writes (s : Settings) (registry : Option Registry) (files : σ) (path : Bytes) (w : Workflow)
    (out : Transpiled) : Prop :=
  ∃ t t', Ends (Workflow.load s registry path) files w t ∧ w.transpile s = .ok out ∧
    Ends (FileStore.write (destination w out) out.source) t () t'

/-- A run through the workflows `units` that begins in the session `S` comes to the one at `path`, loads
it as `w`, transpiles it to `out` and writes it. -/
def Migrated (s : Settings) (registry : Option Registry) (cancelled : List Bytes → Bool)
    (units : List Bytes) (S : Session σ) (path : Bytes) (w : Workflow) (out : Transpiled) : Prop :=
  ∃ before after T, units = before ++ path :: after ∧
    Ends (migrateUnits s registry (fun left => cancelled (left ++ path :: after)) before) S () T ∧
    cancelled (path :: after) = false ∧ Writes s registry T.files path w out

variable {s : Settings} {registry : Option Registry} {cancelled : List Bytes → Bool}

theorem migrateUnits_cons_iff {path : Bytes} {paths : List Bytes} {u : Unit} :
    Ends (migrateUnits s registry cancelled (path :: paths)) S u S' ↔
      cancelled (path :: paths) = false ∧ ∃ T, Ends (migrateWorkflow s registry path) S () T ∧
        Ends (migrateUnits s registry cancelled paths) T u S' := by
  simp only [migrateUnits, Ends.bind_iff, checkpoint_iff]
  constructor
  · rintro ⟨_, _, ⟨hc, rfl⟩, _, T, hfirst, hrest⟩
    exact ⟨hc, T, hfirst, hrest⟩
  · rintro ⟨hc, T, hfirst, hrest⟩
    exact ⟨(), S, ⟨hc, rfl⟩, (), T, hfirst, hrest⟩

/-- A run that is cancelled before a workflow stops there. -/
theorem migrateUnits_cancelled {path : Bytes} {paths : List Bytes} (h : cancelled (path :: paths) = true) :
    ran (migrateUnits s registry cancelled (path :: paths)) S = (.error cancelledFault, S) := by
  rw [migrateUnits, h]
  rfl

theorem migrateUnits_goes {path : Bytes} {paths : List Bytes} (h : cancelled (path :: paths) = false) :
    ran (migrateUnits s registry cancelled (path :: paths)) S =
      ran (migrateWorkflow s registry path >>= fun _ => migrateUnits s registry cancelled paths) S := by
  rw [migrateUnits, h]
  rfl

/-- Migrating workflows leaves true what looking at files and writing them does. -/
theorem keeps_filed_migrateUnits {I : σ → Prop} (hquiet : Quiet I)
    (hwrite : ∀ p c, Keeps I (FileStore.write p c)) (units : List Bytes) :
    Keeps (Filed I) (migrateUnits s registry cancelled units) := by
  induction units with
  | nil => exact .pure _
  | cons path units ih =>
    refine (Keeps.ite (.throw _) (.pure _)).bind fun _ => Keeps.bind ?_ fun _ => ih
    refine (keeps_filed_onFiles (Workflow.keeps_load hquiet s registry path)).bind fun w =>
      (Keeps.ofExcept _).bind fun out => ?_
    refine (keeps_filed_onFiles ((hwrite _ _).tryCatch fun _ => .throw _)).bind fun _ => ?_
    exact .get_bind fun S => (Keeps.ofExcept _).bind fun item =>
      (keeps_filed_onProject _).bind fun _ => keeps_filed_report _

/-- Migrating workflows leaves the root and the place of the project. -/
theorem migrateUnits_frame {units : List Bytes} {u : Unit}
    (h : Ends (migrateUnits s registry cancelled units) S u S') :
    S'.root = S.root ∧ S'.project.path = S.project.path := by
  induction units generalizing S with
  | nil =>
    obtain ⟨-, rfl⟩ := Ends.pure_iff.1 h
    exact ⟨rfl, rfl⟩
  | cons path units ih =>
    obtain ⟨-, T, hfirst, hrest⟩ := migrateUnits_cons_iff.1 h
    obtain ⟨w, out, t, t', item, -, -, -, -, rfl⟩ := migrateWorkflow_iff.1 hfirst
    obtain ⟨hroot, hpath⟩ := ih hrest
    exact ⟨hroot, hpath.trans (Project.addCompile_path _ _)⟩

theorem migrated_cons_iff {first path : Bytes} {units : List Bytes} {w : Workflow} {out : Transpiled} :
    Migrated s registry cancelled (first :: units) S path w out ↔
      cancelled (first :: units) = false ∧ (path = first ∧ Writes s registry S.files first w out ∨
        ∃ T, Ends (migrateWorkflow s registry first) S () T ∧
          Migrated s registry cancelled units T path w out) := by
  constructor
  · rintro ⟨before, after, T, hunits, hbefore, hc, hwrites⟩
    cases before with
    | nil =>
      obtain ⟨rfl, rfl⟩ := List.cons.inj hunits
      obtain ⟨-, rfl⟩ := Ends.pure_iff.1 hbefore
      exact ⟨hc, .inl ⟨rfl, hwrites⟩⟩
    | cons p before =>
      obtain ⟨rfl, rfl⟩ := List.cons.inj hunits
      obtain ⟨hfirst, T', hstep, hrest⟩ := migrateUnits_cons_iff.1 hbefore
      exact ⟨hfirst, .inr ⟨T', hstep, before, after, T, rfl, hrest, hc, hwrites⟩⟩
  · rintro ⟨hfirst, ⟨rfl, hwrites⟩ | ⟨T', hstep, before, after, T, rfl, hrest, hc, hwrites⟩⟩
    · exact ⟨[], units, S, rfl, Ends.pure_iff.2 ⟨rfl, rfl⟩, hfirst, hwrites⟩
    · exact ⟨first :: before, after, T, rfl, migrateUnits_cons_iff.2 ⟨hfirst, T', hstep, hrest⟩, hc,
        hwrites⟩

/-- A run through workflows that ends migrated each of them. -/
theorem migrateUnits_migrated {units : List Bytes} {u : Unit}
    (h : Ends (migrateUnits s registry cancelled units) S u S') {path : Bytes} (hpath : path ∈ units) :
    ∃ w out, Migrated s registry cancelled units S path w out := by
  induction units generalizing S with
  | nil => cases hpath
  | cons first units ih =>
    obtain ⟨hc, T, hfirst, hrest⟩ := migrateUnits_cons_iff.1 h
    rcases List.mem_cons.1 hpath with rfl | hpath
    · obtain ⟨w, out, t, t', item, hload, hout, hwrite, -, -⟩ := migrateWorkflow_iff.1 hfirst
      exact ⟨w, out, migrated_cons_iff.2 ⟨hc, .inl ⟨rfl, t, t', hload, hout, hwrite⟩⟩⟩
    · obtain ⟨w, out, hmigrated⟩ := ih hrest hpath
      exact ⟨w, out, migrated_cons_iff.2 ⟨hc, .inr ⟨T, hfirst, hmigrated⟩⟩⟩

end Session

/-- The steps of a run without a fault: it reads, migrates the workflows, removes the legacy files and
then the references. -/
structure Run.Steps {σ : Type} [FileStore σ] (s : Settings) (o : Run.Options) (files : σ)
    (registry : Option Registry) (project : Project) (units : List Bytes) (t : σ)
    (S₁ S₂ S₃ : Session σ) : Prop where
  prepare : Ends (Run.prepareWorkflows o) files (registry, project, units) t
  migrate : Ends (Session.migrateUnits s registry o.cancelled.workflows units)
    { files := t, root := o.workflowDir, project := project } () S₁
  remove : Ends (Session.removeFiles "*.xoml*") S₁ () S₂
  drop : Ends (Session.dropLegacyReferences s.project) S₂ () S₃

namespace Run

variable {σ : Type} [FileStore σ] {s : Settings} {o : Run.Options} {files : σ}

theorem Steps.workflows_eq {registry : Option Registry} {project : Project} {units : List Bytes}
    {t : σ} {S₁ S₂ S₃ : Session σ} (h : Steps s o files registry project units t S₁ S₂ S₃) :
    workflows s o files =
      { sections := [⟨"workflows", o.workflowDir, S₃.entries⟩], files := S₃.files } := by
  have hmigrate : Ends (Session.migrateWorkflows s registry o.cancelled.workflows units)
      { files := t, root := o.workflowDir, project := project } () S₃ :=
    Ends.bind_iff.2 ⟨_, _, h.migrate, Ends.bind_iff.2 ⟨_, _, h.remove, h.drop⟩⟩
  unfold workflows
  rw [show (prepareWorkflows o).run files = _ from h.prepare]
  simp only [inSession]
  rw [show (Session.migrateWorkflows s registry o.cancelled.workflows units).run _ = _ from hmigrate]

theorem activities_eq {project : Project} {t : σ} (h : Ends (prepareActivities o) files project t) :
    activities s o files =
      inSession "activities" o.activities project t (Session.migrateActivities s o.cancelled.activities) := by
  unfold activities
  rw [show (prepareActivities o).run files = _ from h]

theorem exists_steps (h : (workflows s o files).fault? = none) :
    ∃ registry project units t S₁ S₂ S₃, Steps s o files registry project units t S₁ S₂ S₃ := by
  unfold workflows at h
  obtain ⟨r, t, hran⟩ : ∃ r t, ran (prepareWorkflows o) files = (r, t) := ⟨_, _, rfl⟩
  rw [show (prepareWorkflows o).run files = _ from hran] at h
  match r, hran with
  | .error f, _ => cases h
  | .ok (registry, project, units), hran =>
    simp only [inSession] at h
    obtain ⟨r, S₃, hmigrate⟩ : ∃ r S₃, ran (Session.migrateWorkflows s registry o.cancelled.workflows units)
      { files := t, root := o.workflowDir, project := project } = (r, S₃) := ⟨_, _, rfl⟩
    rw [show (Session.migrateWorkflows s registry o.cancelled.workflows units).run _ = _ from hmigrate] at h
    cases r with
    | error f => cases h
    | ok u =>
      obtain ⟨_, S₁, hunits, hend⟩ := Ends.bind_iff.1 (show Ends _ _ u S₃ from hmigrate)
      obtain ⟨_, S₂, hremove, hdrop⟩ := Ends.bind_iff.1 hend
      exact ⟨registry, project, units, t, S₁, S₂, S₃, hran, hunits, hremove, hdrop⟩

section Below

variable {σ : Type} [FileStore σ] [LawfulStore σ]

theorem below_openProject {dir : Bytes} {p : Project} {t t' : σ} (hs : LawfulStore.Sound t)
    (hdir : dir ≠ []) (h : Ends (openProject dir) t p t') : Path.Below dir p.path := by
  obtain ⟨t₁, data, hfind, -⟩ := openProject_iff.1 h
  exact LawfulStore.below_of_findFirst? hs hdir hfind

/-- The project and the workflows that are found lie below the directory. -/
theorem below_prepareWorkflows {o : Options} {registry : Option Registry} {p : Project}
    {units : List Bytes} {t t' : σ} (hs : LawfulStore.Sound t)
    (h : Ends (prepareWorkflows o) t (registry, p, units) t') :
    o.workflowDir ≠ [] ∧ Path.Below o.workflowDir p.path ∧
      ∀ path ∈ units, Path.Below o.workflowDir path := by
  obtain ⟨t₁, t₂, t₃, hdir, hregistry, hopen, hfind⟩ := prepareWorkflows_iff.1 h
  have hne := ne_nil_of_requireDirectory hdir
  have h₁ := (keeps_requireDirectory LawfulStore.quiet_sound _).ends hs hdir
  have h₂ := (keeps_openRegistry LawfulStore.quiet_sound _).ends h₁ hregistry
  have h₃ := (keeps_openProject LawfulStore.quiet_sound _).ends h₂ hopen
  exact ⟨hne, below_openProject h₂ hne hopen, LawfulStore.below_of_find h₃ hne hfind⟩

end Below

end Run

/-- A run loads the workflow `w` at `path`, transpiles it to `out` and writes it. -/
def Run.Migrated {σ : Type} [FileStore σ] (s : Settings) (o : Run.Options) (files : σ) (path : Bytes)
    (w : Workflow) (out : Transpiled) : Prop :=
  ∃ registry project units t, Ends (Run.prepareWorkflows o) files (registry, project, units) t ∧
    Session.Migrated s registry o.cancelled.workflows units
      { files := t, root := o.workflowDir, project := project } path w out

end Flowsmith
