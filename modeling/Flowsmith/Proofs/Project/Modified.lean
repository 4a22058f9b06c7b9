import Flowsmith.Proofs.Project.Edited
import Flowsmith.Proofs.Files.Memory
import Flowsmith.Proofs.Outcome
import Mathlib

/-!
# Projects that know they were modified

A project that is open is edited, asked and saved in any order, while its file may become unwritable
at any time. Whether it counts as modified is exactly whether it was edited since it was loaded or last
saved.

* `Opened`, `Action`, `Opened.run` : a project that is open, and what happens to it;
* `Action.Edits` : an action that changes what the project lists;
* `Since` : the actions after the last save that succeeded;
* `modified_iff_edited` : a project counts as modified exactly when one of these edits it.
-/

namespace Flowsmith.Project

open Xml

variable {σ : Type} [FileStore σ]

/-! ## A project that is open -/

/-- A project that is open, and the files that it is kept among. -/
structure Opened (σ : Type) where
  project : Project
  files : σ

/-- What happens while a project is open. -/
inductive Action (σ : Type) where
  | removeItems (file : Bytes)
  | removeImport (targets : Bytes)
  | removeReferences (names : List Bytes)
  | addCompile (file : Bytes)
  | items (tag : Bytes)
  | save
  /-- The files change, so that the project file cannot be written any more, or can be again. -/
  | files (change : σ → σ)

def laidOut (p : Project) : Project := { p with nodes := layout p.nodes }

namespace Opened

def Saves (x : Opened σ) : Prop := ∃ p t, Ends x.project.save x.files p t

/-- What an attempt to save leaves. The document is laid out before the file is written, so it stays
laid out when the file cannot be written. -/
def saved (x : Opened σ) : Opened σ :=
  match ran x.project.save x.files with
  | (.ok p, t) => ⟨p.laidOut, t⟩
  | (.error _, t) => ⟨x.project.laidOut, t⟩

def after (x : Opened σ) : Action σ → Opened σ
  | .removeItems file => { x with project := (x.project.removeItems file).2 }
  | .removeImport targets => { x with project := (x.project.removeImport targets).2 }
  | .removeReferences names => { x with project := (x.project.removeReferences names).2 }
  | .addCompile file => { x with project := x.project.addCompile file }
  | .items _ => x
  | .save => x.saved
  | .files change => { x with files := change x.files }

def run (x : Opened σ) (acts : List (Action σ)) : Opened σ := acts.foldl after x

@[simp] theorem run_cons (x : Opened σ) (a : Action σ) (acts : List (Action σ)) :
    x.run (a :: acts) = (x.after a).run acts := rfl

@[simp] theorem run_append (x : Opened σ) (acts acts' : List (Action σ)) :
    x.run (acts ++ acts') = (x.run acts).run acts' := List.foldl_append

end Opened

/-- An action edits a project: a removal that removes something, or a source file that is added while
no source file is listed under its name. An item without a name is listed under the empty one. -/
def Action.Edits (p : Project) : Action σ → Prop
  | .removeItems file => 0 < (p.removeItems file).1
  | .removeImport targets => 0 < (p.removeImport targets).1
  | .removeReferences names => 0 < (p.removeReferences names).1
  | .addCompile file => ∀ e ∈ elementsNamed "Compile" p.nodes, e.attrD "Include" ≠ file
  | _ => False

/-! ## One action -/

section Edits

variable {p : Project} {tag key file : Bytes} {wanted : Bytes → Bool}

/-- A removal that removes nothing leaves the project as it was. -/
theorem removeWhere_eq_self_of_count (h : (p.removeWhere tag key wanted).1 = 0) :
    (p.removeWhere tag key wanted).2 = p := by
  apply removeWhere_eq_self
  intro e he
  have hnone := List.filter_eq_nil_iff.1 (List.length_eq_zero_iff.1 h) e he
  simpa using hnone

theorem modified_removeWhere : (p.removeWhere tag key wanted).2.modified = true ↔
    p.modified = true ∨ 0 < (p.removeWhere tag key wanted).1 := by
  simp [removeWhere]

theorem modified_removeItems : (p.removeItems file).2.modified = true ↔
    p.modified = true ∨ 0 < (p.removeItems file).1 := by
  show ((p.removeWhere "Compile" "Include" (· == file)).2.removeWhere "Content" "Include"
    (· == file)).2.modified = true ↔ _
  rw [modified_removeWhere, modified_removeWhere, or_assoc, ← Nat.add_pos_iff_pos_or_pos]
  rfl

theorem removeItems_eq_self_of_count (h : (p.removeItems file).1 = 0) :
    (p.removeItems file).2 = p := by
  obtain ⟨hcompiled, hcontent⟩ := Nat.add_eq_zero_iff.1 h
  show ((p.removeWhere "Compile" "Include" (· == file)).2.removeWhere "Content" "Include"
    (· == file)).2 = p
  rw [removeWhere_eq_self_of_count hcontent, removeWhere_eq_self_of_count hcompiled]

theorem mem_items : file ∈ p.items tag ↔ ∃ e ∈ elementsNamed tag p.nodes, e.attrD "Include" = file :=
  List.mem_map

theorem modified_addCompile : (p.addCompile file).modified = true ↔
    p.modified = true ∨ ∀ e ∈ elementsNamed "Compile" p.nodes, e.attrD "Include" ≠ file := by
  unfold addCompile
  split
  · rename_i hlisted
    obtain ⟨e, he, hfile⟩ := mem_items.1 (List.contains_iff_mem.1 hlisted)
    constructor
    · exact Or.inl
    · rintro (h | h)
      · exact h
      · exact absurd hfile (h e he)
  · rename_i hlisted
    refine iff_of_true rfl (Or.inr ?_)
    intro e he hfile
    exact hlisted (List.contains_iff_mem.2 (mem_items.2 ⟨e, he, hfile⟩))

theorem addCompile_eq_self (h : ¬ ∀ e ∈ elementsNamed "Compile" p.nodes, e.attrD "Include" ≠ file) :
    p.addCompile file = p := by
  push Not at h
  unfold addCompile
  exact if_pos (List.contains_iff_mem.2 (mem_items.2 h))

theorem bare_laidOut (p : Project) : bare p.laidOut.nodes = bare p.nodes := bare_layoutAll 0 false

theorem save_iff {t t' : σ} {q : Project} : Ends p.save t q t' ↔
    Ends (FileStore.write p.path p.toBytes) t () t' ∧ q = { p with modified := false } := by
  unfold save
  simp only [Ends.bind_iff, Ends.tryCatch_iff, Ends.pure_iff]
  constructor
  · rintro ⟨u, t₁, hwrite, hq, rfl⟩
    exact ⟨hwrite, hq.symm⟩
  · rintro ⟨hwrite, hq⟩
    exact ⟨(), t', hwrite, hq.symm, rfl⟩

end Edits

/-- A save that succeeds leaves a project that is not modified, with the same elements. -/
theorem Opened.saved_of_saves {x : Opened σ} (h : x.Saves) :
    x.saved.project.modified = false ∧ bare x.saved.project.nodes = bare x.project.nodes := by
  obtain ⟨p, t, hsave⟩ := h
  obtain ⟨-, rfl⟩ := save_iff.1 hsave
  unfold saved
  rw [show ran x.project.save x.files = _ from hsave]
  exact ⟨rfl, bare_laidOut x.project⟩

/-- A save that fails leaves the project as it was but for the layout. -/
theorem Opened.saved_of_not_saves {x : Opened σ} (h : ¬ x.Saves) :
    x.saved.project = x.project.laidOut := by
  unfold saved
  obtain ⟨r, t, hran⟩ : ∃ r t, ran x.project.save x.files = (r, t) := ⟨_, _, rfl⟩
  rw [hran]
  cases r with
  | error f => rfl
  | ok p => exact absurd ⟨p, t, hran⟩ h

/-- What an action other than a successful save does to the flag and to the elements. -/
theorem Opened.after_spec (x : Opened σ) (a : Action σ) (h : a = .save → ¬ x.Saves) :
    ((x.after a).project.modified = true ↔ x.project.modified = true ∨ a.Edits x.project) ∧
    (¬ a.Edits x.project → bare (x.after a).project.nodes = bare x.project.nodes) := by
  cases a with
  | removeItems file =>
    refine ⟨modified_removeItems, fun hnone => ?_⟩
    show bare (x.project.removeItems file).2.nodes = _
    rw [removeItems_eq_self_of_count (Nat.eq_zero_of_not_pos hnone)]
  | removeImport targets =>
    refine ⟨modified_removeWhere, fun hnone => ?_⟩
    show bare (x.project.removeWhere _ _ _).2.nodes = _
    rw [removeWhere_eq_self_of_count (Nat.eq_zero_of_not_pos hnone)]
  | removeReferences names =>
    refine ⟨modified_removeWhere, fun hnone => ?_⟩
    show bare (x.project.removeWhere _ _ _).2.nodes = _
    rw [removeWhere_eq_self_of_count (Nat.eq_zero_of_not_pos hnone)]
  | addCompile file =>
    refine ⟨modified_addCompile, fun hlisted => ?_⟩
    show bare (x.project.addCompile file).nodes = _
    rw [addCompile_eq_self hlisted]
  | items tag => exact ⟨(or_iff_left id).symm, fun _ => rfl⟩
  | save =>
    have hsaved : (x.after .save).project = x.project.laidOut := saved_of_not_saves (h rfl)
    rw [hsaved]
    exact ⟨(or_iff_left id).symm, fun _ => bare_laidOut x.project⟩
  | files change => exact ⟨(or_iff_left id).symm, fun _ => rfl⟩

/-! ## Runs -/

namespace Opened

/-- One of the actions edits the project, as it is when its turn comes. -/
def EditedBy (x : Opened σ) (acts : List (Action σ)) : Prop :=
  ∃ done a rest, acts = done ++ a :: rest ∧ a.Edits (x.run done).project

def Unsaved (x : Opened σ) (acts : List (Action σ)) : Prop :=
  ∀ done rest, acts = done ++ .save :: rest → ¬ (x.run done).Saves

variable {x : Opened σ} {a : Action σ} {acts : List (Action σ)}

theorem not_editedBy_nil : ¬ x.EditedBy [] := by
  rintro ⟨done, a, rest, h, -⟩
  exact List.append_ne_nil_of_right_ne_nil done (List.cons_ne_nil a rest) h.symm

theorem editedBy_cons : x.EditedBy (a :: acts) ↔ a.Edits x.project ∨ (x.after a).EditedBy acts := by
  constructor
  · rintro ⟨done, b, rest, happ, hb⟩
    rcases List.cons_eq_append_iff.1 happ with ⟨rfl, heq⟩ | ⟨done, rfl, rfl⟩
    · obtain ⟨rfl, rfl⟩ := List.cons.inj heq
      exact Or.inl hb
    · exact Or.inr ⟨done, b, rest, rfl, hb⟩
  · rintro (ha | ⟨done, b, rest, rfl, hb⟩)
    · exact ⟨[], a, acts, rfl, ha⟩
    · exact ⟨a :: done, b, rest, rfl, hb⟩

theorem Unsaved.head (h : x.Unsaved (a :: acts)) : a = .save → ¬ x.Saves := by
  rintro rfl
  exact h [] acts rfl

theorem Unsaved.tail (h : x.Unsaved (a :: acts)) : (x.after a).Unsaved acts := by
  intro done rest happ
  exact h (a :: done) rest (by rw [happ]; rfl)

/-- What actions without a successful save do to the flag and to the elements. -/
theorem run_spec (h : x.Unsaved acts) :
    ((x.run acts).project.modified = true ↔ x.project.modified = true ∨ x.EditedBy acts) ∧
    (¬ x.EditedBy acts → bare (x.run acts).project.nodes = bare x.project.nodes) := by
  induction acts generalizing x with
  | nil => exact ⟨(or_iff_left not_editedBy_nil).symm, fun _ => rfl⟩
  | cons a acts ih =>
    obtain ⟨hflag, hsame⟩ := after_spec x a h.head
    obtain ⟨hflags, hsames⟩ := ih h.tail
    rw [run_cons, editedBy_cons]
    refine ⟨by rw [hflags, hflag, or_assoc], fun hnone => ?_⟩
    push Not at hnone
    rw [hsames hnone.2, hsame hnone.1]

end Opened

/-- The actions `since` are those after the last save of `before ++ since` that succeeded, or all of
them when none did. -/
structure Since (x : Opened σ) (before since : List (Action σ)) : Prop where
  starts : before = [] ∨ ∃ done, before = done ++ [.save] ∧ (x.run done).Saves
  unsaved : (x.run before).Unsaved since

theorem exists_since (x : Opened σ) (acts : List (Action σ)) :
    ∃ before since, acts = before ++ since ∧ Since x before since := by
  induction acts using List.reverseRecOn with
  | nil =>
    refine ⟨[], [], rfl, Or.inl rfl, ?_⟩
    intro done rest h
    exact absurd h.symm (List.append_ne_nil_of_right_ne_nil done (List.cons_ne_nil _ rest))
  | append_singleton acts a ih =>
    by_cases hsave : a = .save ∧ (x.run acts).Saves
    · obtain ⟨rfl, hsaves⟩ := hsave
      refine ⟨acts ++ [.save], [], by simp, Or.inr ⟨acts, rfl, hsaves⟩, ?_⟩
      intro done rest h
      exact absurd h.symm (List.append_ne_nil_of_right_ne_nil done (List.cons_ne_nil _ rest))
    · obtain ⟨before, since, rfl, hstarts, hunsaved⟩ := ih
      refine ⟨before, since ++ [a], by simp, hstarts, ?_⟩
      intro done rest happ
      -- the save is the last action, or one of those before
      rcases List.eq_nil_or_concat rest with rfl | ⟨rest, b, rfl⟩
      · obtain ⟨rfl, hlast⟩ := List.append_inj' happ rfl
        obtain rfl := List.singleton_inj.1 hlast
        intro hsaves
        exact hsave ⟨rfl, by simpa using hsaves⟩
      · rw [List.concat_eq_append, ← List.cons_append, ← List.append_assoc] at happ
        exact hunsaved done rest (List.append_inj' happ rfl).1

/-- The project after the last successful save, or as it was loaded, is not modified. -/
theorem Since.unmodified {x : Opened σ} {before since : List (Action σ)} (h : Since x before since)
    (hx : x.project.modified = false) : (x.run before).project.modified = false := by
  rcases h.starts with rfl | ⟨done, rfl, hsaves⟩
  · exact hx
  · rw [Opened.run_append]
    exact (Opened.saved_of_saves hsaves).1

/-- **A project counts as modified exactly when it was edited** since it was loaded or last saved. While
it does not, its elements are those it was loaded or saved with; and a save that fails changes neither
the flag nor the elements. -/
theorem modified_iff_edited {path data : Bytes} {p : Project} (hload : ofBytes path data = .ok p)
    (files : σ) (acts : List (Action σ)) :
    (∃ before since, acts = before ++ since ∧ Since ⟨p, files⟩ before since) ∧
    (∀ before since, acts = before ++ since → Since ⟨p, files⟩ before since →
      let saved := Opened.run ⟨p, files⟩ before
      let now := Opened.run ⟨p, files⟩ acts
      (now.project.modified = true ↔
        ∃ done a rest, since = done ++ a :: rest ∧ a.Edits (saved.run done).project) ∧
      (now.project.modified = false → bare now.project.nodes = bare saved.project.nodes)) ∧
    (¬ (Opened.run ⟨p, files⟩ acts).Saves →
      let now := Opened.run ⟨p, files⟩ acts
      (now.after .save).project.modified = now.project.modified ∧
      bare (now.after .save).project.nodes = bare now.project.nodes) := by
  refine ⟨exists_since ⟨p, files⟩ acts, ?_, ?_⟩
  · rintro before since rfl hsince
    have hclean := hsince.unmodified (of_ofBytes hload).1
    obtain ⟨hflag, hsame⟩ := Opened.run_spec hsince.unsaved
    rw [hclean] at hflag
    simp only [Bool.false_eq_true, false_or] at hflag
    simp only [Opened.run_append]
    refine ⟨hflag, fun hunmodified => hsame ?_⟩
    intro hedited
    rw [hflag.2 hedited] at hunmodified
    cases hunmodified
  · intro hfails
    have hsaved : ((Opened.run ⟨p, files⟩ acts).after .save).project
        = (Opened.run ⟨p, files⟩ acts).project.laidOut := Opened.saved_of_not_saves hfails
    refine ⟨by rw [hsaved]; rfl, ?_⟩
    rw [hsaved]
    exact bare_laidOut _

/-- A file under a path that fails cannot be saved. -/
theorem not_saves_of_refusal {x : Opened Memory} {message : Bytes}
    (h : x.files.refusal? (Memory.normalize x.project.path) = some message) : ¬ x.Saves := by
  rintro ⟨p, t, hsave⟩
  have hwrite : Ends (Memory.write x.project.path x.project.toBytes) x.files () t := (save_iff.1 hsave).1
  unfold Memory.write at hwrite
  rw [Ends.modify_bind_iff, Ends.get_bind_iff,
    show Memory.refusal? { x.files with writes := x.files.writes + 1 } _ = some message from h] at hwrite
  exact Ends.throw_iff hwrite

/-- A source file is removed, and then the project file becomes unwritable. -/
def refused : List (Action Memory) :=
  [.removeItems "A.cs", .files (·.refuse "/p.csproj" "disk full")]

set_option maxRecDepth 20000 in
theorem modified_iff_edited_refused : ∃ p,
    ofBytes "/p.csproj" "<P><Compile Include='A.cs'/></P>" = .ok p ∧
      (Opened.run ⟨p, Memory.empty⟩ refused).project.modified = true ∧
      ¬ (Opened.run ⟨p, Memory.empty⟩ refused).Saves ∧
      ((Opened.run ⟨p, Memory.empty⟩ refused).after .save).project.modified = true := by
  obtain ⟨p, hload, hpath, hremoved⟩ :
      ∃ p, ofBytes "/p.csproj" "<P><Compile Include='A.cs'/></P>" = .ok p ∧ p.path = "/p.csproj" ∧
        0 < (p.removeItems "A.cs").1 := by
    repeat rw [Bytes.ofString_ofList]
    decide +kernel
  obtain ⟨-, hflag, hfailed⟩ := modified_iff_edited hload Memory.empty refused
  have hsince : Since ⟨p, Memory.empty⟩ [] refused := by
    refine ⟨Or.inl rfl, ?_⟩
    intro done rest happ
    have hsave : Action.save ∈ refused := happ ▸ List.mem_append_right _ List.mem_cons_self
    simp [refused] at hsave
  have hmodified := (hflag [] refused rfl hsince).1.2 ⟨[], _, _, rfl, hremoved⟩
  have hfails : ¬ (Opened.run ⟨p, Memory.empty⟩ refused).Saves := by
    refine @not_saves_of_refusal _ "disk full" ?_
    show Memory.refusal? (Memory.empty.refuse "/p.csproj" "disk full") (Memory.normalize p.path) = _
    rw [hpath]
    decide
  exact ⟨p, hload, hmodified, hfails, (hfailed hfails).1.trans hmodified⟩

set_option maxRecDepth 20000 in
/-- An item without a name has not the empty name, but is taken to list it: the empty name is not added
a second time. -/
theorem unnamed_item_unmodified : ∃ p, ofBytes "/p.csproj" "<P><Compile/></P>" = .ok p ∧
    ¬ p.Lists "Compile" "Include" [] ∧
    (Opened.run ⟨p, Memory.empty⟩ [.addCompile []]).project.modified = false := by
  obtain ⟨p, hload, hitems, hadded⟩ : ∃ p, ofBytes "/p.csproj" "<P><Compile/></P>" = .ok p ∧
      elementsNamed "Compile" p.nodes = [⟨⟨[], "Compile"⟩, []⟩] ∧
      (p.addCompile []).modified = false := by
    repeat rw [Bytes.ofString_ofList]
    decide +kernel
  refine ⟨p, hload, ?_, hadded⟩
  unfold Lists
  rw [hitems]
  decide

end Flowsmith.Project
