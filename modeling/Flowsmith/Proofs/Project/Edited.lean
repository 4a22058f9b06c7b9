import Flowsmith.Proofs.Project.Items

/-!
# Projects that were edited

A project that is loaded and edited remembers that it was, and is saved only then. Whether or not it was
saved, its file gives a project in which the removals need not be made again.

* `Project.Storable` : a project that can be saved and read again;
* `Project.Edited` : a project that was loaded and edited, and knows whether it was;
* `Edited.reload` : what the file of an edited project gives.
-/

namespace Flowsmith

open Xml

deriving instance DecidableEq for Project

namespace Project

variable {p p' p₀ : Project} {tag key file : Bytes} {wanted : Bytes → Bool}

/-- A project that can be saved and read again, with all values as they were but those of source
files. -/
structure Storable (p : Project) : Prop where
  root : ∃ name, rootName? p.nodes = some name ∧ isTagged removable name = false
  formed : Formed Element.Named p.nodes
  values : ∀ e ∈ breadthFirst p.nodes, e.name.tag = ("Compile" : Bytes) ∨ e.Lasting

theorem of_ofBytes {path data : Bytes} (h : ofBytes path data = .ok p) :
    p.modified = false ∧ Legal p.nodes ∧ ∃ name, rootName? p.nodes = some name := by
  rw [ofBytes] at h
  generalize (if byteOrderMark.isPrefixOf data then data.drop 3 else data) = body at h
  cases hparse : parse? body with
  | none =>
    simp only [parse, hparse] at h
    cases h
  | some nodes =>
    simp only [parse, hparse] at h
    cases hroot : root? nodes with
    | none =>
      rw [hroot] at h
      cases h
    | some r =>
      rw [hroot] at h
      cases h
      exact ⟨rfl, legal_of_parse? hparse, r.1, by rw [rootName?, hroot]; rfl⟩

theorem storable_of_ofBytes {path data : Bytes} (h : ofBytes path data = .ok p)
    (hroot : ∀ name, rootName? p.nodes = some name → isTagged removable name = false)
    (hvalues : ∀ e ∈ breadthFirst p.nodes, ∀ a ∈ e.attrs, 0x0D ∉ a.value) : p.Storable := by
  obtain ⟨-, hlegal, name, hname⟩ := of_ofBytes h
  refine ⟨⟨name, hname, hroot name hname⟩, hlegal.mono fun _ he => he.named, fun e he => .inr ?_⟩
  intro a ha
  exact ⟨((hlegal.elements e he).attrs a ha).value, hvalues e he a ha⟩

/-- A project in which what is removed is not the root and holds nothing that is added, and whose values
hold no carriage returns. -/
structure Plain (p : Project) : Prop where
  root : ∀ name, rootName? p.nodes = some name → isTagged removable name = false
  flat : areFlat (isTagged removable) (isTagged grown) p.nodes = true
  values : ∀ e ∈ breadthFirst p.nodes, ∀ a ∈ e.attrs, 0x0D ∉ a.value

theorem Plain.fit (h : p.Plain) {path data : Bytes} (hbytes : ofBytes path data = .ok p) : p.Fit := by
  obtain ⟨-, hlegal, name, hname⟩ := of_ofBytes hbytes
  exact ⟨⟨name, hname, h.root name hname⟩, h.flat, hlegal, h.values⟩

theorem Storable.removeWhere (h : p.Storable) (htag : tag ∈ removable) :
    (p.removeWhere tag key wanted).2.Storable := by
  refine ⟨Rooted.removeWhere h.root htag, ⟨fun e he => ?_, fun n hn => ?_⟩, fun e he => ?_⟩
  · exact h.formed.elements e (mem_pruneAll he).1
  · exact h.formed.leaves n (leaves_pruneAll hn)
  · exact h.values e (mem_pruneAll he).1

theorem Storable.addCompile (h : p.Storable) : (p.addCompile file).Storable := by
  obtain ⟨hcompile, hgroup, hinclude⟩ := written_plain
  rcases @addCompile_cases p file h.root with ⟨hsame, -⟩ | ⟨child, q, hchild, happend, -, -⟩
  · rwa [hsame]
  have hleaves : ∀ n ∈ leaves [child], n.LegalLeaf := by
    rcases hchild with rfl | rfl <;> exact nofun
  refine ⟨Rooted.addCompile h.root, ⟨fun e he => ?_, fun n hn => ?_⟩, fun e he => ?_⟩
  · rcases happend.mem_iff.1 he with he | he
    · exact h.formed.elements e he
    · rcases mem_compileItem hchild he with rfl | rfl
      · exact ⟨hcompile, by simpa using hinclude, by simp⟩
      · exact ⟨hgroup, by simp, by simp⟩
  · exact (happend.mem_leaves_iff.1 hn).elim (h.formed.leaves n) (hleaves n)
  · rcases happend.mem_iff.1 he with he | he
    · exact h.values e he
    · rcases mem_compileItem hchild he with rfl | rfl
      · exact .inl rfl
      · exact .inr nofun

/-! ## Removals -/

theorem removeWhere_eq_self (h : ∀ e ∈ breadthFirst p.nodes, isTarget tag key wanted e = false) :
    (p.removeWhere tag key wanted).2 = p := by
  have hnone : (breadthFirst p.nodes).filter (isTarget tag key wanted) = [] :=
    List.filter_eq_nil_iff.2 fun e he => by simp [h e he]
  rw [removeWhere, hnone, pruneAll_eq_self h]
  simp

theorem isTarget_removeWhere {e : Element} (he : e ∈ breadthFirst (p.removeWhere tag key wanted).2.nodes) :
    isTarget tag key wanted e = false := (mem_pruneAll he).2

/-- What is read back of a project has no element to remove where the project had none. -/
theorem Storable.isTarget_reread (h : p.Storable) (hread : bare p'.nodes = bare (settled p.nodes))
    (htag : tag ∈ removable) (hother : tag ≠ ("Compile" : Bytes))
    (hnone : ∀ e ∈ breadthFirst p.nodes, isTarget tag key wanted e = false) {e : Element}
    (he : e ∈ breadthFirst p'.nodes) : isTarget tag key wanted e = false := by
  rw [← mem_breadthFirst_bare, hread, mem_breadthFirst_bare, mem_breadthFirst_settled] at he
  obtain ⟨e, he, rfl⟩ := he
  rcases h.values e he with hcompile | hlasting
  · -- a source file is none of the elements that are removed
    rw [isTarget, isMeantBy_ofPath (no_colon_of_removable htag), hcompile, beq_false_of_ne hother]
    rfl
  · rw [hlasting.map_settled]
    exact hnone e he

/-! ## Edits -/

/-- The project is that which was loaded after some edits, and counts as modified unless it is the same. -/
structure Edited (p₀ p : Project) : Prop where
  path : p.path = p₀.path
  storable : p.Storable
  same : p.modified = false → p = p₀

namespace Edited

theorem refl (h : p₀.Storable) : Edited p₀ p₀ := ⟨rfl, h, fun _ => rfl⟩

theorem removeWhere (h : Edited p₀ p) (htag : tag ∈ removable) :
    Edited p₀ (p.removeWhere tag key wanted).2 := by
  refine ⟨h.path, h.storable.removeWhere htag, fun hmodified => ?_⟩
  obtain ⟨hunmodified, hnodes⟩ := nodes_removeWhere hmodified
  rw [← h.same hunmodified]
  refine removeWhere_eq_self fun e he => ?_
  rw [← hnodes] at he
  exact isTarget_removeWhere he

theorem removeItems (h : Edited p₀ p) : Edited p₀ (p.removeItems file).2 :=
  (h.removeWhere (by decide)).removeWhere (by decide)

theorem addCompile (h : Edited p₀ p) : Edited p₀ (p.addCompile file) := by
  refine ⟨(addCompile_path p file).trans h.path, h.storable.addCompile, fun hmodified => ?_⟩
  have hsame := nodes_addCompile hmodified
  rw [hsame] at hmodified ⊢
  exact h.same hmodified

theorem withoutItems (h : Edited p₀ p) (files : List Bytes) : Edited p₀ (p.withoutItems files) := by
  induction files generalizing p with
  | nil => exact h
  | cons file files ih => exact ih h.removeItems

/-- **The file of an edited project**, saved when it counts as modified, gives a project that is not
modified and has no element to remove where the edited one had none. -/
theorem reload (h : Edited p₀ p) {data : Bytes} (hdata : ofBytes p₀.path data = .ok p₀) :
    ∃ p', ofBytes p₀.path (if p.modified then p.toBytes else data) = .ok p' ∧ p'.modified = false ∧
      ∀ tag ∈ removable, tag ≠ ("Compile" : Bytes) → ∀ key wanted,
        (∀ e ∈ breadthFirst p.nodes, isTarget tag key wanted e = false) →
          ∀ e ∈ breadthFirst p'.nodes, isTarget tag key wanted e = false := by
  cases hmodified : p.modified with
  | false =>
    obtain rfl := h.same hmodified
    exact ⟨p, hdata, hmodified, fun _ _ _ _ _ hnone => hnone⟩
  | true =>
    obtain ⟨name, hname, -⟩ := h.storable.root
    obtain ⟨p', hread, hunmodified, -, hbare⟩ := ofBytes_toBytes h.storable.formed hname
    rw [h.path] at hread
    exact ⟨p', hread, hunmodified, fun tag htag hother key wanted hnone e he =>
      h.storable.isTarget_reread hbare htag hother hnone he⟩

end Edited

end Project

end Flowsmith
