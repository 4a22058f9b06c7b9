import Flowsmith.Proofs.Files.Steady

/-!
# Stores with the same tree

Writing over a file changes what the file holds, and neither which paths lead to files and directories
nor which are refused. Searches see no more than that.

* `Memory.SameTree` : stores with the same tree;
* `Memory.sameTree_write` : writing over a file leaves the tree;
* `SameTree.find` : searches find the same in stores with the same tree;
* `Files.findFirst?_of_fewer` : the first file found stays the first when others are gone.
-/

namespace Flowsmith

open Flowsmith.Path Memory

namespace Memory

/-- The stores refuse the same paths, and at every path either both have a file, or both a directory, or
neither has anything. -/
structure SameTree (m₀ m : Memory) : Prop where
  refused : m.refused = m₀.refused
  kind : ∀ q, (m.lookup q).map MemoryEntry.isDirectory = (m₀.lookup q).map MemoryEntry.isDirectory

namespace SameTree

variable {m₀ m m' : Memory}

theorem of_same (h : Same m₀ m) : SameTree m₀ m := ⟨h.refused, fun q => by rw [h.lookup]⟩

theorem refl (m : Memory) : SameTree m m := of_same (.refl m)

theorem trans (h : SameTree m₀ m) (h' : SameTree m m') : SameTree m₀ m' :=
  ⟨h'.refused.trans h.refused, fun q => (h'.kind q).trans (h.kind q)⟩

theorem directory_iff (h : SameTree m₀ m) (q : Bytes) :
    m.lookup q = some .directory ↔ m₀.lookup q = some .directory := by
  have hdirectory : ∀ {e : Option MemoryEntry}, e = some .directory ↔
      e.map MemoryEntry.isDirectory = some true := by
    intro e
    match e with
    | none => simp
    | some .directory => simp [MemoryEntry.isDirectory]
    | some (.file c) => simp [MemoryEntry.isDirectory]
  rw [hdirectory, h.kind, ← hdirectory]

theorem exists_file_iff (h : SameTree m₀ m) (q : Bytes) :
    (∃ c, m.fileAt? q = some c) ↔ ∃ c, m₀.fileAt? q = some c := by
  have hfile : ∀ {m : Memory}, (∃ c, m.fileAt? q = some c) ↔
      (m.lookup q).map MemoryEntry.isDirectory = some false := by
    intro m
    simp only [fileAt?_eq_some]
    match m.lookup q with
    | none => simp
    | some .directory => simp [MemoryEntry.isDirectory]
    | some (.file c) => simp [MemoryEntry.isDirectory]
  rw [hfile, h.kind, ← hfile]

theorem refusal? (h : SameTree m₀ m) (q : Bytes) : m.refusal? q = m₀.refusal? q := by
  rw [Memory.refusal?, h.refused, Memory.refusal?]

theorem listable (h : SameTree m₀ m) {dir : Bytes} (hlist : m₀.Listable dir) : m.Listable dir where
  directory := (h.directory_iff _).2 hlist.directory
  free names hnames hthere := by
    rw [h.refusal?]
    exact hlist.free names hnames ((h.directory_iff _).1 hthere)

theorem hit_iff (h : SameTree m₀ m) {ps : List Glob.Part} {dir : Bytes} {names : List Bytes} :
    Files.Hit m ps dir names ↔ Files.Hit m₀ ps dir names := by
  constructor
  · rintro ⟨hnames, hfile, hlast⟩
    exact ⟨hnames, (h.exists_file_iff _).1 hfile, hlast⟩
  · rintro ⟨hnames, hfile, hlast⟩
    exact ⟨hnames, (h.exists_file_iff _).2 hfile, hlast⟩

/-- **Searches find the same in stores with the same tree.** -/
theorem find (h : SameTree m₀ m) (hm₀ : Sound m₀) (hm : Sound m) {dir pattern : Bytes}
    {found : List Bytes} {t : Memory} (hdir : dir ≠ []) (hfind : Ends (Files.find dir pattern) m₀ found t) :
    Ends (Files.find dir pattern) m found m := by
  obtain ⟨rfl, ps, hps, hfound⟩ := Files.find_ends hm₀ hdir hfind
  obtain ⟨-, hlist⟩ := (Files.find_ok_iff hm₀ hdir).1 ⟨found, hfind⟩
  obtain ⟨found', hfind'⟩ := (Files.find_ok_iff hm hdir).2
    ⟨Option.isSome_iff_exists.2 ⟨ps, hps⟩, h.listable hlist⟩
  obtain ⟨-, ps', hps', hfound'⟩ := Files.find_ends hm hdir hfind'
  obtain rfl := Option.some.inj (hps.symm.trans hps')
  have hmem : ∀ path, path ∈ found' ↔ path ∈ found := fun path => by
    rw [hfound, hfound']
    simp only [h.hit_iff]
  have hperm := (List.perm_ext_iff_of_nodup (Files.nodup_find hm hdir hfind')
    (Files.nodup_find hm₀ hdir hfind)).2 hmem
  rwa [← hperm.eq_of_pairwise (fun _ _ _ _ => Bytes.le_antisymm) (Files.sorted_find hfind')
    (Files.sorted_find hfind)]

theorem findFirst? (h : SameTree m₀ m) (hm₀ : Sound m₀) (hm : Sound m) {dir pattern : Bytes}
    {found : Option Bytes} {t : Memory} (hdir : dir ≠ [])
    (hfind : Ends (Files.findFirst? dir pattern) m₀ found t) :
    Ends (Files.findFirst? dir pattern) m found m := by
  obtain ⟨paths, t', hpaths, hend⟩ := Ends.bind_iff.1 hfind
  obtain ⟨rfl, -⟩ := Ends.pure_iff.1 hend
  exact Files.findFirst?_of_find (h.find hm₀ hm hdir hpaths)

end SameTree

variable {m m' : Memory}

theorem sameTree_write (hm : Sound m) {p c c₀ : Bytes} {u : Unit}
    (hfile : m.fileAt? (normalize p) = some c₀) (h : Ends (write p c) m u m') : SameTree m m' := by
  have hrefusal : m.refusal? (normalize p) = none := by
    unfold write at h
    rw [Ends.modify_bind_iff, Ends.get_bind_iff] at h
    split at h
    · simp at h
    · rename_i hnone
      exact hnone
  have hlookup := fileAt?_eq_some.1 hfile
  obtain ⟨-, rfl⟩ := h.det (write_ok hm hrefusal c (hm.parent_of_file hfile) (by rw [hlookup]; nofun))
  refine ⟨rfl, fun q => ?_⟩
  show ((m.put (normalize p) (.file c)).lookup q).map _ = _
  rw [lookup_put]
  split
  · rename_i hq
    rw [hq, hlookup]
    rfl
  · rfl

end Memory

namespace Files

variable {m₀ m : Memory} {dir pattern path : Bytes}

/-- The file that a search finds first is still found first when it is there and all others that are
found were found before. -/
theorem findFirst?_of_fewer (hm₀ : Sound m₀) (hm : Sound m) {t : Memory} (hdir : dir ≠ [])
    (hfind : Ends (findFirst? dir pattern) m₀ (some path) t) (hlist : m.Listable dir)
    (hthere : ∃ c, m.fileAt? (normalize path) = some c)
    (hfewer : ∀ ps names, Glob.parse? pattern = some ps → Hit m ps dir names → Hit m₀ ps dir names) :
    Ends (findFirst? dir pattern) m (some path) m := by
  obtain ⟨paths, t', hpaths, hend⟩ := Ends.bind_iff.1 hfind
  obtain ⟨hfirst, -⟩ := Ends.pure_iff.1 hend
  obtain ⟨-, ps, hps, hmem₀⟩ := find_ends hm₀ hdir hpaths
  obtain ⟨found, hfound⟩ := (find_ok_iff hm hdir).2 ⟨Option.isSome_iff_exists.2 ⟨ps, hps⟩, hlist⟩
  obtain ⟨-, ps', hps', hmem⟩ := find_ends hm hdir hfound
  obtain rfl := Option.some.inj (hps.symm.trans hps')
  obtain ⟨rest, rfl⟩ := List.head?_eq_some_iff.1 hfirst
  obtain ⟨names, hhit, hpath⟩ := (hmem₀ path).1 List.mem_cons_self
  have hpathmem : path ∈ found := by
    refine (hmem path).2 ⟨names, ⟨hhit.entries, ?_, hhit.last⟩, hpath⟩
    rwa [hpath, normalize_names hdir hhit.entries] at hthere
  have hsub : ∀ q ∈ found, q = path ∨ Bytes.le path q = true := fun q hq => by
    obtain ⟨names', hhit', hq'⟩ := (hmem q).1 hq
    have hbefore := (hmem₀ q).2 ⟨names', hfewer ps names' hps hhit', hq'⟩
    exact (List.mem_cons.1 hbefore).imp_right (List.rel_of_pairwise_cons (sorted_find hpaths))
  convert findFirst?_of_find hfound
  cases found with
  | nil => cases hpathmem
  | cons q more =>
    -- the first that is found now comes before the path and after it
    rcases hsub q List.mem_cons_self with rfl | hle
    · rfl
    · rcases List.mem_cons.1 hpathmem with rfl | hmore
      · rfl
      · have hge := List.rel_of_pairwise_cons (sorted_find hfound) hmore
        rw [List.head?_cons, Bytes.le_antisymm hle hge]

end Files

end Flowsmith
