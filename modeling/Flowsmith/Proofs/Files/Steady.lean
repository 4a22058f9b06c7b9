import Flowsmith.Proofs.Files.Table

/-!
# Stores whose directories stay

Where no path is refused, a file that is there is read and removed, and one is written wherever a
directory is there for it. None of that changes a directory.

* `Memory.write_ok`, `Memory.remove_ok`, `Memory.read_ok` : operations that succeed;
* `Memory.Steady` : the directories are those of the beginning, and nothing is refused.
-/

namespace Flowsmith

open Flowsmith.Path Memory

namespace Memory

variable {m : Memory} {p : Bytes}

/-- A file is written when its directory is there and no directory has its path. -/
theorem write_ok (hm : Sound m) (hrefusal : m.refusal? (normalize p) = none) (c : Bytes)
    (hparent : m.lookup (directory (normalize p)) = some .directory)
    (hplace : m.lookup (normalize p) ≠ some .directory) :
    Ends (write p c) m () { m.put (normalize p) (.file c) with writes := m.writes + 1 } := by
  have hdirs : Ends (makeDirs (directory (normalize p))) { m with writes := m.writes + 1 } ()
      { m with writes := m.writes + 1 } := by
    unfold makeDirs
    rw [Ends.get_bind_iff, normalize_directory,
      show Memory.lookup { m with writes := m.writes + 1 } (directory (normalize p)) = _ from hparent]
    exact Ends.pure_iff.2 ⟨rfl, rfl⟩
  have hroot : Memory.lookup { m with writes := m.writes + 1 } root = some .directory :=
    hm.root_of_lookup hparent
  unfold write
  rw [Ends.modify_bind_iff, Ends.get_bind_iff,
    show Memory.refusal? { m with writes := m.writes + 1 } (normalize p) = none from hrefusal]
  refine Ends.bind_iff.2 ⟨_, _, hdirs, ?_⟩
  rw [Ends.get_bind_iff, if_neg (by simp [hroot]), Ends.get_bind_iff]
  split
  · rename_i hthere
    exact absurd hthere hplace
  · rfl

theorem remove_ok (hrefused : m.refused = []) {c : Bytes} (hfile : m.fileAt? (normalize p) = some c) :
    Ends (remove p) m () (m.erase (normalize p)) := by
  have hentry : Ends (entryAt (normalize p)) m (.file c) m := by
    simp [Ends, entryAt, refusal?, hrefused, fileAt?_eq_some.1 hfile]
  exact Ends.bind_iff.2 ⟨_, _, hentry, rfl⟩

theorem read_ok (hrefused : m.refused = []) {c : Bytes} (hfile : m.fileAt? (normalize p) = some c) :
    Ends (read p) m c { m with reads := m.reads + 1 } :=
  read_iff.2 ⟨rfl, hfile, by rw [refusal?, hrefused]; rfl⟩

theorem isDirectory_ok (hrefused : m.refused = []) (hne : p ≠ []) :
    Ends (Files.isDirectory p) m (decide (m.lookup (normalize p) = some .directory)) m := by
  have hrefusal : ∀ q, m.refusal? q = none := fun q => by rw [refusal?, hrefused]; rfl
  rw [Files.isDirectory, if_neg (by simpa using hne), Ends, ran_tryCatch, ran_bind,
    show ran (FileStore.stat p) m = ran (stat p) m from rfl, stat, ran_bind, entryAt, ran_get_bind]
  simp only [hrefusal]
  cases m.lookup (normalize p) with
  | none => rfl
  | some e => cases e <;> rfl

/-! ## Directories that stay -/

/-- Nothing is refused, and the directories are those of another store. -/
structure Steady (m₀ m : Memory) : Prop where
  sound : Sound m
  refused : m.refused = []
  directories : ∀ q, m.lookup q = some .directory ↔ m₀.lookup q = some .directory

namespace Steady

variable {m₀ : Memory} {dir : Bytes}

theorem of_same (hm : Sound m₀) (hrefused : m₀.refused = []) (h : Same m₀ m) : Steady m₀ m :=
  ⟨hm.congr h.table, h.refused.trans hrefused, fun q => by rw [h.lookup]⟩

theorem count (h : Steady m₀ m) (k : Nat) : Steady m₀ { m with reads := k } :=
  ⟨h.sound.congr rfl, h.refused, h.directories⟩

theorem listable (h : Steady m₀ m) (hdir : m₀.lookup (normalize dir) = some .directory) :
    m.Listable dir :=
  ⟨(h.directories _).2 hdir, fun _ _ _ => by rw [refusal?, h.refused]; rfl⟩

/-- Writing a file into a directory leaves the directories. -/
theorem write (h : Steady m₀ m) (c : Bytes)
    (hparent : m₀.lookup (directory (normalize p)) = some .directory)
    (hplace : m₀.lookup (normalize p) ≠ some .directory) :
    ∃ m', Ends (Memory.write p c) m () m' ∧ Steady m₀ m' := by
  have hparent := (h.directories _).2 hparent
  have hplace : m.lookup (normalize p) ≠ some .directory := fun hd => hplace ((h.directories _).1 hd)
  have hends := write_ok h.sound (by rw [refusal?, h.refused]; rfl) c hparent hplace
  obtain ⟨hsound, hrefused, -⟩ := write_ends h.sound hends
  refine ⟨_, hends, hsound, hrefused.trans h.refused, fun q => ?_⟩
  show (m.put (normalize p) (.file c)).lookup q = _ ↔ _
  rw [lookup_put, ← h.directories]
  split
  · rename_i hq
    exact ⟨by rintro ⟨⟩, fun hd => absurd (hq ▸ hd) hplace⟩
  · rfl

theorem remove (h : Steady m₀ m) {c : Bytes} (hfile : m.fileAt? (normalize p) = some c) :
    ∃ m', Ends (Memory.remove p) m () m' ∧ Steady m₀ m' := by
  have hends := remove_ok h.refused hfile
  obtain ⟨hsound, hrefused, -⟩ := remove_ends h.sound hends
  refine ⟨_, hends, hsound, hrefused.trans h.refused, fun q => ?_⟩
  rw [lookup_erase, ← h.directories]
  split
  · rename_i hq
    refine ⟨nofun, fun hd => ?_⟩
    rw [hq, fileAt?_eq_some.1 hfile] at hd
    cases hd
  · rfl

end Steady

end Memory

end Flowsmith
