import Flowsmith.Proofs.Files.Path
import Flowsmith.Proofs.Steps
import Mathlib.Data.List.Induction
import Mathlib.Data.List.Nodup
import Mathlib.Data.List.Perm.Subperm
import Mathlib.Data.List.Range

/-!
# The files in memory

The table of a store is a tree: its paths are clean and stand in it once, and above each of them is a
directory (`Sound`). Every operation keeps that, and what an operation that succeeds does to the
contents is said path by path.

* `Sound` : the table is a tree;
* `Made`, `Made.sound` : a store that operations made is one;
* `fileAt?` : the content of the file at a path of the table;
* `read_iff`, `write_ends`, `remove_ends`, `list_ends` : what succeeded operations found and did.
-/

namespace Flowsmith.Memory

open Flowsmith.Path

/-! ## Written paths -/

theorem normalize_eq (p : Bytes) : normalize p = key (fromRoot p) := by
  unfold normalize
  split
  · rename_i h
    exact clean_key h
  · have hroot : root ≠ [] := List.cons_ne_nil _ _
    have habs : isAbsolute (join root p) = true := isAbsolute_join hroot p
    rw [clean_key habs, fromRoot_join hroot]
    rfl

@[simp] theorem fromRoot_normalize (p : Bytes) : fromRoot (normalize p) = fromRoot p := by
  rw [normalize_eq, fromRoot_key (isEntry_fromRoot p)]

theorem normalize_congr {p q : Bytes} (h : fromRoot p = fromRoot q) : normalize p = normalize q := by
  rw [normalize_eq, normalize_eq, h]

@[simp] theorem normalize_normalize (p : Bytes) : normalize (normalize p) = normalize p :=
  normalize_congr (fromRoot_normalize p)

theorem normalize_key {ns : List Bytes} (h : ∀ n ∈ ns, IsEntry n) : normalize (key ns) = key ns := by
  rw [normalize_eq, fromRoot_key h]

theorem key_nil : key [] = root := rfl

theorem key_eq_root_iff {ns : List Bytes} (h : ∀ n ∈ ns, IsEntry n) : key ns = root ↔ ns = [] := by
  refine ⟨fun hk => key_inj h (by simp) (hk.trans key_nil.symm), ?_⟩
  rintro rfl
  rfl

/-! ## The table -/

theorem lookup_put (m : Memory) (p q : Bytes) (e : MemoryEntry) :
    (m.put p e).lookup q = if q = p then some e else m.lookup q := by
  unfold put lookup
  by_cases hany : m.table.any (·.1 == p) = true
  · rw [if_pos hany]
    simp only [List.find?_map, Option.map_map]
    have hkeys : ((fun entry : Bytes × MemoryEntry => entry.1 == q) ∘
        fun entry => if (entry.1 == p) = true then (p, e) else entry) = (·.1 == q) := by
      funext entry
      by_cases hp : entry.1 = p <;> simp [hp]
    rw [hkeys]
    cases hfind : m.table.find? (·.1 == q) with
    | none =>
      have hq : q ≠ p := by
        rintro rfl
        obtain ⟨entry, hmem, hentry⟩ := List.any_eq_true.1 hany
        exact List.find?_eq_none.1 hfind entry hmem hentry
      simp [hq]
    | some entry =>
      have hentry : entry.1 = q := by simpa using List.find?_some hfind
      by_cases hq : q = p <;> simp [hentry, hq]
  · rw [if_neg hany, List.find?_append]
    by_cases hq : q = p
    · have hnone : m.table.find? (·.1 == p) = none := by
        rw [List.find?_eq_none]
        intro entry hmem hentry
        exact hany (List.any_eq_true.2 ⟨entry, hmem, hentry⟩)
      simp [hq, hnone]
    · have hqp : (p == q) = false := by simp [Ne.symm hq]
      simp [hq, hqp]

theorem lookup_erase (m : Memory) (p q : Bytes) :
    (m.erase p).lookup q = if q = p then none else m.lookup q := by
  unfold erase lookup
  rw [List.find?_filter]
  by_cases hq : q = p
  · subst hq
    simp
  · rw [if_neg hq]
    congr 2
    funext entry
    by_cases h : entry.1 = q <;> simp [h, hq]

theorem keys_put (m : Memory) (p : Bytes) (e : MemoryEntry) :
    (m.put p e).table.map (·.1) =
      if m.table.any (·.1 == p) then m.table.map (·.1) else m.table.map (·.1) ++ [p] := by
  unfold put
  split
  · rw [List.map_map]
    refine List.map_congr_left fun entry _ => ?_
    by_cases hp : entry.1 = p <;> simp [hp]
  · simp

theorem nodup_put {m : Memory} (h : (m.table.map (·.1)).Nodup) (p : Bytes) (e : MemoryEntry) :
    ((m.put p e).table.map (·.1)).Nodup := by
  rw [keys_put]
  split
  · exact h
  · rename_i hany
    refine List.nodup_append.2 ⟨h, by simp, fun a ha b hb => ?_⟩
    rintro rfl
    rw [List.mem_singleton] at hb
    obtain ⟨entry, hmem, rfl⟩ := List.mem_map.1 ha
    exact hany (List.any_eq_true.2 ⟨entry, hmem, by simp [hb]⟩)

theorem mem_of_lookup {m : Memory} {p : Bytes} {e : MemoryEntry} (h : m.lookup p = some e) :
    (p, e) ∈ m.table := by
  obtain ⟨entry, hfind, rfl⟩ := Option.map_eq_some_iff.1 h
  have hkey : entry.1 = p := by simpa using List.find?_some hfind
  rw [← hkey]
  exact List.mem_of_find?_eq_some hfind

theorem lookup_of_mem {m : Memory} (hm : (m.table.map (·.1)).Nodup) {p : Bytes} {e : MemoryEntry}
    (h : (p, e) ∈ m.table) : m.lookup p = some e := by
  unfold lookup
  generalize m.table = t at hm h
  induction t with
  | nil => cases h
  | cons entry t ih =>
    rw [List.map_cons, List.nodup_cons] at hm
    rcases List.mem_cons.1 h with rfl | h
    · simp
    · have hne : entry.1 ≠ p := fun heq => hm.1 (heq ▸ List.mem_map_of_mem (f := (·.1)) h)
      rw [List.find?_cons_of_neg (by simp [hne])]
      exact ih hm.2 h

/-- The table is a tree. -/
structure Sound (m : Memory) : Prop where
  unique : (m.table.map (·.1)).Nodup
  normal : ∀ p e, m.lookup p = some e → normalize p = p
  /-- What stands at the root is a directory. -/
  top : ∀ e, m.lookup root = some e → e = .directory
  parent : ∀ p e, m.lookup p = some e → p ≠ root → m.lookup (directory p) = some .directory

/-- The content of the file at a path of the table. -/
def fileAt? (m : Memory) (p : Bytes) : Option Bytes :=
  match m.lookup p with
  | some (.file content) => some content
  | _ => none

theorem fileAt?_eq_some {m : Memory} {p c : Bytes} :
    m.fileAt? p = some c ↔ m.lookup p = some (.file c) := by
  unfold fileAt?
  split
  · rename_i content h
    simp [h]
  · rename_i h
    refine ⟨nofun, fun hc => absurd hc (h c)⟩

namespace Sound

variable {m : Memory}

theorem empty : Sound Memory.empty where
  unique := by simp [Memory.empty]
  normal p e h := by
    obtain rfl : p = root := by
      have hmem := mem_of_lookup h
      exact (Prod.mk.inj (List.mem_singleton.1 hmem)).1
    rfl
  top e h := (Prod.mk.inj (List.mem_singleton.1 (mem_of_lookup h))).2
  parent p e h hp := absurd (Prod.mk.inj (List.mem_singleton.1 (mem_of_lookup h))).1 hp

theorem congr {m' : Memory} (h : Sound m) (ht : m'.table = m.table) : Sound m' := by
  have hl : ∀ p, m'.lookup p = m.lookup p := fun p => by rw [lookup, ht, lookup]
  exact
    { unique := ht ▸ h.unique
      normal := fun p e hp => h.normal p e (by rw [← hl, hp])
      top := fun e he => h.top e (by rw [← hl, he])
      parent := fun p e hp hr => by rw [hl]; exact h.parent p e (by rw [← hl, hp]) hr }

/-- Something is put at a clean path below a directory, and no directory is overwritten. -/
theorem put (h : Sound m) {p : Bytes} {e : MemoryEntry} (hp : normalize p = p) (hr : p ≠ root)
    (hdir : m.lookup (directory p) = some .directory)
    (hkeep : m.lookup p = some .directory → e = .directory) : Sound (m.put p e) where
  unique := nodup_put h.unique p e
  normal q e' hq := by
    rw [lookup_put] at hq
    split at hq
    · rename_i hqp
      rw [hqp, hp]
    · exact h.normal q e' hq
  top e' he' := by
    rw [lookup_put, if_neg (Ne.symm hr)] at he'
    exact h.top e' he'
  parent q e' hq hqr := by
    have hold : m.lookup (directory q) = some .directory := by
      rw [lookup_put] at hq
      split at hq
      · rename_i hqp
        rw [hqp, hdir]
      · exact h.parent q e' hq hqr
    rw [lookup_put]
    split
    · rename_i heq
      rw [hkeep (heq ▸ hold)]
    · exact hold

/-- A path is taken out that no other one lies in. -/
theorem erase (h : Sound m) {p : Bytes}
    (hfree : ∀ q e, m.lookup q = some e → q ≠ root → directory q ≠ p) : Sound (m.erase p) where
  unique := by
    unfold Memory.erase
    exact (List.filter_sublist.map _).nodup h.unique
  normal q e hq := by
    rw [lookup_erase] at hq
    split at hq
    · cases hq
    · exact h.normal q e hq
  top e he := by
    rw [lookup_erase] at he
    split at he
    · cases he
    · exact h.top e he
  parent q e hq hqr := by
    rw [lookup_erase] at hq
    split at hq
    · cases hq
    · rw [lookup_erase, if_neg (hfree q e hq hqr)]
      exact h.parent q e hq hqr

theorem key_of_lookup (h : Sound m) {p : Bytes} {e : MemoryEntry} (hp : m.lookup p = some e) :
    p = key (fromRoot p) := by
  rw [← normalize_eq, h.normal p e hp]

/-- Above everything in the table lies a directory. -/
theorem parent_key (h : Sound m) {ns : List Bytes} {n : Bytes} {e : MemoryEntry}
    (hns : ∀ k ∈ ns, IsEntry k) (hn : IsEntry n) (hp : m.lookup (key (ns ++ [n])) = some e) :
    m.lookup (key ns) = some .directory := by
  have hr : key (ns ++ [n]) ≠ root := by
    rw [Ne, key_eq_root_iff]
    · simp
    · intro k hk
      rcases List.mem_append.1 hk with hk | hk
      · exact hns k hk
      · rwa [List.mem_singleton.1 hk]
  have hdir := h.parent _ e hp hr
  rwa [directory_key hns hn] at hdir

end Sound

/-! ## Making directories -/

/-- A store after directories were made: what stood in it stands there still. -/
structure Grows (m m' : Memory) : Prop where
  refused : m'.refused = m.refused
  lookup : ∀ p, m'.lookup p = m.lookup p ∨ m.lookup p = none ∧ m'.lookup p = some .directory

namespace Grows

theorem refl (m : Memory) : Grows m m := ⟨rfl, fun _ => .inl rfl⟩

theorem trans {m₁ m₂ m₃ : Memory} (h₁ : Grows m₁ m₂) (h₂ : Grows m₂ m₃) : Grows m₁ m₃ where
  refused := h₂.refused.trans h₁.refused
  lookup p := by
    rcases h₁.lookup p with h | ⟨hnone, hdir⟩
    · rw [← h]
      exact h₂.lookup p
    · refine .inr ⟨hnone, ?_⟩
      rcases h₂.lookup p with h | ⟨h, -⟩
      · rw [h, hdir]
      · rw [hdir] at h
        cases h

theorem fileAt? {m m' : Memory} (h : Grows m m') (p : Bytes) : m'.fileAt? p = m.fileAt? p := by
  unfold Memory.fileAt?
  rcases h.lookup p with h | ⟨hnone, hdir⟩
  · rw [h]
  · rw [hnone, hdir]

end Grows

/-- The store has the entries and the refusals of another one. -/
structure Same (m₀ m : Memory) : Prop where
  table : m.table = m₀.table
  refused : m.refused = m₀.refused

namespace Same

variable {m₀ m : Memory}

theorem refl (m : Memory) : Same m m := ⟨rfl, rfl⟩

theorem lookup (h : Same m₀ m) : m.lookup = m₀.lookup := by
  funext p
  rw [Memory.lookup, h.table, Memory.lookup]

theorem fileAt? (h : Same m₀ m) : m.fileAt? = m₀.fileAt? := by
  funext p
  rw [Memory.fileAt?, h.lookup, Memory.fileAt?]

end Same

/-- Directories that are made are made below one another, also when the last of them cannot be. -/
theorem ran_makeDirsFrom {m : Memory} {ns names : List Bytes} (hm : Sound m)
    (hns : ∀ n ∈ ns, IsEntry n) (hnames : ∀ n ∈ names, IsEntry n)
    (hdir : m.lookup (key ns) = some .directory) :
    ∃ r m', ran (makeDirsFrom (key ns) names) m = (r, m') ∧ Sound m' ∧ Grows m m' ∧
      (r = .ok () → m'.lookup (key (ns ++ names)) = some .directory) := by
  induction names generalizing ns m with
  | nil => exact ⟨_, _, rfl, hm, Grows.refl _, fun _ => by rwa [List.append_nil]⟩
  | cons n names ih =>
    have hn := hnames n List.mem_cons_self
    have hrest : ∀ k ∈ names, IsEntry k := fun k hk => hnames k (List.mem_cons_of_mem _ hk)
    have hone : ∀ k ∈ [n], IsEntry k := fun k hk => by rwa [List.mem_singleton.1 hk]
    have hsnoc : ∀ k ∈ ns ++ [n], IsEntry k := fun k hk =>
      (List.mem_append.1 hk).elim (hns k) (hone k)
    have hpath : join (key ns) n = key (ns ++ [n]) := join_key hns hone
    have happend : ns ++ n :: names = ns ++ [n] ++ names := by simp
    simp only [makeDirsFrom, ran_get_bind, hpath, happend]
    split
    · exact ⟨_, _, rfl, hm, Grows.refl _, nofun⟩
    simp only [ran_get_bind]
    split
    · rename_i hnone
      rw [ran_modify_bind]
      have hroot : key (ns ++ [n]) ≠ root := fun hk => by simpa using (key_eq_root_iff hsnoc).1 hk
      have hput : Sound (m.put (key (ns ++ [n])) .directory) :=
        hm.put (normalize_key hsnoc) hroot (by rwa [directory_key hns hn]) fun _ => rfl
      have hgrows : Grows m (m.put (key (ns ++ [n])) .directory) := by
        refine ⟨rfl, fun p => ?_⟩
        rw [lookup_put]
        split
        · rename_i hp
          exact .inr ⟨hp ▸ hnone, rfl⟩
        · exact .inl rfl
      obtain ⟨r, m', hran, hsound, hmore, hlast⟩ := ih hput hsnoc hrest (by rw [lookup_put, if_pos rfl])
      exact ⟨r, m', hran, hsound, hgrows.trans hmore, hlast⟩
    · rename_i hthere
      exact ih hm hsnoc hrest hthere
    · exact ⟨_, _, rfl, hm, Grows.refl _, nofun⟩

theorem parts_normalize (p : Bytes) : parts (normalize p) = fromRoot p := by
  obtain ⟨k, hk, hparts⟩ := parts_eq (normalize p)
  rw [hparts, hk (by rw [normalize_eq]; rfl), fromRoot_normalize]
  rfl

theorem ran_makeDirs {m : Memory} (hm : Sound m) (p : Bytes) :
    ∃ r m', ran (makeDirs p) m = (r, m') ∧ Sound m' ∧ Grows m m' ∧
      (r = .ok () → m'.lookup root ≠ none → m'.lookup (normalize p) = some .directory) := by
  simp only [makeDirs, ran_get_bind]
  split
  · rename_i hthere
    exact ⟨_, _, rfl, hm, Grows.refl _, fun _ _ => hthere⟩
  · exact ⟨_, _, rfl, hm, Grows.refl _, nofun⟩
  · rw [parts_normalize]
    cases hroot : m.lookup root with
    | some e =>
      have htop : m.lookup (key []) = some .directory := by rw [key_nil, hroot, hm.top e hroot]
      obtain ⟨r, m', hran, hsound, hgrows, hlast⟩ :=
        ran_makeDirsFrom hm (by simp) (isEntry_fromRoot p) htop
      rw [List.nil_append, ← normalize_eq] at hlast
      exact ⟨r, m', hran, hsound, hgrows, fun hr _ => hlast hr⟩
    | none =>
      -- without a root only the empty list of names is made
      cases hnames : fromRoot p with
      | nil => exact ⟨_, _, rfl, hm, Grows.refl _, fun _ h => absurd hroot h⟩
      | cons n names =>
        simp only [makeDirsFrom, ran_get_bind, hroot, Option.isNone_none, if_true]
        exact ⟨_, _, rfl, hm, Grows.refl _, nofun⟩

/-! ## Operations on files -/

theorem ran_entryAt (m : Memory) (p : Bytes) : (ran (entryAt p) m).2 = m := by
  simp only [entryAt, ran_get_bind]
  split
  · rfl
  · split <;> rfl

theorem entryAt_ends {m m' : Memory} {p : Bytes} {e : MemoryEntry} (h : Ends (entryAt p) m e m') :
    m' = m ∧ m.lookup (normalize p) = some e ∧ m.refusal? (normalize p) = none := by
  unfold entryAt at h
  simp only [Ends.get_bind_iff] at h
  split at h
  · simp at h
  rename_i hrefused
  split at h
  · rename_i e' hlookup
    obtain ⟨rfl, rfl⟩ := Ends.pure_iff.1 h
    exact ⟨rfl, hlookup, hrefused⟩
  · simp at h

theorem ran_read (m : Memory) (p : Bytes) : (ran (read p) m).2 = { m with reads := m.reads + 1 } := by
  rw [read, ran_modify_bind, ran_bind]
  have hkeep := ran_entryAt { m with reads := m.reads + 1 } p
  generalize ran (entryAt p) { m with reads := m.reads + 1 } = out at hkeep
  obtain ⟨r, t⟩ := out
  obtain rfl : t = { m with reads := m.reads + 1 } := hkeep
  cases r with
  | error f => rfl
  | ok e => cases e <;> rfl

theorem read_iff {m m' : Memory} {p c : Bytes} :
    Ends (read p) m c m' ↔ m' = { m with reads := m.reads + 1 } ∧
      m.fileAt? (normalize p) = some c ∧ m.refusal? (normalize p) = none := by
  unfold read
  rw [Ends.modify_bind_iff, Ends.bind_iff]
  constructor
  · rintro ⟨e, t, hentry, h⟩
    obtain ⟨rfl, hlookup, hrefusal⟩ := entryAt_ends hentry
    split at h
    · obtain ⟨rfl, rfl⟩ := Ends.pure_iff.1 h
      exact ⟨rfl, fileAt?_eq_some.2 hlookup, hrefusal⟩
    · simp at h
  · rintro ⟨rfl, hfile, hrefusal⟩
    refine ⟨.file c, _, ?_, Ends.pure_iff.2 ⟨rfl, rfl⟩⟩
    have hrefusal' : refusal? { m with reads := m.reads + 1 } (normalize p) = none := hrefusal
    have hlookup : lookup { m with reads := m.reads + 1 } (normalize p) = some (.file c) :=
      fileAt?_eq_some.1 hfile
    simp [Ends, entryAt, hrefusal', hlookup]

theorem normalize_directory (p : Bytes) :
    normalize (directory (normalize p)) = directory (normalize p) := by
  rw [normalize_eq p]
  have hall := isEntry_fromRoot p
  cases hns : fromRoot p using List.reverseRecOn with
  | nil => decide
  | append_singleton ns n =>
    rw [hns] at hall
    have hinit : ∀ k ∈ ns, IsEntry k := fun k hk => hall k (List.mem_append_left _ hk)
    rw [directory_key hinit (hall n (by simp)), normalize_key hinit]

theorem fileAt?_put (m : Memory) (p q c : Bytes) :
    (m.put p (.file c)).fileAt? q = if q = p then some c else m.fileAt? q := by
  unfold fileAt?
  rw [lookup_put]
  by_cases hq : q = p <;> simp [hq]

theorem fileAt?_erase (m : Memory) (p q : Bytes) :
    (m.erase p).fileAt? q = if q = p then none else m.fileAt? q := by
  unfold fileAt?
  rw [lookup_erase]
  by_cases hq : q = p <;> simp [hq]

/-- Writing keeps the tree. A file that was written is there, and no other file changes. -/
theorem ran_write {m : Memory} (hm : Sound m) (p c : Bytes) :
    ∃ r m', ran (write p c) m = (r, m') ∧ Sound m' ∧ m'.refused = m.refused ∧
      ∀ q, m'.fileAt? q = if r = .ok () ∧ q = normalize p then some c else m.fileAt? q := by
  have hcount : Sound { m with writes := m.writes + 1 } := hm.congr rfl
  have hsame : ∀ q, Memory.fileAt? { m with writes := m.writes + 1 } q = m.fileAt? q := fun _ => rfl
  simp only [write, ran_modify_bind, ran_get_bind]
  split
  · exact ⟨_, _, rfl, hcount, rfl, fun q => by simp [hsame]⟩
  obtain ⟨r, t, hran, ht, hgrows, hdir⟩ := ran_makeDirs hcount (directory (normalize p))
  rw [ran_bind, hran]
  have hkeep : ∀ q, t.fileAt? q = m.fileAt? q := fun q => hgrows.fileAt? q
  cases r with
  | error f => exact ⟨_, _, rfl, ht, hgrows.refused, fun q => by simp [hkeep]⟩
  | ok u =>
    simp only [ran_get_bind]
    split
    · exact ⟨_, _, rfl, ht, hgrows.refused, fun q => by simp [hkeep]⟩
    rename_i hroot
    simp only [ran_get_bind]
    have habove : t.lookup (directory (normalize p)) = some .directory := by
      rw [← normalize_directory]
      exact hdir rfl (by simpa using hroot)
    split
    · exact ⟨_, _, rfl, ht, hgrows.refused, fun q => by simp [hkeep]⟩
    rename_i hfree
    have hnotroot : normalize p ≠ root := by
      intro hp
      rw [hp] at hfree
      obtain ⟨e, he⟩ := Option.ne_none_iff_exists'.1 (by simpa using hroot)
      exact hfree (he.trans (by rw [ht.top e he]))
    refine ⟨_, _, rfl, ht.put (normalize_normalize p) hnotroot habove fun h => absurd h hfree,
      hgrows.refused, fun q => ?_⟩
    rw [fileAt?_put, hkeep]
    simp

theorem write_ends {m m' : Memory} {u : Unit} {p c : Bytes} (hm : Sound m)
    (h : Ends (write p c) m u m') :
    Sound m' ∧ m'.refused = m.refused ∧
      ∀ q, m'.fileAt? q = if q = normalize p then some c else m.fileAt? q := by
  obtain ⟨r, t, hran, ht, hrefused, hfiles⟩ := ran_write hm p c
  cases hran.symm.trans h
  exact ⟨ht, hrefused, fun q => by simpa using hfiles q⟩

/-- Removing keeps the tree. What was removed is gone, and no other file changes. -/
theorem ran_remove {m : Memory} (hm : Sound m) (p : Bytes) :
    ∃ r m', ran (remove p) m = (r, m') ∧ Sound m' ∧ m'.refused = m.refused ∧
      ∀ q, m'.fileAt? q = if r = .ok () ∧ q = normalize p then none else m.fileAt? q := by
  rw [remove, ran_bind]
  cases hentry : ran (entryAt (normalize p)) m with
  | mk r t =>
  cases r with
  | error f =>
    obtain rfl : t = m := by rw [← ran_entryAt m (normalize p), hentry]
    exact ⟨_, _, rfl, hm, rfl, fun q => by simp⟩
  | ok e =>
    obtain ⟨rfl, hlookup, -⟩ := entryAt_ends hentry
    rw [normalize_normalize] at hlookup
    simp only [ran_get_bind]
    split
    · exact ⟨_, _, rfl, hm, rfl, fun q => by simp⟩
    rename_i hempty
    have hfree : ∀ q e', t.lookup q = some e' → q ≠ root → directory q ≠ normalize p := by
      intro q e' hq hr hdir
      have habove := hm.parent q e' hq hr
      rw [hdir, hlookup] at habove
      cases habove
      have hchild : (q, e') ∈ t.children (normalize p) :=
        List.mem_filter.2 ⟨mem_of_lookup hq, by simp [hr, hdir]⟩
      have hnonempty : (t.children (normalize p)).isEmpty = false := by
        rw [List.isEmpty_eq_false_iff]
        exact List.ne_nil_of_mem hchild
      simp [MemoryEntry.isDirectory, hnonempty] at hempty
    exact ⟨_, _, rfl, hm.erase hfree, rfl, fun q => by simpa using fileAt?_erase _ _ _⟩

theorem remove_ends {m m' : Memory} {u : Unit} {p : Bytes} (hm : Sound m)
    (h : Ends (remove p) m u m') :
    Sound m' ∧ m'.refused = m.refused ∧
      ∀ q, m'.fileAt? q = if q = normalize p then none else m.fileAt? q := by
  obtain ⟨r, t, hran, ht, hrefused, hfiles⟩ := ran_remove hm p
  cases hran.symm.trans h
  exact ⟨ht, hrefused, fun q => by simpa using hfiles q⟩

/-! ## Listing -/

namespace Sound

variable {m : Memory}

/-- Everything in the table but the root is an entry of a directory. -/
theorem eq_key_snoc (hm : Sound m) {p : Bytes} {e : MemoryEntry} (hp : m.lookup p = some e)
    (hr : p ≠ root) :
    ∃ ns n, (∀ k ∈ ns, IsEntry k) ∧ IsEntry n ∧ p = key (ns ++ [n]) := by
  have hkey := hm.key_of_lookup hp
  have hall := isEntry_fromRoot p
  cases hns : fromRoot p using List.reverseRecOn with
  | nil =>
    rw [hns] at hkey
    exact absurd hkey hr
  | append_singleton ns n =>
    rw [hns] at hkey hall
    exact ⟨ns, n, fun k hk => hall k (List.mem_append_left _ hk), hall n (by simp), hkey⟩

/-- Above everything in the table there are directories up to the root. -/
theorem above (hm : Sound m) {ns ms : List Bytes} {e : MemoryEntry}
    (hall : ∀ k ∈ ns ++ ms, IsEntry k) (hp : m.lookup (key (ns ++ ms)) = some e) (hne : ms ≠ []) :
    m.lookup (key ns) = some .directory := by
  induction ms using List.reverseRecOn generalizing e with
  | nil => exact absurd rfl hne
  | append_singleton ms k ih =>
    rw [← List.append_assoc] at hp hall
    have hinit : ∀ j ∈ ns ++ ms, IsEntry j := fun j hj => hall j (List.mem_append_left _ hj)
    have hlast := hm.parent_key hinit (hall k (by simp)) hp
    by_cases hms : ms = []
    · rwa [hms, List.append_nil] at hlast
    · exact ih hinit hlast hms

/-- Nothing lies deeper than the table is long. -/
theorem length_lt (hm : Sound m) {ns : List Bytes} {e : MemoryEntry} (hns : ∀ k ∈ ns, IsEntry k)
    (hp : m.lookup (key ns) = some e) : ns.length < m.table.length := by
  -- the paths above it are in the table too, and differ
  let above := (List.range (ns.length + 1)).map fun i => key (ns.take i)
  have hmem : above ⊆ m.table.map (·.1) := by
    intro p hpath
    obtain ⟨i, -, rfl⟩ := List.mem_map.1 hpath
    have htake : ∃ e', m.lookup (key (ns.take i)) = some e' := by
      by_cases hdrop : ns.drop i = []
      · refine ⟨e, ?_⟩
        rwa [List.take_of_length_le (List.drop_eq_nil_iff.1 hdrop)]
      · rw [← List.take_append_drop i ns] at hp hns
        exact ⟨_, hm.above hns hp hdrop⟩
    obtain ⟨e', he'⟩ := htake
    exact List.mem_map_of_mem (f := (·.1)) (mem_of_lookup he')
  have hnodup : above.Nodup := by
    refine List.Nodup.map_on (fun i hi j hj hij => ?_) List.nodup_range
    have htakes := key_inj (fun k hk => hns k (List.mem_of_mem_take hk))
      (fun k hk => hns k (List.mem_of_mem_take hk)) hij
    have hlen := congrArg List.length htakes
    rw [List.mem_range] at hi hj
    simp only [List.length_take] at hlen
    omega
  have hle := (hnodup.subperm hmem).length_le
  simp only [above, List.length_map, List.length_range] at hle
  omega

theorem root_of_lookup (hm : Sound m) {q : Bytes} {e : MemoryEntry} (h : m.lookup q = some e) :
    m.lookup root = some .directory := by
  have hkey := hm.key_of_lookup h
  by_cases hnil : fromRoot q = []
  · rw [hnil, key_nil] at hkey
    rw [hkey] at h
    rw [h, hm.top e h]
  · rw [hkey] at h
    have hnone : ∀ k ∈ [] ++ fromRoot q, IsEntry k := isEntry_fromRoot q
    exact hm.above hnone h hnil

theorem parent_of_file (hm : Sound m) {q c : Bytes} (h : m.fileAt? q = some c) :
    m.lookup (directory q) = some .directory := by
  have hlookup := fileAt?_eq_some.1 h
  refine hm.parent _ _ hlookup fun hroot => ?_
  rw [hroot] at hlookup
  cases hm.top _ hlookup

end Sound

theorem exists_key_of_fileAt? {m : Memory} (hm : Sound m) {p c : Bytes} (h : m.fileAt? p = some c) :
    ∃ ns n, (∀ k ∈ ns ++ [n], IsEntry k) ∧ p = key (ns ++ [n]) ∧ base p = n ∧
      fromRoot (directory p) = ns := by
  have hlookup := fileAt?_eq_some.1 h
  have hroot : p ≠ root := by
    rintro rfl
    cases hm.top _ hlookup
  obtain ⟨ns, n, hns, hn, rfl⟩ := hm.eq_key_snoc hlookup hroot
  refine ⟨ns, n, fun k hk => ?_, rfl, base_key ns hn, ?_⟩
  · rcases List.mem_append.1 hk with hk | hk
    · exact hns k hk
    · rwa [List.mem_singleton.1 hk]
  · rw [directory_key hns hn, fromRoot_key hns]

/-- A listing holds the names of a directory and what stands there. -/
theorem list_ends {m m' : Memory} {p : Bytes} {es : List DirEntry} (hm : Sound m)
    (h : Ends (list p) m es m') :
    m' = m ∧ ∀ n d, ⟨n, d⟩ ∈ es ↔
      IsEntry n ∧ ∃ e, m.lookup (key (fromRoot p ++ [n])) = some e ∧ e.isDirectory = d := by
  unfold list at h
  rw [Ends.bind_iff] at h
  obtain ⟨e, t, hentry, h⟩ := h
  obtain ⟨rfl, -, -⟩ := entryAt_ends hentry
  split at h
  · simp at h
  simp only [Ends.get_bind_iff] at h
  obtain ⟨rfl, rfl⟩ := Ends.pure_iff.1 h
  refine ⟨rfl, fun n d => ?_⟩
  have hdir := isEntry_fromRoot p
  rw [List.mem_mergeSort, List.mem_map]
  constructor
  · rintro ⟨⟨q, e⟩, hchild, hentry⟩
    obtain ⟨hmem, hq⟩ := List.mem_filter.1 hchild
    have hlookup := lookup_of_mem hm.unique hmem
    simp only [bne_iff_ne, Bool.and_eq_true, beq_iff_eq] at hq
    obtain ⟨ns, k, hns, hk, rfl⟩ := hm.eq_key_snoc hlookup hq.1
    obtain ⟨rfl, rfl⟩ := DirEntry.mk.inj hentry
    rw [directory_key hns hk, normalize_eq] at hq
    obtain rfl := key_inj hns hdir hq.2
    rw [base_key _ hk]
    exact ⟨hk, e, hlookup, rfl⟩
  · rintro ⟨hn, e, hlookup, rfl⟩
    refine ⟨(key (fromRoot p ++ [n]), e), List.mem_filter.2 ⟨mem_of_lookup hlookup, ?_⟩, ?_⟩
    · have hsnoc : ∀ k ∈ fromRoot p ++ [n], IsEntry k := by
        intro k hk
        rcases List.mem_append.1 hk with hk | hk
        · exact hdir k hk
        · rwa [List.mem_singleton.1 hk]
      have hroot : key (fromRoot p ++ [n]) ≠ root := fun hk => by
        simpa using (key_eq_root_iff hsnoc).1 hk
      simp [hroot, directory_key hdir hn, normalize_eq]
    · rw [base_key _ hn]

/-! ## Stores that operations made -/

/-- What operations make of the root alone, whether they succeed or fail. -/
inductive Made : Memory → Prop where
  | empty : Made .empty
  | refuse {m : Memory} (path message : Bytes) (h : Made m) : Made (m.refuse path message)
  | makeDirs {m : Memory} (path : Bytes) (h : Made m) : Made (ran (makeDirs path) m).2
  | write {m : Memory} (path content : Bytes) (h : Made m) : Made (ran (write path content) m).2
  | read {m : Memory} (path : Bytes) (h : Made m) : Made (ran (read path) m).2
  | remove {m : Memory} (path : Bytes) (h : Made m) : Made (ran (remove path) m).2

theorem Made.sound {m : Memory} (h : Made m) : Sound m := by
  induction h with
  | empty => exact .empty
  | refuse path message h ih => exact ih.congr rfl
  | makeDirs path h ih =>
    obtain ⟨r, m', hran, hm', -⟩ := ran_makeDirs ih path
    rwa [hran]
  | write path content h ih =>
    obtain ⟨r, m', hran, hm', -⟩ := ran_write ih path content
    rwa [hran]
  | read path h ih => exact ih.congr (by rw [ran_read])
  | remove path h ih =>
    obtain ⟨r, m', hran, hm', -⟩ := ran_remove ih path
    rwa [hran]

end Flowsmith.Memory
