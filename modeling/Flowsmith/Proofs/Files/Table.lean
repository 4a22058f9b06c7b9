import Flowsmith.Proofs.Files.Walk

/-!
# Searching by the table

A search in memory goes through directories, and gives what the table lists below a directory under
names that match, in byte order.

* `Bytes.sort_eq_of_perm` : what is in byte order already is what sorting gives;
* `Memory.filesBelow` : the files below a directory, as the table lists them;
* `Files.find_of_table` : a search gives them.
-/

namespace Flowsmith

open Flowsmith.Path Memory

namespace Bytes

theorem includes_iff {s w : Bytes} : s.includes w = true ↔ w <:+: s := by
  induction s with
  | nil =>
    rw [List.infix_nil, includes, indexOf?]
    cases w <;> simp
  | cons c s ih =>
    rw [includes] at ih
    rw [List.infix_cons_iff, ← ih, includes, indexOf?, ← List.isPrefixOf_iff_prefix]
    split <;> simp [*]

/-! ## Byte order -/

theorem lt_or_eq_or_lt (s t : Bytes) : lt s t = true ∨ s = t ∨ lt t s = true := by
  induction s generalizing t with
  | nil => cases t <;> simp [lt]
  | cons a s ih =>
    cases t with
    | nil => simp [lt]
    | cons b t =>
      rcases Nat.lt_trichotomy a.toNat b.toNat with hab | hab | hab
      · simp [lt, UInt8.lt_iff_toNat_lt.2 hab]
      · obtain rfl := UInt8.toNat_inj.1 hab
        rcases ih t with h | rfl | h <;> simp [lt, *]
      · simp [lt, UInt8.lt_iff_toNat_lt.2 hab]

theorem lt_trans {s t u : Bytes} (h : lt s t = true) (h' : lt t u = true) : lt s u = true := by
  induction s generalizing t u with
  | nil =>
    cases u with
    | nil => simp [lt] at h'
    | cons c u => rfl
  | cons a s ih =>
    cases t with
    | nil => simp [lt] at h
    | cons b t =>
      cases u with
      | nil => simp [lt] at h'
      | cons c u =>
        simp only [lt, Bool.or_eq_true, decide_eq_true_eq, Bool.and_eq_true, beq_iff_eq] at h h' ⊢
        rcases h with h | ⟨rfl, h⟩
        · rcases h' with h' | ⟨rfl, h'⟩
          · exact .inl (UInt8.lt_trans h h')
          · exact .inl h
        · rcases h' with h' | ⟨rfl, h'⟩
          · exact .inl h'
          · exact .inr ⟨rfl, ih h h'⟩

theorem lt_irrefl (s : Bytes) : lt s s = false := by
  induction s with
  | nil => rfl
  | cons a s ih => simp [lt, ih]

theorem le_iff {s t : Bytes} : le s t = true ↔ lt s t = true ∨ s = t := by
  rw [le, Bool.not_eq_true']
  constructor
  · intro h
    rcases lt_or_eq_or_lt s t with hlt | heq | hlt
    · exact .inl hlt
    · exact .inr heq
    · rw [h] at hlt
      cases hlt
  · rintro (h | rfl)
    · by_contra hne
      have hback := lt_trans h (by simpa using hne)
      rw [lt_irrefl] at hback
      cases hback
    · exact lt_irrefl s

theorem le_trans {s t u : Bytes} (h : le s t = true) (h' : le t u = true) : le s u = true := by
  rw [le_iff] at h h' ⊢
  rcases h with h | rfl
  · rcases h' with h' | rfl
    · exact .inl (lt_trans h h')
    · exact .inl h
  · exact h'

theorem le_total (s t : Bytes) : (le s t || le t s) = true := by
  rw [Bool.or_eq_true, le_iff, le_iff]
  rcases lt_or_eq_or_lt s t with h | h | h
  · exact .inl (.inl h)
  · exact .inl (.inr h)
  · exact .inr (.inl h)

theorem le_antisymm {s t : Bytes} (h : le s t = true) (h' : le t s = true) : s = t := by
  rcases le_iff.1 h with hlt | heq
  · rw [le, hlt] at h'
    cases h'
  · exact heq

theorem pairwise_sort (xs : List Bytes) : (sort xs).Pairwise fun s t => le s t :=
  List.pairwise_mergeSort
    (fun s t u (hst : le s t = true) (htu : le t u = true) => le_trans hst htu) le_total xs

/-- What is in byte order already is what sorting gives. -/
theorem sort_eq_of_perm {xs ys : List Bytes} (h : xs.Perm ys) (hys : ys.Pairwise fun s t => le s t) :
    sort xs = ys :=
  List.Perm.eq_of_pairwise (fun _ _ _ _ hab hba => le_antisymm hab hba) (pairwise_sort xs) hys
    ((List.mergeSort_perm xs _).trans h)

end Bytes

/-! ## Files of the table -/

/-- The files below a directory whose own name is wanted, as the table lists them. -/
def Memory.filesBelow (m : Memory) (dir : Bytes) (wanted : Bytes → Bool) : List Bytes :=
  (m.table.filter fun e =>
    !e.2.isDirectory && (fromRoot dir).isPrefixOf (fromRoot e.1) && wanted (base e.1)).map (·.1)

namespace Memory

variable {m : Memory}

theorem nodup_filesBelow (hm : Sound m) (dir : Bytes) (wanted : Bytes → Bool) :
    (m.filesBelow dir wanted).Nodup :=
  hm.unique.sublist (List.filter_sublist.map _)

theorem mem_filesBelow (hm : Sound m) {dir : Bytes} {wanted : Bytes → Bool} {p : Bytes} :
    p ∈ m.filesBelow dir wanted ↔
      (∃ c, m.fileAt? p = some c) ∧ fromRoot dir <+: fromRoot p ∧ wanted (base p) = true := by
  simp only [filesBelow, List.mem_map, List.mem_filter, Bool.and_eq_true, Bool.not_eq_true',
    List.isPrefixOf_iff_prefix]
  constructor
  · rintro ⟨⟨p, e⟩, ⟨hmem, ⟨hfile, hdir⟩, hwanted⟩, rfl⟩
    refine ⟨?_, hdir, hwanted⟩
    cases e with
    | file c => exact ⟨c, fileAt?_eq_some.2 (lookup_of_mem hm.unique hmem)⟩
    | directory => cases hfile
  · rintro ⟨⟨c, hc⟩, hdir, hwanted⟩
    exact ⟨(p, .file c), ⟨mem_of_lookup (fileAt?_eq_some.1 hc), ⟨rfl, hdir⟩, hwanted⟩, rfl⟩

/-- A store in which nothing is refused, and a directory as its table writes it. -/
structure Open (m : Memory) (dir : Bytes) : Prop where
  sound : Sound m
  refused : m.refused = []
  normal : normalize dir = dir
  directory : m.lookup dir = some .directory

theorem Open.listable {dir : Bytes} (h : m.Open dir) : m.Listable dir where
  directory := by rw [h.normal, h.directory]
  free _ _ _ := by rw [refusal?, h.refused]; rfl

end Memory

namespace Files

/-- What a search gives is in byte order. -/
theorem sorted_find {σ : Type} [FileStore σ] {s s' : σ} {dir pattern : Bytes} {found : List Bytes}
    (h : Ends (find dir pattern) s found s') : found.Pairwise fun s t => Bytes.le s t := by
  unfold find at h
  split at h
  · simp at h
  · simp only [Ends.get_bind_iff] at h
    obtain ⟨paths, t, -, hend⟩ := Ends.bind_iff.1 h
    obtain ⟨rfl, -⟩ := Ends.pure_iff.1 hend
    exact Bytes.pairwise_sort paths

variable {m : Memory} {dir pattern w : Bytes} {found : List Bytes}

/-- A search gives the files that the table lists, when they are in byte order. -/
theorem find_of_table (h : m.Open dir) {ps : List Glob.Part} (hps : Glob.parse? pattern = some ps)
    {wanted : Bytes → Bool}
    (hwanted : ∀ n, slash ∉ n → (Glob.matchesName ps n = true ↔ wanted n = true))
    (hfound : m.filesBelow dir wanted = found)
    (hsorted : found.Pairwise fun s t => Bytes.le s t) : Ends (find dir pattern) m found m := by
  have hm := h.sound
  have hkey : dir = key (fromRoot dir) := by rw [← normalize_eq, h.normal]
  have hne : dir ≠ [] := by
    rw [hkey]
    exact List.cons_ne_nil _ _
  have hns := isEntry_fromRoot dir
  obtain ⟨got, hfind⟩ := (find_ok_iff hm hne).2 ⟨Option.isSome_iff_exists.2 ⟨ps, hps⟩, h.listable⟩
  obtain ⟨-, ps', hps', hmem⟩ := find_ends hm hne hfind
  obtain rfl := Option.some.inj (hps.symm.trans hps')
  have hperm : got.Perm found := by
    rw [← hfound, List.perm_ext_iff_of_nodup (nodup_find hm hne hfind) (nodup_filesBelow hm dir wanted)]
    intro p
    rw [hmem, mem_filesBelow hm]
    have hjoin : ∀ {names}, (∀ n ∈ names, IsEntry n) →
        join dir (Bytes.joinWith [slash] names) = key (fromRoot dir ++ names) := fun hnames => by
      conv_lhs => rw [hkey]
      exact join_key hns hnames
    constructor
    · rintro ⟨names, ⟨hnames, hfile, above, n, rfl, hmatch⟩, rfl⟩
      have hall : ∀ k ∈ fromRoot dir ++ (above ++ [n]), IsEntry k := fun k hk =>
        (List.mem_append.1 hk).elim (hns k) (hnames k)
      rw [hjoin hnames, fromRoot_key hall, base_key_names hnames]
      exact ⟨hfile, List.prefix_append _ _, (hwanted n (hnames n (by simp)).no_slash).1 hmatch⟩
    · rintro ⟨⟨c, hc⟩, ⟨names, hnames⟩, hname⟩
      have hlookup := fileAt?_eq_some.1 hc
      have hkey' := hm.key_of_lookup hlookup
      have hall := isEntry_fromRoot p
      rw [← hnames] at hkey' hall
      have hnot : names ≠ [] := by
        rintro rfl
        rw [List.append_nil, ← hkey] at hkey'
        rw [hkey', h.directory] at hlookup
        cases hlookup
      obtain ⟨above, n, rfl⟩ := List.eq_nil_or_concat names |>.resolve_left hnot
      rw [List.concat_eq_append] at hkey' hall
      have hbelow : ∀ k ∈ above ++ [n], IsEntry k := fun k hk => hall k (List.mem_append_right _ hk)
      refine ⟨above ++ [n], ⟨hbelow, ⟨c, ?_⟩, above, n, rfl, ?_⟩, ?_⟩
      · rw [← hkey']
        exact hc
      · rw [hkey', base_key_names hbelow] at hname
        exact (hwanted n (hbelow n (by simp)).no_slash).2 hname
      · rw [hjoin hbelow, ← hkey']
  -- the search sorts what it found
  suffices hgot : got = found by rwa [hgot] at hfind
  unfold find at hfind
  rw [hps] at hfind
  simp only [Ends.get_bind_iff] at hfind
  obtain ⟨paths, t, -, hend⟩ := Ends.bind_iff.1 hfind
  obtain ⟨rfl, -⟩ := Ends.pure_iff.1 hend
  exact Bytes.sort_eq_of_perm ((List.mergeSort_perm _ _).symm.trans hperm) hsorted

theorem find_ending (h : m.Open dir) (hps : Glob.parse? pattern = some (.star :: w.map .byte))
    (hfound : m.filesBelow dir (w.isSuffixOf ·) = found)
    (hsorted : found.Pairwise fun s t => Bytes.le s t) : Ends (find dir pattern) m found m :=
  find_of_table h hps
    (fun n hn => by rw [Glob.matchesName_after_iff w hn, List.isSuffixOf_iff_suffix]) hfound hsorted

theorem find_around (h : m.Open dir)
    (hps : Glob.parse? pattern = some (.star :: (w.map .byte ++ [.star])))
    (hfound : m.filesBelow dir (·.includes w) = found)
    (hsorted : found.Pairwise fun s t => Bytes.le s t) : Ends (find dir pattern) m found m :=
  find_of_table h hps
    (fun n hn => by rw [Glob.matchesName_around_iff w hn, Bytes.includes_iff]) hfound hsorted

theorem find_name (h : m.Open dir) (hw : ∀ c ∈ w, c ∉ Glob.marks)
    (hfound : m.filesBelow dir (· == w) = found)
    (hsorted : found.Pairwise fun s t => Bytes.le s t) : Ends (find dir w) m found m :=
  find_of_table h (Glob.parse?_letters hw)
    (fun n _ => by rw [Glob.matchesName_letters_iff, beq_iff_eq]) hfound hsorted

theorem findFirst?_of_find {t : Memory} (h : Ends (find dir pattern) m found t) :
    Ends (findFirst? dir pattern) m found.head? t :=
  Ends.bind_iff.2 ⟨found, t, h, Ends.pure_iff.2 ⟨rfl, rfl⟩⟩

end Files

end Flowsmith
