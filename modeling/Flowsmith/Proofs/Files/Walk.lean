import Flowsmith.Proofs.Files.Search

/-!
# When searches succeed

A search through directories in memory fails on a pattern that is malformed and on a directory that
cannot be listed, and on nothing else. What it gives has no path twice.

* `Memory.Listable` : a directory that can be listed, with all below it;
* `Files.find_ok_iff` : when a search succeeds;
* `Files.nodup_find` : no path is found twice.
-/

namespace Flowsmith

open Flowsmith.Path Memory

namespace Memory

variable {m : Memory}

/-- No directory at or below the names is refused. -/
def Free (m : Memory) (ns : List Bytes) : Prop :=
  ∀ names, (∀ n ∈ names, IsEntry n) → m.lookup (key (ns ++ names)) = some .directory →
    m.refusal? (key (ns ++ names)) = none

/-- The directory can be listed, and so can all directories below it. -/
structure Listable (m : Memory) (dir : Bytes) : Prop where
  directory : m.lookup (normalize dir) = some .directory
  free : m.Free (fromRoot dir)

theorem Listable.down {dir dir' : Bytes} (h : m.Listable dir) {names : List Bytes}
    (hnames : ∀ n ∈ names, IsEntry n) (hroot : fromRoot dir' = fromRoot dir ++ names)
    (hdir : m.lookup (normalize dir') = some .directory) : m.Listable dir' where
  directory := hdir
  free more hmore hlookup := by
    rw [hroot, List.append_assoc] at hlookup ⊢
    refine h.free (names ++ more) (fun n hn => ?_) hlookup
    rcases List.mem_append.1 hn with hn | hn
    · exact hnames n hn
    · exact hmore n hn

theorem Listable.of_same {m₀ : Memory} {dir : Bytes} (h : Same m₀ m) (hlist : m.Listable dir) :
    m₀.Listable dir where
  directory := by
    rw [← h.lookup]
    exact hlist.directory
  free names hnames hlookup := by
    rw [← h.lookup] at hlookup
    have hrefusal := hlist.free names hnames hlookup
    rwa [refusal?, h.refused] at hrefusal

theorem list_ok_iff {p : Bytes} :
    (∃ es, Ends (list p) m es m) ↔
      m.refusal? (normalize p) = none ∧ m.lookup (normalize p) = some .directory := by
  constructor
  · rintro ⟨es, h⟩
    rw [list, Ends.bind_iff] at h
    obtain ⟨e, t, hentry, h⟩ := h
    obtain ⟨rfl, hlookup, hrefusal⟩ := entryAt_ends hentry
    cases e with
    | file c => simp at h
    | directory => exact ⟨hrefusal, hlookup⟩
  · rintro ⟨hrefusal, hlookup⟩
    have hentry : Ends (entryAt p) m .directory m := by
      simp [Ends, entryAt, hrefusal, hlookup]
    exact ⟨_, Ends.bind_iff.2 ⟨_, m, hentry, rfl⟩⟩

theorem nodup_list {m' : Memory} (hm : Sound m) {p : Bytes} {es : List DirEntry}
    (h : Ends (list p) m es m') : (es.map (·.name)).Nodup := by
  rw [list, Ends.bind_iff] at h
  obtain ⟨e, t, hentry, h⟩ := h
  obtain ⟨rfl, -, -⟩ := entryAt_ends hentry
  cases e with
  | file c => simp at h
  | directory =>
    simp only [Ends.get_bind_iff] at h
    obtain ⟨rfl, -⟩ := Ends.pure_iff.1 h
    refine (((List.mergeSort_perm _ _).map _).nodup_iff).2 ?_
    rw [List.map_map]
    -- in one directory the last name tells the paths apart
    have hchildren : ((t.children (normalize p)).map (·.1)).Nodup :=
      hm.unique.sublist (List.filter_sublist.map _)
    refine (List.nodup_map_iff_inj_on hchildren.of_map).2 fun a ha b hb hbase => ?_
    obtain ⟨hamem, ha⟩ := List.mem_filter.1 ha
    obtain ⟨hbmem, hb⟩ := List.mem_filter.1 hb
    simp only [bne_iff_ne, Bool.and_eq_true, beq_iff_eq] at ha hb
    have hla := lookup_of_mem hm.unique hamem
    have hlb := lookup_of_mem hm.unique hbmem
    obtain ⟨ns, n, hns, hn, hakey⟩ := hm.eq_key_snoc hla ha.1
    obtain ⟨ms, k, hms, hk, hbkey⟩ := hm.eq_key_snoc hlb hb.1
    simp only [Function.comp, hakey, hbkey, base_key _ hn, base_key _ hk] at hbase
    rw [hakey, directory_key hns hn, normalize_eq] at ha
    rw [hbkey, directory_key hms hk, normalize_eq] at hb
    obtain rfl := key_inj hns (isEntry_fromRoot p) ha.2
    obtain rfl := key_inj hms (isEntry_fromRoot p) hb.2
    obtain rfl := hbase
    have hfst : a.1 = b.1 := hakey.trans hbkey.symm
    rw [hfst, hlb] at hla
    exact Prod.ext hfst (Option.some.inj hla).symm

end Memory

namespace Files

variable {m m' : Memory} {ps : List Glob.Part}

/-- The walk through entries ends when the walks through the directories among them do. -/
theorem walkEntries_ok_iff {depth : Nat} {dir : Bytes} {es : List DirEntry}
    (hwalk : ∀ e ∈ es, ∀ found m', Ends (walk ps depth (join dir e.name)) m found m' → m' = m) :
    (∃ found, Ends (walkEntries ps depth dir es) m found m) ↔
      ∀ e ∈ es, e.isDirectory = true → ∃ found, Ends (walk ps depth (join dir e.name)) m found m := by
  induction es with
  | nil => simp [walkEntries]
  | cons e es ih =>
    have ih := ih fun e he => hwalk e (List.mem_cons_of_mem _ he)
    rw [List.forall_mem_cons, ← ih]
    constructor
    · rintro ⟨found, h⟩
      rw [walkEntries] at h
      split at h
      · obtain ⟨first, t, hfirst, h⟩ := Ends.bind_iff.1 h
        obtain rfl := hwalk e List.mem_cons_self first t hfirst
        obtain ⟨more, t', hmore, h⟩ := Ends.bind_iff.1 h
        obtain ⟨-, rfl⟩ := Ends.pure_iff.1 h
        exact ⟨fun _ => ⟨first, hfirst⟩, more, hmore⟩
      · rename_i hd
        rw [pure_bind] at h
        obtain ⟨more, t', hmore, h⟩ := Ends.bind_iff.1 h
        obtain ⟨-, rfl⟩ := Ends.pure_iff.1 h
        exact ⟨fun hd' => absurd hd' hd, more, hmore⟩
    · rintro ⟨hfirst, more, hmore⟩
      rw [walkEntries]
      split
      · rename_i hd
        obtain ⟨first, hfirst⟩ := hfirst hd
        exact ⟨first ++ more, Ends.bind_iff.2 ⟨first, m, hfirst,
          Ends.bind_iff.2 ⟨more, m, hmore, Ends.pure_iff.2 ⟨rfl, rfl⟩⟩⟩⟩
      · rw [pure_bind]
        exact ⟨_, Ends.bind_iff.2 ⟨more, m, hmore, Ends.pure_iff.2 ⟨rfl, rfl⟩⟩⟩

/-- A walk ends when its directory can be listed and the walks one level down end. -/
theorem walk_succ_ok_iff {depth : Nat} {dir : Bytes} (hm : Sound m) (hdir : dir ≠ []) :
    (∃ found, Ends (walk ps (depth + 1) dir) m found m) ↔
      (m.refusal? (normalize dir) = none ∧ m.lookup (normalize dir) = some .directory) ∧
        ∀ n, IsEntry n → m.lookup (key (fromRoot dir ++ [n])) = some .directory →
          ∃ found, Ends (walk ps depth (join dir n)) m found m := by
  have hstay : ∀ (es : List DirEntry), ∀ e ∈ es, ∀ found m',
      Ends (walk ps depth (join dir e.name)) m found m' → m' = m := fun es e _ found m' h =>
    (walk_ends hm (join_ne_nil hdir e.name) h).1
  rw [← list_ok_iff, walk]
  constructor
  · rintro ⟨found, h⟩
    obtain ⟨es, t, hlist, h⟩ := Ends.bind_iff.1 h
    obtain ⟨rfl, hes⟩ := list_ends hm hlist
    refine ⟨⟨es, hlist⟩, fun n hn hlookup => ?_⟩
    exact (walkEntries_ok_iff (hstay es)).1 ⟨found, h⟩ ⟨n, true⟩
      ((hes n true).2 ⟨hn, _, hlookup, rfl⟩) rfl
  · rintro ⟨⟨es, hlist⟩, hdown⟩
    obtain ⟨-, hes⟩ := list_ends hm hlist
    obtain ⟨found, h⟩ := (walkEntries_ok_iff (hstay es)).2 fun ⟨n, d⟩ he hd => by
      obtain ⟨hn, e, hlookup, hkind⟩ := (hes n d).1 he
      refine hdown n hn ?_
      cases e with
      | file c =>
        rw [show d = true from hd] at hkind
        cases hkind
      | directory => exact hlookup
    exact ⟨found, Ends.bind_iff.2 ⟨es, m, hlist, h⟩⟩

theorem walk_ok_iff {depth : Nat} {dir : Bytes} (hm : Sound m) (hdir : dir ≠ []) :
    (∃ found, Ends (walk ps (depth + 1) dir) m found m) ↔
      m.lookup (normalize dir) = some .directory ∧
        ∀ names, (∀ n ∈ names, IsEntry n) → names.length ≤ depth →
          m.lookup (key (fromRoot dir ++ names)) = some .directory →
          m.refusal? (key (fromRoot dir ++ names)) = none := by
  induction depth generalizing dir with
  | zero =>
    rw [walk_succ_ok_iff hm hdir]
    constructor
    · rintro ⟨⟨hrefusal, hlookup⟩, -⟩
      refine ⟨hlookup, fun names _ hlen _ => ?_⟩
      rw [List.eq_nil_of_length_eq_zero (Nat.le_zero.1 hlen), List.append_nil, ← normalize_eq]
      exact hrefusal
    · rintro ⟨hlookup, hfree⟩
      have hrefusal := hfree [] nofun (Nat.le_refl 0)
      rw [List.append_nil, ← normalize_eq] at hrefusal
      refine ⟨⟨hrefusal hlookup, hlookup⟩, fun n hn _ => ⟨[], ?_⟩⟩
      rw [walk]
      exact Ends.pure_iff.2 ⟨rfl, rfl⟩
  | succ depth ih =>
    have hentry : ∀ {n}, IsEntry n → fromRoot (join dir n) = fromRoot dir ++ [n] :=
      fromRoot_join_entry hdir
    rw [walk_succ_ok_iff hm hdir]
    constructor
    · rintro ⟨⟨hrefusal, hlookup⟩, hdown⟩
      refine ⟨hlookup, fun names hnames hlen hthere => ?_⟩
      cases names with
      | nil =>
        rw [List.append_nil, ← normalize_eq]
        exact hrefusal
      | cons n names =>
        have hn := hnames n List.mem_cons_self
        have hmore : ∀ k ∈ names, IsEntry k := fun k hk => hnames k (List.mem_cons_of_mem _ hk)
        rw [List.append_cons] at hthere ⊢
        -- what leads to a directory is a directory
        have hparent : m.lookup (key (fromRoot dir ++ [n])) = some .directory := by
          by_cases hne : names = []
          · rw [hne, List.append_nil] at hthere
            exact hthere
          · refine hm.above (fun k hk => ?_) hthere hne
            rw [← List.append_cons] at hk
            rcases List.mem_append.1 hk with hk | hk
            · exact isEntry_fromRoot dir k hk
            · exact hnames k hk
        have hfree := ((ih (join_ne_nil hdir n)).1 (hdown n hn hparent)).2 names hmore
          (Nat.le_of_succ_le_succ hlen)
        rw [hentry hn] at hfree
        exact hfree hthere
    · rintro ⟨hlookup, hfree⟩
      have hrefusal := hfree [] nofun (Nat.zero_le _)
      rw [List.append_nil, ← normalize_eq] at hrefusal
      refine ⟨⟨hrefusal hlookup, hlookup⟩, fun n hn hthere => (ih (join_ne_nil hdir n)).2 ?_⟩
      rw [normalize_eq, hentry hn]
      refine ⟨hthere, fun names hnames hlen hlower => ?_⟩
      rw [← List.append_cons] at hlower ⊢
      refine hfree (n :: names) (fun k hk => ?_) (Nat.succ_le_succ hlen) hlower
      rcases List.mem_cons.1 hk with rfl | hk
      · exact hn
      · exact hnames k hk

/-- **A search succeeds when its pattern is well-formed and the directory and all below it can be
listed.** -/
theorem find_ok_iff {dir pattern : Bytes} (hm : Sound m) (hdir : dir ≠ []) :
    (∃ found, Ends (find dir pattern) m found m) ↔
      (Glob.parse? pattern).isSome ∧ m.Listable dir := by
  have hdepth : ∀ {names : List Bytes}, (∀ n ∈ names, IsEntry n) →
      m.lookup (key (fromRoot dir ++ names)) = some .directory → names.length ≤ m.table.length := by
    intro names hnames hlookup
    have hlen := hm.length_lt (fun k hk => (List.mem_append.1 hk).elim
      (isEntry_fromRoot dir k) (hnames k)) hlookup
    rw [List.length_append] at hlen
    omega
  unfold find
  cases hps : Glob.parse? pattern with
  | none => simp
  | some ps =>
    simp only [Ends.get_bind_iff, Option.isSome_some, true_and]
    have hwalk : (∃ found, Ends (walk ps (FileStore.nesting m) dir) m found m) ↔ m.Listable dir := by
      rw [show FileStore.nesting m = m.table.length + 1 from rfl, walk_ok_iff hm hdir]
      constructor
      · rintro ⟨hlookup, hfree⟩
        exact ⟨hlookup, fun names hnames hthere => hfree names hnames (hdepth hnames hthere) hthere⟩
      · rintro ⟨hlookup, hfree⟩
        exact ⟨hlookup, fun names hnames _ hthere => hfree names hnames hthere⟩
    rw [← hwalk]
    constructor
    · rintro ⟨found, h⟩
      obtain ⟨paths, t, hpaths, h⟩ := Ends.bind_iff.1 h
      obtain ⟨-, rfl⟩ := Ends.pure_iff.1 h
      exact ⟨paths, hpaths⟩
    · rintro ⟨paths, hpaths⟩
      exact ⟨_, Ends.bind_iff.2 ⟨paths, m, hpaths, Ends.pure_iff.2 ⟨rfl, rfl⟩⟩⟩

/-- A search gives nothing where there is no file with such a name. -/
theorem find_nothing {dir pattern : Bytes} (hm : Sound m) (hdir : dir ≠ [])
    (hps : Glob.parse? pattern = some ps) (hlist : m.Listable dir)
    (hnone : ∀ names, ¬ Hit m ps dir names) : Ends (find dir pattern) m [] m := by
  obtain ⟨found, hfind⟩ := (find_ok_iff hm hdir).2 ⟨Option.isSome_iff_exists.2 ⟨ps, hps⟩, hlist⟩
  obtain ⟨-, ps', hps', hmem⟩ := find_ends hm hdir hfind
  obtain rfl := Option.some.inj (hps.symm.trans hps')
  have hnil : found = [] := List.eq_nil_iff_forall_not_mem.2 fun path hpath => by
    obtain ⟨names, hhit, -⟩ := (hmem path).1 hpath
    exact hnone names hhit
  rwa [hnil] at hfind

/-! ## No path twice -/

/-- Paths that lead down through entries of different names differ. -/
theorem Walked.entry_eq {depth depth' : Nat} {dir n n' path : Bytes} (hdir : dir ≠ [])
    (hn : IsEntry n) (hn' : IsEntry n') (h : Walked m ps depth (join dir n) path ∨ path = join dir n)
    (h' : Walked m ps depth' (join dir n') path ∨ path = join dir n') : n = n' := by
  have hroot : ∀ {depth n}, IsEntry n → Walked m ps depth (join dir n) path ∨ path = join dir n →
      ∃ names, fromRoot path = fromRoot dir ++ n :: names := by
    intro depth n hn h
    rcases h with ⟨names, hhit, -, rfl⟩ | rfl
    · refine ⟨names, ?_⟩
      rw [fromRoot_join (join_ne_nil hdir n), resolve_names hhit.entries, fromRoot_join_entry hdir hn,
        List.append_assoc]
      rfl
    · exact ⟨[], fromRoot_join_entry hdir hn⟩
  obtain ⟨names, hpath⟩ := hroot hn h
  obtain ⟨names', hpath'⟩ := hroot hn' h'
  rw [hpath] at hpath'
  exact (List.cons.inj (List.append_cancel_left hpath')).1

mutual

theorem nodup_walk {m m' : Memory} {ps : List Glob.Part} {depth : Nat} {dir : Bytes}
    {found : List Bytes} (hm : Sound m)
    (hdir : dir ≠ []) (h : Ends (walk ps depth dir) m found m') : found.Nodup := by
  cases depth with
  | zero =>
    rw [walk] at h
    obtain ⟨rfl, -⟩ := Ends.pure_iff.1 h
    exact .nil
  | succ depth =>
    rw [walk] at h
    obtain ⟨es, t, hlist, hentries⟩ := Ends.bind_iff.1 h
    obtain ⟨rfl, hes⟩ := list_ends hm hlist
    exact nodup_walkEntries hm hdir (fun e he => ((hes e.name e.isDirectory).1 he).1)
      (nodup_list hm hlist) hentries
termination_by (depth, 0)

theorem nodup_walkEntries {m m' : Memory} {ps : List Glob.Part} {depth : Nat} {dir : Bytes}
    {es : List DirEntry} {found : List Bytes} (hm : Sound m) (hdir : dir ≠ []) (hes : ∀ e ∈ es, IsEntry e.name)
    (hnames : (es.map (·.name)).Nodup) (h : Ends (walkEntries ps depth dir es) m found m') :
    found.Nodup := by
  cases es with
  | nil =>
    rw [walkEntries] at h
    obtain ⟨rfl, -⟩ := Ends.pure_iff.1 h
    exact .nil
  | cons e es =>
    have hn := hes e List.mem_cons_self
    have hrest : ∀ e' ∈ es, IsEntry e'.name := fun e' he' => hes e' (List.mem_cons_of_mem _ he')
    obtain ⟨hfresh, hnames⟩ := List.nodup_cons.1 hnames
    have hwalk : ∀ n found m', IsEntry n → Ends (walk ps depth (join dir n)) m found m' →
        m' = m ∧ ∀ path, path ∈ found ↔ Walked m ps depth (join dir n) path := fun n found m' _ h =>
      walk_ends hm (join_ne_nil hdir n) h
    -- what is found at or below the entry is not found at or below another one
    have hapart : ∀ {first more : List Bytes} {t : Memory},
        (∀ path ∈ first, Walked m ps depth (join dir e.name) path ∨ path = join dir e.name) →
        Ends (walkEntries ps depth dir es) m more t → first.Disjoint more := by
      intro first more t hfirst hmore path hpath hpath'
      obtain ⟨e', he', hfound⟩ := ((walkEntries_ends hwalk hrest hmore).2 path).1 hpath'
      have hwhere : Walked m ps depth (join dir e'.name) path ∨ path = join dir e'.name := by
        split at hfound
        · exact .inl hfound
        · exact .inr hfound.2
      refine hfresh (List.mem_map.2 ⟨e', he', ?_⟩)
      exact (Walked.entry_eq hdir hn (hrest e' he') (hfirst path hpath) hwhere).symm
    rw [walkEntries] at h
    split at h
    · obtain ⟨first, t, hfirst, hafter⟩ := Ends.bind_iff.1 h
      obtain ⟨rfl, hpaths⟩ := walk_ends hm (join_ne_nil hdir e.name) hfirst
      obtain ⟨more, t', hmore, hend⟩ := Ends.bind_iff.1 hafter
      obtain ⟨rfl, -⟩ := Ends.pure_iff.1 hend
      exact (nodup_walk hm (join_ne_nil hdir e.name) hfirst).append
        (nodup_walkEntries hm hdir hrest hnames hmore)
        (hapart (fun path hpath => .inl ((hpaths path).1 hpath)) hmore)
    · rw [pure_bind] at h
      obtain ⟨more, t', hmore, h⟩ := Ends.bind_iff.1 h
      obtain ⟨rfl, -⟩ := Ends.pure_iff.1 h
      refine List.Nodup.append ?_ (nodup_walkEntries hm hdir hrest hnames hmore)
        (hapart (fun path hpath => .inr ?_) hmore)
      · split
        · exact List.nodup_singleton _
        · exact .nil
      · split at hpath
        · exact List.mem_singleton.1 hpath
        · cases hpath
termination_by (depth, es.length + 1)

end

/-- **No path is found twice.** -/
theorem nodup_find {dir pattern : Bytes} {found : List Bytes} (hm : Sound m) (hdir : dir ≠ [])
    (h : Ends (find dir pattern) m found m') : found.Nodup := by
  unfold find at h
  split at h
  · simp at h
  · simp only [Ends.get_bind_iff] at h
    obtain ⟨paths, t, hwalk, h⟩ := Ends.bind_iff.1 h
    obtain ⟨rfl, -⟩ := Ends.pure_iff.1 h
    exact ((List.mergeSort_perm _ _).nodup_iff).2 (nodup_walk hm hdir hwalk)

end Files

end Flowsmith
