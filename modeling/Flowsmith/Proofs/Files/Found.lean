import Flowsmith.Proofs.Files.Table

/-!
# What a search finds

A search through a store in memory finds exactly the files below a directory whose names match, each
of them once and in byte order, however the directory is written. It fails on a malformed pattern and
on a directory that cannot be listed, and on nothing else.

* `find_here` : the empty path is searched like the directory it means;
* `Complete` : the paths that a search is to give;
* `Unlisted` : a directory that cannot be listed;
* `find_exact` : what a search gives, and when it fails.
-/

namespace Flowsmith

open Flowsmith.Path Memory

namespace Files

variable {m m' : Memory} {ps : List Glob.Part} {dir pattern : Bytes} {found : List Bytes}

/-! ## The empty path -/

/-- The empty path and the path `.` go on alike. -/
theorem join_nil {p : Bytes} (hne : p ≠ []) (hrel : isAbsolute p = false) :
    join [] p = join here p := by
  have hparts : parts p = parts (here ++ slash :: p) := by
    have hhere : isAbsolute (here ++ slash :: p) = false := rfl
    rw [parts, parts, hrel, hhere, Bytes.splitOn_append, List.foldl_append]
    rfl
  have hclean : join [] p = clean p := by simp [join, hne]
  rw [hclean, join_eq (by decide)]
  exact clean_congr hrel hparts

theorem join_nil_names {names : List Bytes} (hne : names ≠ []) (h : ∀ n ∈ names, IsEntry n) :
    join [] (Bytes.joinWith [slash] names) = join here (Bytes.joinWith [slash] names) := by
  refine join_nil (fun hnil => ?_) (isAbsolute_joinWith fun n hn => ⟨(h n hn).ne_nil, (h n hn).no_slash⟩)
  exact hne (Bytes.joinWith_eq_nil hnil fun n hn => (h n hn).ne_nil)

theorem normalize_nil : normalize [] = normalize here := by decide

/-- The empty path is listed like the directory it means. -/
theorem list_here (hm : Sound m) : ran (list []) m = ran (list here) m := by
  have hentry : entryAt [] = entryAt here := by rw [entryAt, entryAt, normalize_nil]
  rw [list, list, ran_bind, ran_bind, hentry, normalize_nil]
  rcases hran : ran (entryAt here) m with ⟨r, t⟩
  cases r with
  | error f => rfl
  | ok e =>
    cases e with
    | directory => rfl
    | file c =>
      -- there is no file at the root
      obtain ⟨-, hlookup, -⟩ := entryAt_ends hran
      cases hm.top _ hlookup

theorem walkEntries_here {depth : Nat} {es : List DirEntry} (hes : ∀ e ∈ es, IsEntry e.name) :
    (walkEntries ps depth [] es : FileM Memory _) = walkEntries ps depth here es := by
  induction es with
  | nil => rw [walkEntries, walkEntries]
  | cons e es ih =>
    have he := hes e List.mem_cons_self
    have hjoin : join [] e.name = join here e.name :=
      join_nil_names (List.cons_ne_nil _ []) (by simpa using he)
    rw [walkEntries, walkEntries, hjoin, ih fun e' he' => hes e' (List.mem_cons_of_mem _ he')]

theorem walk_here (hm : Sound m) (depth : Nat) :
    ran (walk ps depth []) m = ran (walk ps depth here) m := by
  cases depth with
  | zero => rw [walk, walk]
  | succ depth =>
    have hlist : ran (FileStore.list []) m = ran (FileStore.list here) m := list_here hm
    rw [walk, walk, ran_bind, ran_bind, hlist]
    rcases hran : ran (FileStore.list here) m with ⟨r, t⟩
    cases r with
    | error f => rfl
    | ok es =>
      have hes := (list_ends hm hran).2
      simp only [walkEntries_here fun e he => ((hes e.name e.isDirectory).1 he).1]

/-- The empty path is searched like the directory it means. -/
theorem find_here (hm : Sound m) : ran (find [] pattern) m = ran (find here pattern) m := by
  unfold find
  split
  · rfl
  · rw [ran_get_bind, ran_get_bind, ran_bind, ran_bind, walk_here hm]

/-! ## The paths a search is to give -/

/-- The paths of the files below a directory whose own names match, without any twice and in byte
order. -/
structure Complete (m : Memory) (dir : Bytes) (ps : List Glob.Part) (found : List Bytes) : Prop where
  increasing : found.Pairwise fun s t => Bytes.lt s t = true
  mem : ∀ path, path ∈ found ↔
    ∃ names, Hit m ps dir names ∧ path = join dir (Bytes.joinWith [slash] names)

theorem Complete.of_here (h : Complete m here ps found) : Complete m [] ps found where
  increasing := h.increasing
  mem path := by
    rw [h.mem path]
    have hhit : ∀ names, Hit m ps [] names ↔ Hit m ps here names := fun names =>
      ⟨fun ⟨he, hf, hl⟩ => ⟨he, hf, hl⟩, fun ⟨he, hf, hl⟩ => ⟨he, hf, hl⟩⟩
    have hjoin : ∀ {names}, Hit m ps here names →
        join [] (Bytes.joinWith [slash] names) = join here (Bytes.joinWith [slash] names) := by
      rintro names ⟨he, -, above, n, rfl, -⟩
      exact join_nil_names (by simp) he
    constructor
    · rintro ⟨names, hnames, rfl⟩
      exact ⟨names, (hhit names).2 hnames, (hjoin hnames).symm⟩
    · rintro ⟨names, hnames, rfl⟩
      exact ⟨names, (hhit names).1 hnames, hjoin ((hhit names).1 hnames)⟩

theorem complete_of_find (hm : Sound m) (h : Ends (find dir pattern) m found m') :
    m' = m ∧ ∃ ps, Glob.parse? pattern = some ps ∧ Complete m dir ps found := by
  have hplace : ∀ {dir}, dir ≠ [] → Ends (find dir pattern) m found m' →
      m' = m ∧ ∃ ps, Glob.parse? pattern = some ps ∧ Complete m dir ps found := by
    intro dir hdir h
    obtain ⟨rfl, ps, hps, hmem⟩ := find_ends hm hdir h
    refine ⟨rfl, ps, hps, ?_, hmem⟩
    refine ((sorted_find h).and (nodup_find hm hdir h)).imp fun ⟨hle, hne⟩ => ?_
    exact (Bytes.le_iff.1 hle).resolve_right hne
  by_cases hdir : dir = []
  · subst hdir
    have hhere : Ends (find here pattern) m found m' := (find_here hm).symm.trans h
    obtain ⟨hsame, ps, hps, hcomplete⟩ := hplace (by decide) hhere
    exact ⟨hsame, ps, hps, hcomplete.of_here⟩
  · exact hplace hdir h

/-! ## When a search fails -/

def Unlisted (m : Memory) (dir : Bytes) : Prop := ∃ f t, ran (FileStore.list dir) m = (.error f, t)

theorem exists_error_iff {σ α : Type} {x : FileM σ α} {s : σ} :
    (∃ f t, ran x s = (.error f, t)) ↔ ¬ ∃ a t, Ends x s a t := by
  unfold Ends
  rcases ran x s with ⟨r, t⟩
  cases r <;> simp

theorem unlisted_iff (hm : Sound m) : Unlisted m dir ↔
    ¬ (m.refusal? (normalize dir) = none ∧ m.lookup (normalize dir) = some .directory) := by
  rw [Unlisted, exists_error_iff, ← list_ok_iff, not_iff_not]
  constructor
  · rintro ⟨es, t, h⟩
    obtain ⟨rfl, -⟩ := list_ends hm h
    exact ⟨es, h⟩
  · rintro ⟨es, h⟩
    exact ⟨es, m, h⟩

/-- A directory can be listed with all below it when neither it nor any directory below it is
unlisted. -/
theorem not_listable_iff (hm : Sound m) : ¬ m.Listable dir ↔
    Unlisted m dir ∨ ∃ names, names ≠ [] ∧ (∀ n ∈ names, IsEntry n) ∧
      m.lookup (key (fromRoot dir ++ names)) = some .directory ∧
      Unlisted m (join dir (Bytes.joinWith [slash] names)) := by
  have hbelow : ∀ {names}, names ≠ [] → (∀ n ∈ names, IsEntry n) →
      m.lookup (key (fromRoot dir ++ names)) = some .directory →
      (Unlisted m (join dir (Bytes.joinWith [slash] names)) ↔
        m.refusal? (key (fromRoot dir ++ names)) ≠ none) := by
    intro names hne hnames hthere
    have hkey : normalize (join dir (Bytes.joinWith [slash] names)) = key (fromRoot dir ++ names) := by
      by_cases hdir : dir = []
      · rw [hdir, join_nil_names hne hnames]
        exact normalize_names (by decide) hnames
      · exact normalize_names hdir hnames
    rw [unlisted_iff hm, hkey]
    simp [hthere]
  constructor
  · intro h
    by_contra hnone
    obtain ⟨hroot, hnone⟩ := not_or.1 hnone
    obtain ⟨hrefusal, hthere⟩ := not_not.1 (mt (unlisted_iff hm).2 hroot)
    refine h ⟨hthere, fun names hnames hlookup => ?_⟩
    by_cases hne : names = []
    · rw [hne, List.append_nil, ← normalize_eq]
      exact hrefusal
    · by_contra hfails
      exact hnone ⟨names, hne, hnames, hlookup, (hbelow hne hnames hlookup).2 hfails⟩
  · rintro (hroot | ⟨names, hne, hnames, hlookup, hfails⟩) hlist
    · have hrefusal := hlist.free [] nofun
      rw [List.append_nil, ← normalize_eq] at hrefusal
      exact (unlisted_iff hm).1 hroot ⟨hrefusal hlist.directory, hlist.directory⟩
    · exact (hbelow hne hnames hlookup).1 hfails (hlist.free names hnames hlookup)

/-- A search fails on its pattern or on a directory, and on nothing else. -/
theorem find_error_iff (hm : Sound m) : (∃ f t, ran (find dir pattern) m = (.error f, t)) ↔
    Glob.parse? pattern = none ∨ ¬ m.Listable dir := by
  have hplace : ∀ {dir}, dir ≠ [] → ((∃ f t, ran (find dir pattern) m = (.error f, t)) ↔
      Glob.parse? pattern = none ∨ ¬ m.Listable dir) := by
    intro dir hdir
    rw [exists_error_iff, ← Option.not_isSome_iff_eq_none, ← not_and_or, ← find_ok_iff hm hdir,
      not_iff_not]
    constructor
    · rintro ⟨found, t, h⟩
      obtain ⟨rfl, -⟩ := find_ends hm hdir h
      exact ⟨found, h⟩
    · rintro ⟨found, h⟩
      exact ⟨found, m, h⟩
  by_cases hdir : dir = []
  · have hlist : m.Listable [] ↔ m.Listable here :=
      ⟨fun ⟨hd, hf⟩ => ⟨hd, hf⟩, fun ⟨hd, hf⟩ => ⟨hd, hf⟩⟩
    rw [hdir, find_here hm, hlist]
    exact hplace (by decide)
  · exact hplace hdir

/-! ## What a search gives -/

/-- **A search is complete, sound and ordered.** In a store that operations made and in which nothing
is refused, a search of a directory with a well-formed pattern gives the files below it whose names
match, without any twice and in byte order, and the first of them is the least one. Whatever is
refused, a search fails just on a malformed pattern, and when the directory or one below it cannot be
listed. -/
theorem find_exact {m : Memory} (hm : m.Made) (dir pattern : Bytes) :
    (∀ ps, m.refused = [] → m.lookup (normalize dir) = some .directory →
      Glob.parse? pattern = some ps →
        ∃ found first, Complete m dir ps found ∧ Ends (find dir pattern) m found m ∧
          Ends (findFirst? dir pattern) m first m ∧
          (first = none → found = []) ∧
          ∀ path, first = some path → path ∈ found ∧ ∀ q ∈ found, Bytes.le path q = true) ∧
    ((∃ f t, ran (find dir pattern) m = (.error f, t)) ↔
      Glob.parse? pattern = none ∨ Unlisted m dir ∨
        ∃ names, names ≠ [] ∧ (∀ n ∈ names, IsEntry n) ∧
          m.lookup (key (fromRoot dir ++ names)) = some .directory ∧
          Unlisted m (join dir (Bytes.joinWith [slash] names))) := by
  have hsound := hm.sound
  refine ⟨fun ps hfree hthere hps => ?_, by rw [find_error_iff hsound, not_listable_iff hsound]⟩
  have hlist : m.Listable dir := ⟨hthere, fun _ _ _ => by rw [refusal?, hfree]; rfl⟩
  have hok : ¬ ∃ f t, ran (find dir pattern) m = (.error f, t) := by
    simp [find_error_iff hsound, hps, hlist]
  rw [exists_error_iff, not_not] at hok
  obtain ⟨found, t, hfind⟩ := hok
  obtain ⟨rfl, ps', hps', hcomplete⟩ := complete_of_find hsound hfind
  obtain rfl := Option.some.inj (hps.symm.trans hps')
  refine ⟨found, found.head?, hcomplete, hfind, findFirst?_of_find hfind, List.head?_eq_none_iff.1,
    fun path hpath => ⟨List.mem_of_head? hpath, fun q hq => ?_⟩⟩
  obtain ⟨rest, rfl⟩ := List.head?_eq_some_iff.1 hpath
  rcases List.mem_cons.1 hq with rfl | hq
  · exact Bytes.le_iff.2 (.inr rfl)
  · exact Bytes.le_iff.2 (.inl ((List.pairwise_cons.1 hcomplete.increasing).1 q hq))

/-- A directory whose name begins that of a file beside it: the directory is met first, and the file
comes first in byte order. -/
def beginning : Memory where
  table := [("/", .directory), ("/a.cs", .file []), ("/a", .directory), ("/a/b.cs", .file [])]
  writes := 2

theorem made_beginning : beginning.Made := by
  have hwritten : beginning
      = (ran (Memory.write "/a/b.cs" []) (ran (Memory.write "/a.cs" []) .empty).2).2 := by
    decide
  rw [hwritten]
  exact .write _ _ (.write _ _ .empty)

theorem find_exact_beginning :
    Ends (find "/" "*.cs") beginning ["/a.cs", "/a/b.cs"] beginning ∧
    Ends (findFirst? "/" "*.cs") beginning (some ("/a.cs" : Bytes)) beginning ∧
    ∃ f t, ran (find [] "*.cs") (beginning.refuse "a" "locked") = (.error f, t) := by
  have hps : Glob.parse? "*.cs" = some (.star :: (".cs" : Bytes).map .byte) := by decide +kernel
  obtain ⟨found, first, -, hfind, hfirst, -⟩ :=
    (find_exact made_beginning "/" "*.cs").1 _ rfl rfl hps
  have hopen : beginning.Open "/" := ⟨made_beginning.sound, rfl, rfl, rfl⟩
  have hgiven : Ends (find "/" "*.cs") beginning ["/a.cs", "/a/b.cs"] beginning :=
    find_ending hopen hps (by decide) (by decide)
  obtain ⟨rfl, -⟩ := hfind.det hgiven
  obtain ⟨rfl, -⟩ := hfirst.det (findFirst?_of_find hgiven)
  refine ⟨hfind, hfirst, (find_exact (made_beginning.refuse "a" "locked") [] "*.cs").2.2 ?_⟩
  have ha : ∀ n ∈ [("a" : Bytes)], IsEntry n := by
    rintro n (_ | ⟨_, ⟨⟩⟩)
    exact ⟨by decide, by decide, by decide, by decide⟩
  exact .inr (.inr ⟨["a"], by decide, ha, by decide, .plain "locked", _, rfl⟩)

end Files

end Flowsmith
