import Flowsmith.Proofs.Files.Table
import Flowsmith.Proofs.Migration.Units
import Mathlib

/-!
# The definition beside a code-behind file

A workflow is loaded with the one file below the directory of its code-behind file that has the name of
the definition. The name serves as a pattern in the search, so this asks that it means no other names.

* `Path.fromRoot_front`, `Path.base_front` : a path that is a directory and a name;
* `Files.Bears`, `Files.MeansItself` : files with a base name, and names that as patterns mean just them;
* `Files.find_singleton_iff` : when a search gives just one path;
* `Workflow.load_sibling` : a workflow has the definition beside it, and none when the name is not
  unique;
* `Workflow.load_bracketed` : a name may mean other names than itself.
-/

namespace Flowsmith

open Flowsmith.Path Memory

namespace Path

/-! ## A directory and a name -/

variable {front n : Bytes}

def IsFront (front : Bytes) : Prop := front = [] ∨ ∃ u, front = u ++ [slash]

theorem afterLast_front (h : IsFront front) (hn : slash ∉ n) :
    Bytes.afterLast (front ++ n) slash = front.length := by
  rcases h with rfl | ⟨u, rfl⟩
  · have hall : n.reverse.takeWhile (· != slash) = n.reverse :=
      List.takeWhile_eq_self_iff.2 fun c hc =>
        bne_iff_ne.2 fun hslash => hn (hslash ▸ List.mem_reverse.1 hc)
    rw [List.nil_append, Bytes.afterLast, hall, List.length_reverse, Nat.sub_self, List.length_nil]
  · rw [List.append_assoc, List.length_append]
    exact Bytes.afterLast_append u hn

theorem directory_front (h : IsFront front) (hn : slash ∉ n) : directory (front ++ n) = clean front := by
  rw [directory, afterLast_front h hn, List.take_left]

theorem base_front (h : IsFront front) (hn : IsEntry n) : base (front ++ n) = n := by
  rcases h with rfl | ⟨u, rfl⟩
  · have hlast : n.reverse.dropWhile (· == slash) = n.reverse := by
      refine List.dropWhile_eq_self_iff.2 fun hlen => ?_
      have hmem := List.mem_reverse.1 (List.getElem_mem hlen)
      simp only [beq_iff_eq]
      exact fun hslash => hn.no_slash (hslash ▸ hmem)
    have hafter := afterLast_front (.inl rfl) hn.no_slash
    rw [List.nil_append] at hafter
    rw [List.nil_append, base, if_neg (by simp [hn.ne_nil]), hlast, List.reverse_reverse,
      if_neg (by simp [hn.ne_nil]), hafter]
    rfl
  · rw [List.append_assoc]
    exact base_snoc u hn

theorem fromRoot_append (a b : Bytes) : fromRoot (a ++ slash :: b) = resolve (fromRoot a) b := by
  rw [fromRoot, resolve, Bytes.splitOn_append, List.foldl_append, fromRoot, resolve, resolve,
    List.reverse_reverse]

/-- A path leads to its last name in its directory. -/
theorem fromRoot_front (h : IsFront front) (hn : IsEntry n) :
    fromRoot (front ++ n) = fromRoot (directory (front ++ n)) ++ [n] := by
  have hone : ∀ k ∈ [n], IsEntry k := fun k hk => by rwa [List.mem_singleton.1 hk]
  rw [directory_front h hn.no_slash, fromRoot_clean]
  rcases h with rfl | ⟨u, rfl⟩
  · exact resolve_names hone
  · have hfront : fromRoot (u ++ [slash]) = fromRoot u := by
      rw [fromRoot_append, resolve, Bytes.splitOn]
      exact List.reverse_reverse _
    rw [List.append_assoc, hfront]
    exact (fromRoot_append u n).trans (resolve_names hone)

end Path

namespace Files

variable {m : Memory} {dir n : Bytes} {names : List Bytes}

/-- Names that lead down from a directory to a file, the last of them `n`. -/
structure Bears (m : Memory) (dir n : Bytes) (names : List Bytes) : Prop where
  entries : ∀ k ∈ names, IsEntry k
  file : ∃ c, m.fileAt? (key (fromRoot dir ++ names)) = some c
  last : ∃ above, names = above ++ [n]

/-- As a pattern a name means itself and none of the other names that files below a directory have. -/
def MeansItself (m : Memory) (dir n : Bytes) : Prop :=
  ∃ ps, Glob.parse? n = some ps ∧
    ∀ k names, Bears m dir k names → (Glob.matchesName ps k = true ↔ k = n)

/-- A file that bears the name is one that the table lists. -/
theorem Bears.mem_filesBelow (hm : Sound m) (h : Bears m dir n names) :
    key (fromRoot dir ++ names) ∈ m.filesBelow dir (· == n) := by
  obtain ⟨hentries, hfile, above, rfl⟩ := h
  have hall : ∀ k ∈ fromRoot dir ++ (above ++ [n]), IsEntry k := fun k hk =>
    (List.mem_append.1 hk).elim (isEntry_fromRoot dir k) (hentries k)
  refine (Memory.mem_filesBelow hm).2 ⟨hfile, ?_, ?_⟩
  · rw [fromRoot_key hall]
    exact List.prefix_append _ _
  · rw [base_key_names hentries]
    exact beq_self_eq_true n

theorem bears_count {k : Nat} : Bears { m with reads := k } dir n names ↔ Bears m dir n names :=
  ⟨fun ⟨hentries, hfile, hlast⟩ => ⟨hentries, hfile, hlast⟩,
    fun ⟨hentries, hfile, hlast⟩ => ⟨hentries, hfile, hlast⟩⟩

theorem MeansItself.count (h : MeansItself m dir n) (k : Nat) :
    MeansItself { m with reads := k } dir n := by
  obtain ⟨ps, hps, hmeans⟩ := h
  exact ⟨ps, hps, fun j names hbears => hmeans j names (bears_count.1 hbears)⟩

theorem meansItself_of_letters (h : ∀ c ∈ n, c ∉ Glob.marks) : MeansItself m dir n :=
  ⟨_, Glob.parse?_letters h, fun k _ _ => Glob.matchesName_letters_iff n k⟩

theorem MeansItself.hit_iff (h : MeansItself m dir n) {ps : List Glob.Part}
    (hps : Glob.parse? n = some ps) : Hit m ps dir names ↔ Bears m dir n names := by
  obtain ⟨ps', hps', hmeans⟩ := h
  obtain rfl := Option.some.inj (hps.symm.trans hps')
  constructor
  · rintro ⟨hentries, hfile, above, k, rfl, hmatch⟩
    obtain rfl := (hmeans k _ ⟨hentries, hfile, above, rfl⟩).1 hmatch
    exact ⟨hentries, hfile, above, rfl⟩
  · rintro ⟨hentries, hfile, above, rfl⟩
    exact ⟨hentries, hfile, above, n, rfl, (hmeans n _ ⟨hentries, hfile, above, rfl⟩).2 rfl⟩

theorem join_names_inj {a b : List Bytes} (hdir : dir ≠ []) (ha : ∀ k ∈ a, IsEntry k)
    (hb : ∀ k ∈ b, IsEntry k)
    (h : join dir (Bytes.joinWith [slash] a) = join dir (Bytes.joinWith [slash] b)) : a = b := by
  have hroot := congrArg fromRoot h
  rw [fromRoot_join hdir, fromRoot_join hdir, resolve_names ha, resolve_names hb] at hroot
  exact List.append_cancel_left hroot

/-- A search for a name that means itself gives one path only when just one file has the name. -/
theorem find_singleton_iff {found : List Bytes} (hm : Sound m) (hdir : dir ≠ [])
    (hself : MeansItself m dir n) (h : Ends (find dir n) m found m) (path : Bytes) :
    found = [path] ↔ ∃ names, Bears m dir n names ∧ (∀ other, Bears m dir n other → other = names) ∧
      path = join dir (Bytes.joinWith [slash] names) := by
  obtain ⟨-, ps, hps, hmem⟩ := find_ends hm hdir h
  simp only [hself.hit_iff hps] at hmem
  have hnodup := nodup_find hm hdir h
  constructor
  · rintro rfl
    obtain ⟨names, hbears, hpath⟩ := (hmem path).1 List.mem_cons_self
    refine ⟨names, hbears, fun other hother => ?_, hpath⟩
    have hsame := List.mem_singleton.1 ((hmem _).2 ⟨other, hother, rfl⟩)
    exact join_names_inj hdir hother.entries hbears.entries (hsame.trans hpath)
  · rintro ⟨names, hbears, hunique, rfl⟩
    refine List.perm_singleton.1 ((List.perm_ext_iff_of_nodup hnodup (List.nodup_singleton _)).2
      fun p => ?_)
    rw [hmem, List.mem_singleton]
    constructor
    · rintro ⟨other, hother, rfl⟩
      rw [hunique other hother]
    · rintro rfl
      exact ⟨names, hbears, rfl⟩

end Files

namespace Workflow

variable {s : Settings} {registry : Option Registry} {m : Memory} {front x code path : Bytes}

def codeName (x : Bytes) : Bytes := x ++ (".xoml.cs" : Bytes)

def definitionName (x : Bytes) : Bytes := x ++ (".xoml" : Bytes)

theorem codeName_eq (x : Bytes) : codeName x = definitionName x ++ (".cs" : Bytes) :=
  (List.append_assoc x (".xoml" : Bytes) (".cs" : Bytes)).symm

theorem isEntry_append {w : Bytes} (hx : slash ∉ x) (hw : slash ∉ w) (hlong : 2 < w.length) :
    IsEntry (x ++ w) := by
  have hlen : 2 < (x ++ w).length := by
    rw [List.length_append]
    omega
  refine ⟨fun h => ?_, fun h => ?_, fun h => ?_, fun h => (List.mem_append.1 h).elim hx hw⟩
  all_goals
    rw [h] at hlen
    exact absurd hlen (by decide)

theorem isEntry_codeName (h : slash ∉ x) : IsEntry (codeName x) :=
  isEntry_append h (by decide) (by decide)

theorem isEntry_definitionName (h : slash ∉ x) : IsEntry (definitionName x) :=
  isEntry_append h (by decide) (by decide)

theorem markupName_front (hfront : IsFront front) (hx : slash ∉ x) :
    markupName (front ++ codeName x) = definitionName x := by
  rw [markupName, base_front hfront (isEntry_codeName hx), codeName_eq, trimEnd, Bytes.dropEnd?,
    if_pos (List.isSuffixOf_iff_suffix.2 (List.suffix_append _ _))]
  simp

/-- When the code-behind file is read and the search ends well, loading goes on with the one path that was
found, and fails when there is none or more. -/
theorem load_of_find {found : List Bytes} {t t' : Memory} (hread : Ends (Memory.read path) m code t)
    (hfind : Ends (Files.find (directory path) (markupName path)) t found t')
    (hmany : ∀ markupPath, found ≠ [markupPath]) :
    ∃ f, ran (load s registry path) m = (.error f, t') ∧ f.code? = some .notFound := by
  have hread' : Ends (tryCatch (FileStore.read path) fun f =>
      throw (f.wrap .fileAccess (("failed to read code-behind " : Bytes) ++ path)
        [("file", .text path)])) m code t := Ends.tryCatch_iff.2 hread
  unfold load
  rw [ran_bind, hread']
  dsimp only
  rw [ran_bind, show ran (tryCatch (Files.find _ _) _) _ = _ from Ends.tryCatch_iff.2 hfind]
  dsimp only
  split
  · exact absurd rfl (hmany _)
  · exact ⟨_, rfl, rfl⟩

/-- **A workflow is loaded with the definition beside its code-behind file** when that is the only file
below the directory with its name, and is not found when there is no file of the name or more than
one. This is so in every store without refusals, for every name that means itself as a pattern. -/
theorem load_sibling (hmade : Made m) (hfree : m.refused = []) (hfront : IsFront front) (hx : slash ∉ x)
    (hpath : path = front ++ codeName x) (hcode : m.fileAt? (normalize path) = some code)
    (hself : Files.MeansItself m (directory path) (definitionName x)) :
    (∀ markup, m.fileAt? (normalize (join (directory path) (definitionName x))) = some markup →
      (∀ names, Files.Bears m (directory path) (definitionName x) names → names = [definitionName x]) →
      ∃ w t, Ends (load s registry path) m w t ∧
        w.markupPath = join (directory path) (definitionName x) ∧ w.markup = markup) ∧
    ((¬ ∃! names, Files.Bears m (directory path) (definitionName x) names) →
      ∃ f t, ran (load s registry path) m = (.error f, t) ∧ f.code? = some .notFound) := by
  have hm := hmade.sound
  have hdir := directory_ne_nil path
  have hentry := isEntry_codeName hx
  have hrefusal : ∀ p, m.refusal? p = none := fun p => by rw [refusal?, hfree]; rfl
  -- the directory of a file is a directory
  have hroot : fromRoot path = fromRoot (directory path) ++ [codeName x] := by
    rw [hpath]
    exact fromRoot_front hfront hentry
  have hdirectory : m.lookup (normalize (directory path)) = some .directory := by
    rw [normalize_eq, hroot] at hcode
    rw [normalize_eq]
    exact hm.parent_key (isEntry_fromRoot _) hentry (fileAt?_eq_some.1 hcode)
  have hname : markupName path = definitionName x := by
    rw [hpath]
    exact markupName_front hfront hx
  -- reading is only counted
  have hread : Ends (Memory.read path) m code { m with reads := m.reads + 1 } :=
    read_iff.2 ⟨rfl, hcode, hrefusal _⟩
  have hsound : Sound { m with reads := m.reads + 1 } := hm.congr rfl
  obtain ⟨ps, hps, -⟩ := id hself
  obtain ⟨found, hfind⟩ := (Files.find_ok_iff hsound hdir).2
    ⟨Option.isSome_iff_exists.2 ⟨ps, hps⟩, hdirectory, fun _ _ _ => hrefusal _⟩
  have hone := Files.find_singleton_iff hsound hdir (hself.count _) hfind
  simp only [Files.bears_count] at hone
  rw [← hname] at hfind
  refine ⟨fun markup hmarkup hunique => ?_, fun hmany => ?_⟩
  · have hthere : Files.Bears m (directory path) (definitionName x) [definitionName x] := by
      have hone : ∀ k ∈ [definitionName x], IsEntry k := fun k hk => by
        rw [List.mem_singleton.1 hk]
        exact isEntry_definitionName hx
      have hplace := Files.normalize_names hdir hone
      exact ⟨hone, ⟨markup, by rw [← hplace]; exact hmarkup⟩, [], rfl⟩
    have hfound := (hone _).2 ⟨_, hthere, hunique, rfl⟩
    rw [hfound] at hfind
    exact ⟨_, _, load_iff.2 ⟨code, _, _, _, markup, hread, hfind,
      read_iff.2 ⟨rfl, hmarkup, hrefusal _⟩, rfl⟩, rfl, rfl⟩
  · obtain ⟨f, hran, hf⟩ := load_of_find hread hfind fun markupPath hfound => by
      obtain ⟨names, hbears, hothers, -⟩ := (hone markupPath).1 hfound
      exact hmany ⟨names, hbears, hothers⟩
    exact ⟨f, _, hran, hf⟩

/-- A definition beside its code-behind file, and another one further down. -/
def besideOther : Memory where
  table := [("/", .directory), ("/w", .directory), ("/w/A.xoml", .file "M"),
    ("/w/A.xoml.cs", .file "class A\x7b\x7d"), ("/w/B", .directory), ("/w/B/C.xoml", .file "N")]
  writes := 3

/-- The definition beside the code-behind file is taken, and the one further down is another's. -/
theorem load_sibling_other : Memory.Made besideOther ∧ ∃ w t,
    Ends (load .default none "/w/A.xoml.cs") besideOther w t ∧
      w.markupPath = ("/w/A.xoml" : Bytes) ∧ w.markup = ("M" : Bytes) := by
  have hmade : Made besideOther :=
    .write "/w/B/C.xoml" "N" (.write "/w/A.xoml.cs" "class A\x7b\x7d" (.write "/w/A.xoml" "M" .empty))
  refine ⟨hmade, (load_sibling hmade rfl (show IsFront "/w/" from .inr ⟨"/w", rfl⟩)
    (show slash ∉ ("A" : Bytes) by decide) rfl rfl (Files.meansItself_of_letters (by decide))).1 "M" rfl
      fun names hbears => ?_⟩
  have hmem := hbears.mem_filesBelow hmade.sound
  have hlist : besideOther.filesBelow (directory ("/w/" ++ codeName "A")) (· == definitionName "A") =
      [("/w/A.xoml" : Bytes)] := by decide
  rw [hlist, List.mem_singleton] at hmem
  have hroot := congrArg fromRoot hmem
  rw [fromRoot_key fun k hk => (List.mem_append.1 hk).elim (isEntry_fromRoot _ k) (hbears.entries k)] at hroot
  exact List.append_cancel_left (hroot.trans
    (show fromRoot "/w/A.xoml" = fromRoot (directory ("/w/" ++ codeName "A")) ++ [definitionName "A"] by
      decide))

/-- A store in which a definition has a name with brackets. -/
def bracketed : Memory where
  table := [("/", .directory), ("/w", .directory), ("/w/[a].xoml", .file "M"),
    ("/w/[a].xoml.cs", .file "class A\x7b\x7d")]
  writes := 2

/-- A name may mean other names than itself: the definition is beside its code-behind file and has a name
of its own, and is not found. -/
theorem load_bracketed : Memory.Made bracketed ∧
    bracketed.fileAt? "/w/[a].xoml.cs" = some ("class A\x7b\x7d" : Bytes) ∧
    bracketed.fileAt? "/w/[a].xoml" = some ("M" : Bytes) ∧
    bracketed.filesBelow "/w" (· == "[a].xoml") = ["/w/[a].xoml"] ∧
    ∃ f t, ran (load .default none "/w/[a].xoml.cs") bracketed = (.error f, t) ∧
      f.code? = some .notFound := by
  have hmade : Made bracketed :=
    .write "/w/[a].xoml.cs" "class A\x7b\x7d" (.write "/w/[a].xoml" "M" .empty)
  have hread : Ends (Memory.read "/w/[a].xoml.cs") bracketed "class A\x7b\x7d"
      { bracketed with reads := 1 } := read_iff.2 ⟨rfl, rfl, rfl⟩
  have hfind : Ends (Files.find (directory "/w/[a].xoml.cs") (markupName "/w/[a].xoml.cs"))
      { bracketed with reads := 1 } [] { bracketed with reads := 1 } := by
    cbv
  obtain ⟨f, hran, hf⟩ := load_of_find hread hfind (by simp)
  exact ⟨hmade, rfl, rfl, by decide, f, _, hran, hf⟩

end Workflow

end Flowsmith
