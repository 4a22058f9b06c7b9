import Flowsmith.Proofs.Files.Path
import Mathlib.Data.List.TakeWhile

/-!
# Paths below a directory

What a search below a directory finds has a path that goes down from the directory, and what is written
beside it has one that goes on from there. Both can be told as seen from the directory, and back.

* `Below` : a path that goes down some names from a directory;
* `Pushed` : a path that is reached from another by going on;
* `Pushed.exists_relative` : such a path can be seen from where it started;
* `parts_directory`, `parts_join` : the parts of a directory and of a path that goes on.
-/

namespace Flowsmith

namespace Bytes

theorem afterLast_of_not_mem {c : UInt8} {s : Bytes} (h : c ∉ s) : afterLast s c = 0 := by
  have htake : s.reverse.takeWhile (· != c) = s.reverse := by
    rw [List.takeWhile_eq_self_iff]
    intro b hb
    exact bne_iff_ne.2 fun hbc => h (hbc ▸ List.mem_reverse.1 hb)
  rw [afterLast, htake, List.length_reverse, Nat.sub_self]

/-- What is added to the end of a text is added to its last part. -/
theorem splitOn_append_of_not_mem {c : UInt8} (s : Bytes) {w : Bytes} (hw : c ∉ w) :
    ∃ init last, splitOn c s = init ++ [last] ∧ splitOn c (s ++ w) = init ++ [last ++ w] := by
  induction s with
  | nil => exact ⟨[], [], rfl, splitOn_of_not_mem hw⟩
  | cons b s ih =>
    obtain ⟨init, last, hs, hsw⟩ := ih
    rw [List.cons_append, splitOn, splitOn, hs, hsw]
    by_cases hb : b = c
    · exact ⟨[] :: init, last, by simp [hb], by simp [hb]⟩
    · cases init with
      | nil => exact ⟨[], b :: last, by simp [hb], by simp [hb]⟩
      | cons first init => exact ⟨(b :: first) :: init, last, by simp [hb], by simp [hb]⟩

end Bytes

namespace Path

/-! ## Going on from a path -/

theorem parts_join {a : Bytes} (h : a ≠ []) (b : Bytes) :
    parts (join a b) =
      ((Bytes.splitOn slash b).foldl (push (isAbsolute a)) (parts a).reverse).reverse := by
  rw [join_eq h, parts_clean, parts, isAbsolute_append h, Bytes.splitOn_append, List.foldl_append,
    parts, List.reverse_reverse]

theorem parts_joinWith {k : Nat} {names : List Bytes} (h : ∀ n ∈ names, IsEntry n) :
    parts (Bytes.joinWith [slash] (List.replicate k above ++ names)) =
      List.replicate k above ++ names := by
  have hparts : ∀ x ∈ List.replicate k above ++ names, x ≠ [] ∧ slash ∉ x := by
    intro x hx
    rcases List.mem_append.1 hx with hx | hx
    · rw [List.eq_of_mem_replicate hx]
      exact ⟨above_ne_nil, by decide⟩
    · exact ⟨(h x hx).ne_nil, (h x hx).no_slash⟩
  rw [parts, isAbsolute_joinWith hparts, splitOn_slash_joinWith fun x hx => (hparts x hx).2,
    List.foldl_append, foldl_push_aboves, foldl_push_entries h, List.reverse_append,
    List.reverse_reverse, List.reverse_replicate]

theorem parts_snoc_slash (p : Bytes) (h : p ≠ []) : parts (p ++ [slash]) = parts p := by
  rw [parts, isAbsolute_append h, Bytes.splitOn_append, List.foldl_append]
  rfl

/-- The parts of a path whose last one is a name: steps above and names, then the name. -/
theorem parts_snoc {p n : Bytes} {init : List Bytes} (h : parts p = init ++ [n]) (hn : IsEntry n) :
    ∃ k names, init = List.replicate k above ++ names ∧ (∀ m ∈ names, IsEntry m) ∧
      (isAbsolute p = true → k = 0) := by
  obtain ⟨k, hk, hparts⟩ := parts_eq p
  have hall := isEntry_fromRoot p
  rw [h] at hparts
  -- the last part is a name, so it is the last of the names
  rcases List.eq_nil_or_concat (fromRoot p) with hnil | ⟨names, last, hnames⟩
  · rw [hnil, List.append_nil] at hparts
    have : n ∈ List.replicate k above := hparts ▸ List.mem_append_right _ List.mem_cons_self
    exact absurd (List.eq_of_mem_replicate this) hn.ne_above
  · rw [hnames, List.concat_eq_append, ← List.append_assoc] at hparts
    obtain ⟨hinit, -⟩ := List.append_inj' hparts rfl
    refine ⟨k, names, hinit, fun m hm => hall m ?_, hk⟩
    rw [hnames, List.concat_eq_append]
    exact List.mem_append_left _ hm

/-- The directory of a clean path holds the path without its last name. -/
theorem parts_directory {p n : Bytes} {init : List Bytes} (hp : clean p = p)
    (h : parts p = init ++ [n]) (hn : IsEntry n) :
    parts (directory p) = init ∧ isAbsolute (directory p) = isAbsolute p ∧ directory p ≠ [] := by
  obtain ⟨k, names, rfl, hnames, hk⟩ := parts_snoc h hn
  have hne := directory_ne_nil p
  suffices hboth : parts (directory p) = List.replicate k above ++ names ∧
      isAbsolute (directory p) = isAbsolute p by exact ⟨hboth.1, hboth.2, hne⟩
  have hbody : ∀ front : Bytes, p = front ++ slash :: n → directory p = clean (front ++ [slash]) := by
    intro front hfront
    have htake : (front ++ slash :: n).take (front.length + 1) = front ++ [slash] := by
      rw [List.take_append, List.take_of_length_le (Nat.le_succ _)]
      simp
    rw [directory, hfront, Bytes.afterLast_append front hn.no_slash, htake]
  cases habs : isAbsolute p with
  | true =>
    obtain rfl := hk habs
    rw [clean_absolute habs, h] at hp
    simp only [List.replicate_zero, List.nil_append] at hp ⊢
    by_cases hnil : names = []
    · subst hnil
      have hdir := hbody [] (by rw [← hp]; rfl)
      rw [List.nil_append] at hdir
      rw [hdir, parts_clean, isAbsolute_clean]
      exact ⟨rfl, rfl⟩
    · rw [Bytes.joinWith_append hnil (by simp)] at hp
      have hdir := hbody (key names) hp.symm
      have hkey : parts (key names) = names := by
        obtain ⟨j, hj, hparts⟩ := parts_eq (key names)
        rw [hparts, hj rfl, fromRoot_key hnames]
        rfl
      rw [hdir, parts_clean, isAbsolute_clean, parts_snoc_slash (key names) (List.cons_ne_nil _ _), hkey]
      exact ⟨rfl, rfl⟩
  | false =>
    rw [clean_relative habs, h, if_neg (by simp)] at hp
    by_cases hnil : List.replicate k above ++ names = []
    · rw [hnil, List.nil_append] at hp
      have hpn : p = n := hp.symm
      have hdir : directory p = here := by
        rw [directory, hpn, Bytes.afterLast_of_not_mem hn.no_slash]
        rfl
      rw [hdir, hnil]
      exact ⟨rfl, rfl⟩
    · rw [Bytes.joinWith_append hnil (by simp)] at hp
      have hparts : ∀ x ∈ List.replicate k above ++ names, x ≠ [] ∧ slash ∉ x := by
        intro x hx
        rcases List.mem_append.1 hx with hx | hx
        · rw [List.eq_of_mem_replicate hx]
          exact ⟨above_ne_nil, by decide⟩
        · exact ⟨(hnames x hx).ne_nil, (hnames x hx).no_slash⟩
      have hfront : Bytes.joinWith [slash] (List.replicate k above ++ names) ≠ [] := fun hj =>
        hnil (Bytes.joinWith_eq_nil hj fun x hx => (hparts x hx).1)
      have hdir := hbody _ hp.symm
      rw [hdir, parts_clean, isAbsolute_clean, parts_snoc_slash _ hfront, parts_joinWith hnames,
        isAbsolute_append hfront, isAbsolute_joinWith hparts]
      exact ⟨rfl, rfl⟩

theorem base_entry {n : Bytes} (hn : IsEntry n) : base n = n := by
  have hkeep : n.reverse.dropWhile (· == slash) = n.reverse := by
    rw [List.dropWhile_eq_self_iff]
    intro hpos hslash
    refine hn.no_slash ?_
    rw [← List.mem_reverse, ← beq_iff_eq.1 hslash]
    exact List.getElem_mem hpos
  rw [base, hkeep, List.reverse_reverse]
  simp [hn.ne_nil, Bytes.afterLast_of_not_mem hn.no_slash]

theorem base_of_parts {p n : Bytes} {init : List Bytes} (hp : clean p = p)
    (h : parts p = init ++ [n]) (hn : IsEntry n) : base p = n := by
  cases habs : isAbsolute p with
  | true =>
    rw [clean_absolute habs, h] at hp
    rw [← hp]
    exact base_key init hn
  | false =>
    rw [clean_relative habs, h, if_neg (by simp)] at hp
    by_cases hnil : init = []
    · rw [← hp, hnil]
      exact base_entry hn
    · rw [← hp, Bytes.joinWith_append hnil (by simp)]
      exact base_snoc _ hn

section Join

variable {root n : Bytes} {init : List Bytes}

theorem base_join (hroot : root ≠ []) (h : ∀ m ∈ init ++ [n], IsEntry m) :
    base (join root (Bytes.joinWith [slash] (init ++ [n]))) = n := by
  have hparts := parts_join_names hroot h
  rw [← List.append_assoc] at hparts
  exact base_of_parts (join_clean _ hroot rfl) hparts (h n (by simp))

theorem fromRoot_directory_join (hroot : root ≠ []) (h : ∀ m ∈ init ++ [n], IsEntry m) :
    fromRoot (directory (join root (Bytes.joinWith [slash] (init ++ [n])))) =
      fromRoot root ++ init := by
  have hparts := parts_join_names hroot h
  rw [← List.append_assoc] at hparts
  obtain ⟨hdir, -, -⟩ := parts_directory (join_clean _ hroot rfl) hparts (h n (by simp))
  have hinit : ∀ m ∈ init, IsEntry m := fun m hm => h m (List.mem_append_left _ hm)
  have hpush := foldl_push_root (directory (join root (Bytes.joinWith [slash] (init ++ [n]))))
  rw [hdir, List.foldl_append, foldl_push_root, foldl_push_entries hinit,
    ← List.reverse_append] at hpush
  exact (List.reverse_inj.1 hpush).symm

/-- Going on from the directory of a path is going on without its last name. -/
theorem join_directory_join (hroot : root ≠ []) (h : ∀ m ∈ init ++ [n], IsEntry m)
    {names : List Bytes} (hnames : ∀ m ∈ names, IsEntry m) :
    join (directory (join root (Bytes.joinWith [slash] (init ++ [n])))) (Bytes.joinWith [slash] names) =
      join root (Bytes.joinWith [slash] (init ++ names)) := by
  have hparts := parts_join_names hroot h
  rw [← List.append_assoc] at hparts
  obtain ⟨hdir, habs, hne⟩ := parts_directory (join_clean _ hroot rfl) hparts (h n (by simp))
  have hall : ∀ m ∈ init ++ names, IsEntry m := fun m hm =>
    (List.mem_append.1 hm).elim (fun hm => h m (List.mem_append_left _ hm)) (hnames m)
  refine (join_clean _ hne rfl).symm.trans ((clean_congr ?_ ?_).trans (join_clean _ hroot rfl))
  · rw [isAbsolute_join hne, habs, isAbsolute_join hroot, isAbsolute_join hroot]
  · rw [parts_join_names hne hnames, hdir, parts_join_names hroot hall, List.append_assoc]

end Join

/-! ## Seen from where one started -/

/-- The path `t` is reached from `root` by going on along parts. -/
def Pushed (root t : Bytes) : Prop :=
  isAbsolute t = isAbsolute root ∧ ∃ xs : List Bytes, (∀ x ∈ xs, slash ∉ x) ∧
    parts t = (xs.foldl (push (isAbsolute root)) (parts root).reverse).reverse

theorem Pushed.join {root p : Bytes} (h : Pushed root p) (hne : p ≠ []) (b : Bytes) :
    Pushed root (join p b) := by
  obtain ⟨habs, xs, hx, hparts⟩ := h
  refine ⟨(isAbsolute_join hne b).trans habs, xs ++ Bytes.splitOn slash b, fun x hxb => ?_, ?_⟩
  · rcases List.mem_append.1 hxb with hxb | hxb
    · exact hx x hxb
    · exact Bytes.not_mem_of_mem_splitOn hxb
  · rw [parts_join hne, habs, hparts, List.reverse_reverse, List.foldl_append]

theorem dropCommon_both (cs as bs : List Bytes) :
    dropCommon (cs ++ as) (cs ++ bs) = dropCommon as bs := by
  induction cs with
  | nil => rfl
  | cons c cs ih => simp [dropCommon, ih]

/-- A path that is reached by going on and ends in a name can be seen from where it started, and what
is seen leads there. -/
theorem Pushed.exists_relative {root t : Bytes} (h : Pushed root t) (hroot : root ≠ [])
    (hlast : ∃ init n, parts t = init ++ [n] ∧ IsEntry n) :
    ∃ rel, relative? root t = some rel ∧ fromRoot (Path.join root rel) = fromRoot t := by
  suffices hsome : ∃ rel, relative? root t = some rel by
    obtain ⟨rel, hrel⟩ := hsome
    exact ⟨rel, hrel, fromRoot_join_relative hroot hlast hrel⟩
  obtain ⟨habs, xs, hx, hparts⟩ := h
  obtain ⟨k, hk, hstart⟩ := parts_eq root
  have hnames := isEntry_fromRoot root
  -- the steps above at the beginning are still there at the end
  have hcommon : ∃ rest, parts t = List.replicate k above ++ rest := by
    cases hrooted : isAbsolute root with
    | true =>
      obtain rfl := hk hrooted
      exact ⟨parts t, rfl⟩
    | false =>
      have hback : ∀ n ∈ (fromRoot root).reverse, IsEntry n := fun n hn =>
        hnames n (List.mem_reverse.1 hn)
      obtain ⟨names, k', -, hle, hfold, -⟩ := foldl_push_from hx k hback
      rw [hstart, hrooted, List.reverse_append, List.reverse_replicate, hfold, List.reverse_append,
        List.reverse_replicate] at hparts
      obtain ⟨j, rfl⟩ := Nat.exists_eq_add_of_le hle
      refine ⟨List.replicate j above ++ names.reverse, ?_⟩
      rw [hparts, ← List.append_assoc, List.replicate_append_replicate]
  obtain ⟨rest, hrest⟩ := hcommon
  have htne : ¬ (isAbsolute t = false ∧ parts t = []) := by
    obtain ⟨init, n, hinit, -⟩ := hlast
    rw [hinit]
    simp
  rw [relative?]
  by_cases heq : clean root = clean t
  · exact ⟨here, by simp [heq]⟩
  simp only [beq_eq_false_iff_ne.2 heq, isAbsolute_clean, habs, bne_self_eq_false, Bool.false_eq_true,
    if_false]
  rw [steps_root, steps_clean, if_neg htne, hstart, hrest, dropCommon_both]
  obtain ⟨common, hleft, -⟩ := dropCommon_eq (fromRoot root) rest
  generalize dropCommon (fromRoot root) rest = d at hleft
  obtain ⟨bs, ts⟩ := d
  cases bs with
  | nil => exact ⟨_, rfl⟩
  | cons b bs =>
    have hb : b ≠ above := (hnames b (by rw [hleft]; simp)).ne_above
    have hb' : (b == above) = false := by simp [hb]
    simp only [hb', Bool.false_and, Bool.false_eq_true, if_false]
    exact ⟨_, rfl⟩

/-- A name that ends in a word is the last on the way it leads. -/
theorem exists_fromRoot_join {dir : Bytes} (hdir : dir ≠ []) (name : Bytes) {w : Bytes}
    (hw : ∀ last : Bytes, slash ∉ last → IsEntry (last ++ w)) :
    ∃ init last, slash ∉ last ∧ fromRoot (join dir (name ++ w)) = init ++ [last ++ w] := by
  have hword : slash ∉ w := (hw [] List.not_mem_nil).no_slash
  obtain ⟨init, last, hname, hsplit⟩ := Bytes.splitOn_append_of_not_mem name hword
  have hslash : slash ∉ last := Bytes.not_mem_of_mem_splitOn (s := name) (by rw [hname]; simp)
  rw [fromRoot_join hdir, resolve, hsplit, List.foldl_append, List.foldl_cons, List.foldl_nil,
    push_entry (hw last hslash), List.reverse_cons]
  exact ⟨_, last, hslash, rfl⟩

/-! ## Below a directory -/

/-- The path goes down some names from the directory `root`. -/
def Below (root path : Bytes) : Prop :=
  ∃ names : List Bytes, names ≠ [] ∧ (∀ n ∈ names, IsEntry n) ∧
    path = join root (Bytes.joinWith [slash] names)

namespace Below

variable {root path : Bytes}

theorem parts_eq (h : Below root path) (hroot : root ≠ []) :
    ∃ init n, parts path = parts root ++ init ++ [n] ∧ (∀ m ∈ init, IsEntry m) ∧ IsEntry n := by
  obtain ⟨names, hne, hnames, rfl⟩ := h
  rcases List.eq_nil_or_concat names with hnil | ⟨init, n, rfl⟩
  · exact absurd hnil hne
  · rw [List.concat_eq_append] at hnames ⊢
    refine ⟨init, n, ?_, fun m hm => hnames m (List.mem_append_left _ hm), hnames n (by simp)⟩
    rw [parts_join_names hroot hnames, List.append_assoc]

theorem clean_eq (h : Below root path) (hroot : root ≠ []) : clean path = path := by
  obtain ⟨names, -, -, hpath⟩ := h
  exact join_clean path hroot hpath

theorem isAbsolute_eq (h : Below root path) (hroot : root ≠ []) :
    isAbsolute path = isAbsolute root := by
  obtain ⟨names, -, -, rfl⟩ := h
  exact isAbsolute_join hroot _

/-- A path below a directory is seen from there as the way down. -/
theorem exists_relative (h : Below root path) (hroot : root ≠ []) :
    ∃ rel, relative? root path = some rel ∧ join root rel = path := by
  obtain ⟨names, hne, hnames, rfl⟩ := h
  exact ⟨_, relative?_join hroot hnames hne, rfl⟩

theorem pushed_directory (h : Below root path) (hroot : root ≠ []) :
    Pushed root (directory path) ∧ directory path ≠ [] := by
  obtain ⟨init, n, hparts, hinit, hn⟩ := h.parts_eq hroot
  obtain ⟨hdir, habs, hne⟩ := parts_directory (h.clean_eq hroot) hparts hn
  refine ⟨⟨habs.trans (h.isAbsolute_eq hroot), init, fun x hx => (hinit x hx).no_slash, ?_⟩, hne⟩
  rw [hdir, foldl_push_entries hinit, List.reverse_append, List.reverse_reverse,
    List.reverse_reverse]

/-- A file that is written beside one below a directory, under a name that ends in a word, can be seen
from the directory. -/
theorem exists_relative_beside (h : Below root path) (hroot : root ≠ []) (name : Bytes) {w : Bytes}
    (hw : ∀ last : Bytes, slash ∉ last → IsEntry (last ++ w)) :
    ∃ rel, relative? root (join (directory path) (name ++ w)) = some rel ∧
      fromRoot (join root rel) = fromRoot (join (directory path) (name ++ w)) := by
  obtain ⟨hpushed, hne⟩ := h.pushed_directory hroot
  refine (hpushed.join hne _).exists_relative hroot ?_
  have hword : slash ∉ w := (hw [] List.not_mem_nil).no_slash
  obtain ⟨init, last, hname, hsplit⟩ := Bytes.splitOn_append_of_not_mem name hword
  have hslash : slash ∉ last :=
    Bytes.not_mem_of_mem_splitOn (s := name) (by rw [hname]; simp)
  have hpush := push_entry (hw last hslash) (isAbsolute (directory path))
    (init.foldl (push (isAbsolute (directory path))) (parts (directory path)).reverse)
  exact ⟨_, last ++ w, by rw [parts_join hne, hsplit, List.foldl_append, List.foldl_cons,
    List.foldl_nil, hpush, List.reverse_cons], hw last hslash⟩

end Below

end Path

end Flowsmith
