import Flowsmith.Files.Memory

/-!
# Paths and the names along them

Every path leads from the root down along a list of names (`fromRoot`): what cancels out is gone, and
a step above the root stays there. The operations on paths are read off these lists.

* `IsEntry` : a name that can stand in a directory;
* `resolve` : where a path leads from a place below the root;
* `parts_eq`, `fromRoot_clean`, `fromRoot_join` : cleaning keeps where a path leads, and joining goes
  on from there;
* `key` : the path of a list of names, with its directory and its last part;
* `relative?_join`, `fromRoot_join_relative` : a path below another as seen from it, and back.
-/

namespace Flowsmith

namespace Bytes

theorem joinWith_cons_cons (sep s t : Bytes) (ss : List Bytes) :
    joinWith sep (s :: t :: ss) = s ++ sep ++ joinWith sep (t :: ss) := rfl

theorem splitOn_of_not_mem {c : UInt8} {s : Bytes} (h : c ∉ s) : splitOn c s = [s] := by
  induction s with
  | nil => rfl
  | cons b s ih =>
    rw [List.mem_cons, not_or] at h
    rw [splitOn, if_neg (Ne.symm h.1), ih h.2]

theorem splitOn_append (c : UInt8) (s t : Bytes) :
    splitOn c (s ++ c :: t) = splitOn c s ++ splitOn c t := by
  induction s with
  | nil => simp [splitOn]
  | cons b s ih =>
    by_cases hb : b = c
    · simp [splitOn, hb, ih]
    · rw [List.cons_append, splitOn, if_neg hb, ih, splitOn, if_neg hb]
      cases hs : splitOn c s with
      | nil => exact absurd hs (splitOn_ne_nil c s)
      | cons part parts => rfl

theorem not_mem_of_mem_splitOn {c : UInt8} {s part : Bytes} (h : part ∈ splitOn c s) : c ∉ part := by
  induction s generalizing part with
  | nil =>
    rw [splitOn, List.mem_singleton] at h
    simp [h]
  | cons b s ih =>
    rw [splitOn] at h
    split at h
    · rcases List.mem_cons.1 h with rfl | h
      · exact List.not_mem_nil
      · exact ih h
    · rename_i hb
      cases hs : splitOn c s with
      | nil => exact absurd hs (splitOn_ne_nil c s)
      | cons first rest =>
        rw [hs] at h ih
        rcases List.mem_cons.1 h with rfl | h
        · simp [Ne.symm hb, ih List.mem_cons_self]
        · exact ih (List.mem_cons_of_mem _ h)

theorem splitOn_joinWith {c : UInt8} {ss : List Bytes} (hne : ss ≠ []) (h : ∀ s ∈ ss, c ∉ s) :
    splitOn c (joinWith [c] ss) = ss := by
  induction ss with
  | nil => exact absurd rfl hne
  | cons s ss ih =>
    have hs := splitOn_of_not_mem (h s List.mem_cons_self)
    cases ss with
    | nil => exact hs
    | cons t ss =>
      have ht := ih (List.cons_ne_nil _ _) fun u hu => h u (List.mem_cons_of_mem _ hu)
      rw [joinWith_cons_cons, List.append_assoc, List.singleton_append, splitOn_append, hs, ht]
      rfl

theorem joinWith_append {c : UInt8} {ss ts : List Bytes} (hs : ss ≠ []) (ht : ts ≠ []) :
    joinWith [c] (ss ++ ts) = joinWith [c] ss ++ c :: joinWith [c] ts := by
  induction ss with
  | nil => exact absurd rfl hs
  | cons s ss ih =>
    cases ss with
    | nil =>
      cases ts with
      | nil => exact absurd rfl ht
      | cons t ts => simp [joinWith]
    | cons u ss =>
      have hu := ih (List.cons_ne_nil _ _)
      simp only [List.cons_append] at hu ⊢
      rw [joinWith_cons_cons, joinWith_cons_cons, hu]
      simp

theorem joinWith_eq_nil {sep : Bytes} {ss : List Bytes} (h : joinWith sep ss = [])
    (hne : ∀ s ∈ ss, s ≠ []) : ss = [] := by
  match ss with
  | [] => rfl
  | [s] => exact absurd h (hne s List.mem_cons_self)
  | s :: t :: ss =>
    rw [joinWith_cons_cons] at h
    simp only [List.append_eq_nil_iff] at h
    exact absurd h.1.1 (hne s List.mem_cons_self)

theorem afterLast_append {c : UInt8} {t : Bytes} (s : Bytes) (h : c ∉ t) :
    afterLast (s ++ c :: t) c = s.length + 1 := by
  have htake : ((s ++ c :: t).reverse.takeWhile (· != c)) = t.reverse := by
    rw [List.reverse_append, List.reverse_cons, List.append_assoc, List.takeWhile_append_of_pos]
    · simp
    · intro b hb
      rw [List.mem_reverse] at hb
      exact bne_iff_ne.2 fun hbc => h (hbc ▸ hb)
  rw [afterLast, htake]
  simp
  omega

end Bytes

namespace Path

/-! ## Names -/

/-- A name of an entry of a directory: one part of a path that means no other place. -/
structure IsEntry (n : Bytes) : Prop where
  ne_nil : n ≠ []
  ne_here : n ≠ here
  ne_above : n ≠ above
  no_slash : slash ∉ n

theorem push_entry {n : Bytes} (h : IsEntry n) (rooted : Bool) (before : List Bytes) :
    push rooted before n = n :: before := by
  have h₁ : (n.isEmpty || n == here) = false := by simp [h.ne_nil, h.ne_here]
  have h₂ : (n == above) = false := by simp [h.ne_above]
  simp [push, h₁, h₂]

theorem push_skip {part : Bytes} (h : part = [] ∨ part = here) (rooted : Bool)
    (before : List Bytes) : push rooted before part = before := by
  rcases h with rfl | rfl <;> rfl

theorem isEntry_or {part : Bytes} (h : slash ∉ part) :
    (part = [] ∨ part = here) ∨ part = above ∨ IsEntry part := by
  by_cases h₁ : part = []
  · exact .inl (.inl h₁)
  by_cases h₂ : part = here
  · exact .inl (.inr h₂)
  by_cases h₃ : part = above
  · exact .inr (.inl h₃)
  · exact .inr (.inr ⟨h₁, h₂, h₃, h⟩)

theorem above_ne_nil : above ≠ [] := by decide

theorem push_above_rooted {before : List Bytes} (h : ∀ n ∈ before, IsEntry n) :
    push true before above = before.drop 1 := by
  cases before with
  | nil => rfl
  | cons n before =>
    have hn : (n == above) = false := by simp [(h n List.mem_cons_self).ne_above]
    have habove : (above.isEmpty || above == here) = false := by decide
    simp [push, hn, habove]

theorem push_above_aboves (k : Nat) :
    push false (List.replicate k above) above = List.replicate (k + 1) above := by
  cases k with
  | zero => rfl
  | succ k =>
    have habove : (above.isEmpty || above == here) = false := by decide
    simp [push, habove, List.replicate_succ]

theorem push_above_entry {n : Bytes} (h : IsEntry n) (before : List Bytes) (rooted : Bool) :
    push rooted (n :: before) above = before := by
  have hn : (n == above) = false := by simp [h.ne_above]
  have habove : (above.isEmpty || above == here) = false := by decide
  simp [push, hn, habove]

/-- One part, after names that were taken from `k` steps above. No step above is taken back. -/
theorem push_step {x : Bytes} {names : List Bytes} (k : Nat) (hx : slash ∉ x)
    (hnames : ∀ n ∈ names, IsEntry n) :
    ∃ names' k', (∀ n ∈ names', IsEntry n) ∧ k ≤ k' ∧
      push false (names ++ List.replicate k above) x = names' ++ List.replicate k' above ∧
      ∀ before : List Bytes, (∀ n ∈ before, IsEntry n) →
        push true (names ++ before.drop k) x = names' ++ before.drop k' := by
  rcases isEntry_or hx with hskip | rfl | hentry
  · exact ⟨names, k, hnames, Nat.le_refl k, push_skip hskip _ _, fun _ _ => push_skip hskip _ _⟩
  · cases names with
    | nil =>
      refine ⟨[], k + 1, hnames, Nat.le_succ k, push_above_aboves k, fun before hbefore => ?_⟩
      have hdrop : ∀ n ∈ before.drop k, IsEntry n := fun n hn => hbefore n (List.mem_of_mem_drop hn)
      rw [List.nil_append, push_above_rooted hdrop, List.drop_drop]
      rfl
    | cons n names =>
      have hn := hnames n List.mem_cons_self
      exact ⟨names, k, fun m hm => hnames m (List.mem_cons_of_mem _ hm), Nat.le_refl k,
        push_above_entry hn _ _, fun before _ => push_above_entry hn _ _⟩
  · refine ⟨x :: names, k, ?_, Nat.le_refl k, push_entry hentry _ _, fun _ _ => push_entry hentry _ _⟩
    intro n hn
    rcases List.mem_cons.1 hn with rfl | hn
    · exact hentry
    · exact hnames n hn

/-- Parts after names that were taken from `k₀` steps above. -/
theorem foldl_push_from {xs : List Bytes} (hx : ∀ x ∈ xs, slash ∉ x) {names₀ : List Bytes} (k₀ : Nat)
    (h₀ : ∀ n ∈ names₀, IsEntry n) :
    ∃ names k, (∀ n ∈ names, IsEntry n) ∧ k₀ ≤ k ∧
      xs.foldl (push false) (names₀ ++ List.replicate k₀ above) = names ++ List.replicate k above ∧
      ∀ before : List Bytes, (∀ n ∈ before, IsEntry n) →
        xs.foldl (push true) (names₀ ++ before.drop k₀) = names ++ before.drop k := by
  induction xs generalizing names₀ k₀ with
  | nil => exact ⟨names₀, k₀, h₀, Nat.le_refl k₀, rfl, fun _ _ => rfl⟩
  | cons x xs ih =>
    obtain ⟨names₁, k₁, h₁, hle, hfree, hrooted⟩ := push_step k₀ (hx x List.mem_cons_self) h₀
    obtain ⟨names, k, hnames, hle', hfrees, hrooteds⟩ :=
      ih (fun y hy => hx y (List.mem_cons_of_mem _ hy)) k₁ h₁
    refine ⟨names, k, hnames, Nat.le_trans hle hle', ?_, fun before hbefore => ?_⟩
    · rw [List.foldl_cons, hfree, hfrees]
    · rw [List.foldl_cons, hrooted before hbefore, hrooteds before hbefore]

/-- What parts amount to, in reverse: names, and before them steps above the place they start from.
From a place below the root the same steps and names are taken. -/
theorem foldl_push {xs : List Bytes} (hx : ∀ x ∈ xs, slash ∉ x) :
    ∃ names k, (∀ n ∈ names, IsEntry n) ∧
      xs.foldl (push false) [] = names ++ List.replicate k above ∧
      ∀ before : List Bytes, (∀ n ∈ before, IsEntry n) →
        xs.foldl (push true) before = names ++ before.drop k := by
  obtain ⟨names, k, hnames, -, hfree, hrooted⟩ := foldl_push_from hx 0
    (show ∀ n ∈ ([] : List Bytes), IsEntry n from nofun)
  exact ⟨names, k, hnames, hfree, hrooted⟩

/-! ## Where a path leads -/

/-- The names to where a path leads from the place below the root that `ns` lead to. -/
def resolve (ns : List Bytes) (p : Bytes) : List Bytes :=
  ((Bytes.splitOn slash p).foldl (push true) ns.reverse).reverse

def fromRoot (p : Bytes) : List Bytes := resolve [] p

theorem foldl_push_entries {names : List Bytes} (h : ∀ n ∈ names, IsEntry n) (rooted : Bool)
    (before : List Bytes) : names.foldl (push rooted) before = names.reverse ++ before := by
  induction names generalizing before with
  | nil => rfl
  | cons n names ih =>
    rw [List.foldl_cons, push_entry (h n List.mem_cons_self),
      ih (fun m hm => h m (List.mem_cons_of_mem _ hm)), List.reverse_cons, List.append_assoc]
    rfl

theorem foldl_push_aboves (k : Nat) :
    (List.replicate k above).foldl (push false) [] = List.replicate k above := by
  have h : ∀ j, (List.replicate k above).foldl (push false) (List.replicate j above) =
      List.replicate (j + k) above := by
    induction k with
    | zero => exact fun j => rfl
    | succ k ih =>
      intro j
      rw [List.replicate_succ, List.foldl_cons, push_above_aboves, ih]
      congr 1
      omega
  simpa using h 0

theorem foldl_push_aboves_rooted (k : Nat) {before : List Bytes} (h : ∀ n ∈ before, IsEntry n) :
    (List.replicate k above).foldl (push true) before = before.drop k := by
  induction k generalizing before with
  | zero => rfl
  | succ k ih =>
    rw [List.replicate_succ, List.foldl_cons, push_above_rooted h,
      ih fun n hn => h n (List.mem_of_mem_drop hn), List.drop_drop, Nat.add_comm]

theorem isEntry_resolve {ns : List Bytes} (hns : ∀ n ∈ ns, IsEntry n) (p : Bytes) :
    ∀ n ∈ resolve ns p, IsEntry n := by
  obtain ⟨names, k, hnames, -, hrooted⟩ :=
    foldl_push fun x (hx : x ∈ Bytes.splitOn slash p) => Bytes.not_mem_of_mem_splitOn hx
  intro n hn
  rw [resolve, hrooted _ (fun m hm => hns m (List.mem_reverse.1 hm)), List.mem_reverse,
    List.mem_append] at hn
  rcases hn with hn | hn
  · exact hnames n hn
  · exact hns n (List.mem_reverse.1 (List.mem_of_mem_drop hn))

theorem isEntry_fromRoot (p : Bytes) : ∀ n ∈ fromRoot p, IsEntry n :=
  isEntry_resolve (by simp) p

/-- The parts of a path: steps above, for a path that does not begin at the root, and the names to
where it leads. -/
theorem parts_eq (p : Bytes) :
    ∃ k, (isAbsolute p = true → k = 0) ∧ parts p = List.replicate k above ++ fromRoot p := by
  obtain ⟨names, k, hnames, hfree, hrooted⟩ :=
    foldl_push fun x (hx : x ∈ Bytes.splitOn slash p) => Bytes.not_mem_of_mem_splitOn hx
  have hroot : fromRoot p = names.reverse := by
    rw [fromRoot, resolve, List.reverse_nil, hrooted [] (by simp), List.drop_nil, List.append_nil]
  cases h : isAbsolute p with
  | true =>
    refine ⟨0, fun _ => rfl, ?_⟩
    rw [parts, h, fromRoot, resolve]
    rfl
  | false =>
    refine ⟨k, by simp, ?_⟩
    rw [parts, h, hfree, hroot, List.reverse_append, List.reverse_replicate]

theorem no_slash_of_mem_parts {p n : Bytes} (h : n ∈ parts p) : slash ∉ n := by
  obtain ⟨k, -, hparts⟩ := parts_eq p
  rw [hparts, List.mem_append] at h
  rcases h with h | h
  · rw [List.eq_of_mem_replicate h]
    decide
  · exact (isEntry_fromRoot p n h).no_slash

theorem ne_nil_of_mem_parts {p n : Bytes} (h : n ∈ parts p) : n ≠ [] := by
  obtain ⟨k, -, hparts⟩ := parts_eq p
  rw [hparts, List.mem_append] at h
  rcases h with h | h
  · rw [List.eq_of_mem_replicate h]
    exact above_ne_nil
  · exact (isEntry_fromRoot p n h).ne_nil

/-- The parts of a path lead where the path leads, from every place. -/
theorem foldl_push_parts {p : Bytes} (hp : isAbsolute p = false) {ns : List Bytes}
    (hns : ∀ n ∈ ns, IsEntry n) : ((parts p).foldl (push true) ns.reverse).reverse = resolve ns p := by
  obtain ⟨names, k, hnames, hfree, hrooted⟩ :=
    foldl_push fun x (hx : x ∈ Bytes.splitOn slash p) => Bytes.not_mem_of_mem_splitOn hx
  have hrev : ∀ n ∈ ns.reverse, IsEntry n := fun n hn => hns n (List.mem_reverse.1 hn)
  have hparts : parts p = List.replicate k above ++ names.reverse := by
    rw [parts, hp, hfree, List.reverse_append, List.reverse_replicate]
  rw [hparts, List.foldl_append, foldl_push_aboves_rooted k hrev,
    foldl_push_entries (fun n hn => hnames n (List.mem_reverse.1 hn)), List.reverse_reverse, resolve,
    hrooted _ hrev]

theorem isAbsolute_cons_slash (p : Bytes) : isAbsolute (slash :: p) = true := rfl

theorem isAbsolute_append {a : Bytes} (h : a ≠ []) (b : Bytes) :
    isAbsolute (a ++ b) = isAbsolute a := by
  cases a with
  | nil => exact absurd rfl h
  | cons c a => rfl

theorem isAbsolute_joinWith {ns : List Bytes} (h : ∀ n ∈ ns, n ≠ [] ∧ slash ∉ n) :
    isAbsolute (Bytes.joinWith [slash] ns) = false := by
  cases ns with
  | nil => rfl
  | cons n ns =>
    obtain ⟨hne, hslash⟩ := h n List.mem_cons_self
    cases n with
    | nil => exact absurd rfl hne
    | cons c n =>
      have hc : c ≠ slash := fun h => hslash (h ▸ List.mem_cons_self)
      cases ns <;> simp [Bytes.joinWith, isAbsolute, hc]

theorem isAbsolute_joinWith_parts (p : Bytes) :
    isAbsolute (Bytes.joinWith [slash] (parts p)) = false :=
  isAbsolute_joinWith fun _ hn => ⟨ne_nil_of_mem_parts hn, no_slash_of_mem_parts hn⟩

theorem clean_absolute {p : Bytes} (h : isAbsolute p = true) :
    clean p = slash :: Bytes.joinWith [slash] (parts p) := by
  rw [clean, if_pos h]

theorem clean_relative {p : Bytes} (h : isAbsolute p = false) :
    clean p = if parts p = [] then here else Bytes.joinWith [slash] (parts p) := by
  rw [clean, if_neg (by simp [h])]
  by_cases hp : parts p = []
  · simp [hp, Bytes.joinWith]
  · have hne : Bytes.joinWith [slash] (parts p) ≠ [] :=
      fun hj => hp (Bytes.joinWith_eq_nil hj fun n hn => ne_nil_of_mem_parts hn)
    simp [hp, hne]

/-- Paths of one kind with the same parts have one shortest form. -/
theorem clean_congr {p q : Bytes} (h : isAbsolute p = isAbsolute q) (hparts : parts p = parts q) :
    clean p = clean q := by
  rw [clean, clean, h, hparts]

theorem isAbsolute_clean (p : Bytes) : isAbsolute (clean p) = isAbsolute p := by
  cases h : isAbsolute p with
  | true => rw [clean_absolute h, isAbsolute_cons_slash]
  | false =>
    rw [clean_relative h]
    split
    · decide
    · exact isAbsolute_joinWith_parts p

theorem splitOn_joinWith_parts {p : Bytes} (h : parts p ≠ []) :
    Bytes.splitOn slash (Bytes.joinWith [slash] (parts p)) = parts p :=
  Bytes.splitOn_joinWith h fun _ hn => no_slash_of_mem_parts hn

/-- The shortest form of a path leads where the path leads. -/
theorem resolve_clean {p : Bytes} (hp : isAbsolute p = false) {ns : List Bytes}
    (hns : ∀ n ∈ ns, IsEntry n) : resolve ns (clean p) = resolve ns p := by
  rw [← foldl_push_parts hp hns, clean_relative hp]
  split
  · rename_i hnil
    rw [hnil]
    rfl
  · rename_i hne
    rw [resolve, splitOn_joinWith_parts hne]

theorem splitOn_slash_joinWith {ns : List Bytes} (h : ∀ n ∈ ns, slash ∉ n) (rooted : Bool)
    (before : List Bytes) :
    (Bytes.splitOn slash (Bytes.joinWith [slash] ns)).foldl (push rooted) before =
      ns.foldl (push rooted) before := by
  by_cases hne : ns = []
  · subst hne
    rfl
  · rw [Bytes.splitOn_joinWith hne h]

theorem fromRoot_slash (p : Bytes) : fromRoot (slash :: p) = fromRoot p := by
  rw [fromRoot, resolve, Bytes.splitOn, if_pos rfl]
  rfl

theorem fromRoot_joinWith {ns : List Bytes} (h : ∀ n ∈ ns, IsEntry n) :
    fromRoot (Bytes.joinWith [slash] ns) = ns := by
  rw [fromRoot, resolve, splitOn_slash_joinWith fun n hn => (h n hn).no_slash,
    foldl_push_entries h, List.reverse_nil, List.append_nil, List.reverse_reverse]

theorem fromRoot_clean (p : Bytes) : fromRoot (clean p) = fromRoot p := by
  cases h : isAbsolute p with
  | true =>
    obtain ⟨k, hk, hparts⟩ := parts_eq p
    rw [hk h] at hparts
    rw [clean_absolute h, fromRoot_slash, hparts]
    exact fromRoot_joinWith (isEntry_fromRoot p)
  | false => exact resolve_clean h (by simp)

theorem parts_clean (p : Bytes) : parts (clean p) = parts p := by
  obtain ⟨k, hk, hparts⟩ := parts_eq p
  cases h : isAbsolute p with
  | true =>
    obtain ⟨k', hk', hparts'⟩ := parts_eq (clean p)
    rw [hparts', hk' ((isAbsolute_clean p).trans h), hparts, hk h, fromRoot_clean]
  | false =>
    have hrel : isAbsolute (clean p) = false := (isAbsolute_clean p).trans h
    have hfold : (parts p).foldl (push false) [] = (parts p).reverse := by
      rw [hparts, List.foldl_append, foldl_push_aboves, foldl_push_entries (isEntry_fromRoot p),
        List.reverse_append, List.reverse_replicate]
    have hsplit : (Bytes.splitOn slash (clean p)).foldl (push false) [] =
        (parts p).foldl (push false) [] := by
      rw [clean_relative h]
      split
      · rename_i hnil
        rw [hnil]
        rfl
      · rename_i hne
        rw [splitOn_joinWith_parts hne]
    rw [parts, hrel, hsplit, hfold, List.reverse_reverse]

theorem clean_clean (p : Bytes) : clean (clean p) = clean p :=
  clean_congr (isAbsolute_clean p) (parts_clean p)

/-! ## Joining -/

theorem join_eq {a : Bytes} (h : a ≠ []) (b : Bytes) : join a b = clean (a ++ slash :: b) := by
  rw [join, if_neg (by simp [h]), List.append_assoc]
  rfl

theorem clean_ne_nil (p : Bytes) : clean p ≠ [] := by
  cases hp : isAbsolute p with
  | true =>
    rw [clean_absolute hp]
    exact List.cons_ne_nil _ _
  | false =>
    rw [clean_relative hp]
    split
    · decide
    · rename_i hne
      exact fun hj => hne (Bytes.joinWith_eq_nil hj fun n hn => ne_nil_of_mem_parts hn)

theorem join_ne_nil {a : Bytes} (h : a ≠ []) (b : Bytes) : join a b ≠ [] := by
  rw [join_eq h]
  exact clean_ne_nil _

theorem directory_ne_nil (p : Bytes) : directory p ≠ [] := clean_ne_nil _

theorem isAbsolute_join {a : Bytes} (h : a ≠ []) (b : Bytes) :
    isAbsolute (join a b) = isAbsolute a := by
  rw [join_eq h, isAbsolute_clean, isAbsolute_append h]

theorem fromRoot_join {a : Bytes} (h : a ≠ []) (b : Bytes) :
    fromRoot (join a b) = resolve (fromRoot a) b := by
  rw [join_eq h, fromRoot_clean, fromRoot, resolve, Bytes.splitOn_append, List.foldl_append,
    fromRoot, resolve, resolve, List.reverse_reverse]

theorem resolve_names {ns names : List Bytes} (h : ∀ n ∈ names, IsEntry n) :
    resolve ns (Bytes.joinWith [slash] names) = ns ++ names := by
  rw [resolve, splitOn_slash_joinWith fun n hn => (h n hn).no_slash, foldl_push_entries h,
    List.reverse_append, List.reverse_reverse, List.reverse_reverse]

/-- What a path ends in, when it is long enough for a name, is what the last name ends in. -/
theorem exists_resolve_snoc {p n : Bytes} (hslash : slash ∉ n) (hlength : 2 < n.length) (h : n <:+ p)
    (ns : List Bytes) : ∃ init last, resolve ns p = init ++ [last] ∧ IsEntry last ∧ n <:+ last := by
  obtain ⟨front, last, hsplit⟩ : ∃ front last, Bytes.splitOn slash p = front ++ [last] := by
    rcases List.eq_nil_or_concat (Bytes.splitOn slash p) with hnil | ⟨front, last, hlast⟩
    · exact absurd hnil (Bytes.splitOn_ne_nil _ _)
    · exact ⟨front, last, by rw [hlast, List.concat_eq_append]⟩
  have hpart : slash ∉ last := Bytes.not_mem_of_mem_splitOn (by rw [hsplit]; simp)
  have hsuffix : n <:+ last := by
    rw [← Bytes.joinWith_splitOn slash p, hsplit] at h
    cases front with
    | nil => exact h
    | cons f front =>
      rw [Bytes.joinWith_append (by simp) (by simp)] at h
      rcases List.suffix_or_suffix_of_suffix h (List.suffix_append _ _) with hshort | hlong
      · -- the last part is at least as long, or the slash before it is in `n`
        rcases List.suffix_cons_iff.1 hshort with rfl | hshort
        · exact absurd List.mem_cons_self hslash
        · exact hshort
      · exact absurd (hlong.mem List.mem_cons_self) hslash
  have hlong : 2 < last.length := Nat.lt_of_lt_of_le hlength hsuffix.length_le
  have hentry : IsEntry last := by
    refine ⟨?_, ?_, ?_, hpart⟩ <;> rintro rfl <;> exact absurd hlong (by decide)
  refine ⟨((front.foldl (push true) ns.reverse)).reverse, last, ?_, hentry, hsuffix⟩
  rw [resolve, hsplit, List.foldl_append, List.foldl_cons, List.foldl_nil, push_entry hentry,
    List.reverse_cons]

theorem parts_join_names {a : Bytes} (h : a ≠ []) {names : List Bytes}
    (hnames : ∀ n ∈ names, IsEntry n) :
    parts (join a (Bytes.joinWith [slash] names)) = parts a ++ names := by
  rw [join_eq h, parts_clean, parts, isAbsolute_append h, Bytes.splitOn_append, List.foldl_append,
    splitOn_slash_joinWith fun n hn => (hnames n hn).no_slash, foldl_push_entries hnames,
    List.reverse_append, List.reverse_reverse, parts]

theorem join_clean (p : Bytes) {a b : Bytes} (h : a ≠ []) (hp : p = join a b) : clean p = p := by
  rw [hp, join_eq h, clean_clean]

/-- Going down a name and then on is going down all the way. -/
theorem join_join {a : Bytes} (h : a ≠ []) {n : Bytes} {ns : List Bytes} (hn : IsEntry n)
    (hns : ∀ m ∈ ns, IsEntry m) :
    join (join a n) (Bytes.joinWith [slash] ns) = join a (Bytes.joinWith [slash] (n :: ns)) := by
  have hall : ∀ m ∈ n :: ns, IsEntry m := by
    intro m hm
    rcases List.mem_cons.1 hm with rfl | hm
    · exact hn
    · exact hns m hm
  have hone : ∀ m ∈ [n], IsEntry m := by
    intro m hm
    rwa [List.mem_singleton.1 hm]
  have hparts : parts (join (join a n) (Bytes.joinWith [slash] ns)) =
      parts (join a (Bytes.joinWith [slash] (n :: ns))) := by
    rw [parts_join_names (join_ne_nil h n) hns, parts_join_names h hall]
    have hfirst : parts (join a (Bytes.joinWith [slash] [n])) = parts a ++ [n] :=
      parts_join_names h hone
    change parts (join a n) = parts a ++ [n] at hfirst
    rw [hfirst, List.append_assoc]
    rfl
  have hkind : isAbsolute (join (join a n) (Bytes.joinWith [slash] ns)) =
      isAbsolute (join a (Bytes.joinWith [slash] (n :: ns))) := by
    rw [isAbsolute_join (join_ne_nil h n), isAbsolute_join h, isAbsolute_join h]
  have hclean := clean_congr hkind hparts
  rwa [join_clean _ (join_ne_nil h n) rfl, join_clean _ h rfl] at hclean

/-! ## Keys -/

def key (ns : List Bytes) : Bytes := slash :: Bytes.joinWith [slash] ns

theorem fromRoot_key {ns : List Bytes} (h : ∀ n ∈ ns, IsEntry n) : fromRoot (key ns) = ns := by
  rw [key, fromRoot_slash, fromRoot_joinWith h]

theorem key_inj {ns ms : List Bytes} (hns : ∀ n ∈ ns, IsEntry n) (hms : ∀ n ∈ ms, IsEntry n)
    (h : key ns = key ms) : ns = ms := by
  rw [← fromRoot_key hns, h, fromRoot_key hms]

theorem clean_key {p : Bytes} (h : isAbsolute p = true) : clean p = key (fromRoot p) := by
  obtain ⟨k, hk, hparts⟩ := parts_eq p
  rw [clean_absolute h, hparts, hk h]
  rfl

theorem join_key {ns names : List Bytes} (hns : ∀ n ∈ ns, IsEntry n)
    (hnames : ∀ n ∈ names, IsEntry n) :
    join (key ns) (Bytes.joinWith [slash] names) = key (ns ++ names) := by
  have hne : key ns ≠ [] := List.cons_ne_nil _ _
  have habs : isAbsolute (join (key ns) (Bytes.joinWith [slash] names)) = true :=
    isAbsolute_join hne _
  rw [← join_clean _ hne rfl, clean_key habs, fromRoot_join hne, fromRoot_key hns,
    resolve_names hnames]

theorem key_snoc (ns : List Bytes) (n : Bytes) :
    ∃ front, key (ns ++ [n]) = front ++ slash :: n ∧ isAbsolute (front ++ [slash]) = true ∧
      fromRoot (front ++ [slash]) = fromRoot (key ns) := by
  by_cases hne : ns = []
  · subst hne
    exact ⟨[], rfl, rfl, rfl⟩
  · refine ⟨key ns, ?_, rfl, ?_⟩
    · rw [key, key, Bytes.joinWith_append hne (List.cons_ne_nil _ _)]
      rfl
    · rw [fromRoot, resolve, Bytes.splitOn_append, List.foldl_append]
      rfl

theorem directory_key {ns : List Bytes} {n : Bytes} (hns : ∀ m ∈ ns, IsEntry m) (hn : IsEntry n) :
    directory (key (ns ++ [n])) = key ns := by
  obtain ⟨front, hkey, habs, hroot⟩ := key_snoc ns n
  have htake : (front ++ slash :: n).take (front.length + 1) = front ++ [slash] := by
    rw [List.take_append, List.take_of_length_le (Nat.le_succ _)]
    simp
  rw [directory, hkey, Bytes.afterLast_append _ hn.no_slash, htake, clean_key habs, hroot,
    fromRoot_key hns]

theorem base_snoc (front : Bytes) {n : Bytes} (hn : IsEntry n) : base (front ++ slash :: n) = n := by
  have hlast : (front ++ slash :: n).reverse.dropWhile (· == slash) =
      (front ++ slash :: n).reverse := by
    cases hrev : n.reverse with
    | nil => exact absurd (List.reverse_eq_nil_iff.1 hrev) hn.ne_nil
    | cons c rest =>
      have hc : c ≠ slash := fun h => hn.no_slash (by
        rw [← List.mem_reverse, hrev, h]
        exact List.mem_cons_self)
      rw [List.reverse_append, List.reverse_cons, hrev]
      simp [hc]
  rw [base, if_neg (by simp), hlast, List.reverse_reverse, if_neg (by simp),
    Bytes.afterLast_append _ hn.no_slash, List.drop_append]
  simp

theorem base_key (ns : List Bytes) {n : Bytes} (hn : IsEntry n) : base (key (ns ++ [n])) = n := by
  obtain ⟨front, hkey, -, -⟩ := key_snoc ns n
  rw [hkey, base_snoc front hn]

/-! ## One path as seen from another -/

theorem steps_clean (p : Bytes) :
    steps (clean p) =
      if isAbsolute p = false ∧ parts p = [] then [here] else parts p := by
  cases h : isAbsolute p with
  | true =>
    rw [steps, isAbsolute_clean, h, clean_absolute h]
    by_cases hne : parts p = []
    · simp [hne, Bytes.joinWith]
    · have hlen : Bytes.joinWith [slash] (parts p) ≠ [] :=
        fun hj => hne (Bytes.joinWith_eq_nil hj fun n hn => ne_nil_of_mem_parts hn)
      simp [hlen, splitOn_joinWith_parts hne]
  | false =>
    rw [steps, isAbsolute_clean, h, clean_relative h]
    by_cases hne : parts p = []
    · simp only [hne, if_true, and_self]
      decide
    · simp only [hne, if_false, and_false]
      exact splitOn_joinWith_parts hne

theorem clean_eq_here_iff (p : Bytes) : clean p = here ↔ isAbsolute p = false ∧ parts p = [] := by
  cases h : isAbsolute p with
  | true =>
    rw [clean_absolute h]
    refine ⟨fun hj => ?_, fun hj => absurd hj.1 (by decide)⟩
    exact absurd (List.cons.inj (hj.trans (rfl : here = 0x2E :: []))).1 (by decide)
  | false =>
    rw [clean_relative h]
    by_cases hne : parts p = []
    · simp [hne]
    · rw [if_neg hne]
      refine ⟨fun hj => ?_, fun hj => absurd hj.2 hne⟩
      -- `.` splits into itself, which is no part
      have hsplit := splitOn_joinWith_parts hne
      rw [hj] at hsplit
      have hmem : here ∈ parts p := by
        rw [← hsplit]
        decide
      obtain ⟨k, -, hparts⟩ := parts_eq p
      rw [hparts, List.mem_append] at hmem
      rcases hmem with hmem | hmem
      · exact absurd (List.eq_of_mem_replicate hmem) (by decide)
      · exact absurd rfl (isEntry_fromRoot p _ hmem).ne_here

theorem dropCommon_append (as bs : List Bytes) : dropCommon as (as ++ bs) = ([], bs) := by
  induction as with
  | nil => cases bs <;> rfl
  | cons a as ih => simp [dropCommon, ih]

theorem dropCommon_eq (as bs : List Bytes) :
    ∃ common, as = common ++ (dropCommon as bs).1 ∧ bs = common ++ (dropCommon as bs).2 := by
  induction as generalizing bs with
  | nil => exact ⟨[], by cases bs <;> simp [dropCommon], by cases bs <;> simp [dropCommon]⟩
  | cons a as ih =>
    cases bs with
    | nil => exact ⟨[], by simp [dropCommon], by simp [dropCommon]⟩
    | cons b bs =>
      by_cases hab : a = b
      · obtain ⟨common, has, hbs⟩ := ih bs
        refine ⟨a :: common, ?_, ?_⟩
        · simp only [dropCommon, hab, beq_self_eq_true, if_true, List.cons_append]
          rw [← has]
        · simp only [dropCommon, hab, beq_self_eq_true, if_true, List.cons_append]
          rw [← hbs]
      · exact ⟨[], by simp [dropCommon, hab], by simp [dropCommon, hab]⟩

/-- The parts that `relative?` compares for the path that is looked from. -/
theorem steps_root (p : Bytes) :
    (if clean p == here then [] else steps (clean p)) = parts p := by
  by_cases h : clean p = here
  · rw [if_pos (by simp [h])]
    exact ((clean_eq_here_iff p).1 h).2.symm
  · rw [if_neg (by simp [h]), steps_clean, if_neg fun hp => h ((clean_eq_here_iff p).2 hp)]

/-- A path that goes down some names from another is those names as seen from it. -/
theorem relative?_join {a : Bytes} (h : a ≠ []) {names : List Bytes}
    (hnames : ∀ n ∈ names, IsEntry n) (hne : names ≠ []) :
    relative? a (join a (Bytes.joinWith [slash] names)) = some (Bytes.joinWith [slash] names) := by
  have hparts := parts_join_names h hnames
  have habs := isAbsolute_join h (Bytes.joinWith [slash] names)
  generalize join a (Bytes.joinWith [slash] names) = t at hparts habs
  have hdiffer : clean a ≠ clean t := by
    intro heq
    have hsame : parts a = parts a ++ names := by rw [← hparts, ← parts_clean t, ← heq, parts_clean]
    exact hne (List.self_eq_append_right.1 hsame)
  have htne : ¬ (isAbsolute t = false ∧ parts t = []) := by
    rintro ⟨-, hnil⟩
    rw [hparts, List.append_eq_nil_iff] at hnil
    exact hne hnil.2
  rw [relative?]
  simp only [beq_eq_false_iff_ne.2 hdiffer, isAbsolute_clean, habs, bne_self_eq_false,
    Bool.false_eq_true, if_false]
  rw [steps_root, steps_clean, if_neg htne, hparts, dropCommon_append]

theorem isEntry_after_name {p n : Bytes} {xs ys : List Bytes} (h : parts p = xs ++ n :: ys)
    (hn : n ≠ above) : ∀ m ∈ n :: ys, IsEntry m := by
  obtain ⟨k, -, hparts⟩ := parts_eq p
  intro m hm
  rw [hparts, List.append_eq_append_iff] at h
  rcases h with ⟨c, -, hroot⟩ | ⟨c, haboves, hrest⟩
  · refine isEntry_fromRoot p m ?_
    rw [hroot]
    exact List.mem_append_right _ hm
  · cases c with
    | nil =>
      rw [List.nil_append] at hrest
      exact isEntry_fromRoot p m (hrest ▸ hm)
    | cons u c =>
      have hu : u ∈ List.replicate k above := by
        rw [haboves]
        exact List.mem_append_right _ List.mem_cons_self
      rw [List.cons_append] at hrest
      exact absurd ((List.cons.inj hrest).1.trans (List.eq_of_mem_replicate hu)) hn

theorem foldl_push_root (p : Bytes) :
    (parts p).foldl (push true) [] = (fromRoot p).reverse := by
  cases h : isAbsolute p with
  | true =>
    obtain ⟨k, hk, hparts⟩ := parts_eq p
    rw [hparts, hk h]
    simpa using foldl_push_entries (isEntry_fromRoot p) true []
  | false =>
    have := foldl_push_parts h (show ∀ n ∈ ([] : List Bytes), IsEntry n from nofun)
    rw [fromRoot, ← this, List.reverse_reverse]
    rfl

theorem relative?_ne_nil {root t rel : Bytes} (h : relative? root t = some rel) : rel ≠ [] := by
  rw [relative?] at h
  simp only [beq_iff_eq] at h
  split at h
  · cases h
    decide
  rename_i hdiffer
  split at h
  · cases h
  rename_i hkind
  have hroots := steps_root root
  simp only [beq_iff_eq] at hroots
  rw [hroots] at h
  obtain ⟨common, hr, ht⟩ := dropCommon_eq (parts root) (steps (clean t))
  split at h
  · rename_i ts hdrop
    rw [hdrop] at hr ht
    cases h
    -- the steps of a path are not empty, and there are more of them than those of the root
    have hne : ∀ x ∈ steps (clean t), x ≠ [] := by
      rw [steps_clean]
      split
      · exact fun x hx => List.mem_singleton.1 hx ▸ (by decide)
      · exact fun x hx => ne_nil_of_mem_parts hx
    intro hnil
    have hts := Bytes.joinWith_eq_nil hnil fun x hx => hne x (by rw [ht]; simp [hx])
    simp only [hts, List.append_nil] at hr ht
    refine hdiffer ?_
    rw [steps_clean] at ht
    split at ht
    · obtain ⟨k, -, hparts⟩ := parts_eq root
      have hmem : here ∈ parts root := by rw [hr, ← ht]; simp
      rw [hparts] at hmem
      rcases List.mem_append.1 hmem with hmem | hmem
      · exact absurd (List.eq_of_mem_replicate hmem) (by decide)
      · exact absurd rfl (isEntry_fromRoot root here hmem).ne_here
    · simp only [isAbsolute_clean, bne_iff_ne, ne_eq, Decidable.not_not] at hkind
      exact clean_congr hkind (hr.trans ht.symm)
  · split at h
    · cases h
    · cases h
      exact clean_ne_nil _

/-- A path as seen from another leads, from there, to where the path leads. The path must not end in
a step above. -/
theorem fromRoot_join_relative {root t rel : Bytes} (hroot : root ≠ [])
    (hlast : ∃ init n, parts t = init ++ [n] ∧ IsEntry n) (h : relative? root t = some rel) :
    fromRoot (join root rel) = fromRoot t := by
  rw [fromRoot_join hroot]
  rw [relative?] at h
  simp only [beq_iff_eq] at h
  split at h
  · rename_i heq
    cases h
    rw [← fromRoot_clean t, ← heq, fromRoot_clean]
    simp only [resolve]
    exact List.reverse_reverse _
  split at h
  · cases h
  have htne : ¬ (isAbsolute t = false ∧ parts t = []) := by
    obtain ⟨init, n, hparts, -⟩ := hlast
    rw [hparts]
    simp
  rename_i hdiffer hkind
  have hroots := steps_root root
  simp only [beq_iff_eq] at hroots
  rw [hroots, steps_clean, if_neg htne] at h
  obtain ⟨common, hr, ht⟩ := dropCommon_eq (parts root) (parts t)
  generalize dropCommon (parts root) (parts t) = d at h hr ht
  obtain ⟨bs, ts⟩ := d
  -- the names that are left of the path lead on from what both have in common
  have htarget : (ts.foldl (push true) (common.foldl (push true) [])).reverse = fromRoot t := by
    rw [← List.foldl_append, ← ht, foldl_push_root, List.reverse_reverse]
  have htslash : ∀ x ∈ ts, slash ∉ x := fun x hx =>
    no_slash_of_mem_parts (p := t) (by rw [ht]; exact List.mem_append_right _ hx)
  match bs, h with
  | [], h =>
    cases h
    rw [resolve, splitOn_slash_joinWith htslash, ← foldl_push_root, hr, List.append_nil, htarget]
  | b :: bs, h =>
    simp only at h hr
    split at h
    · cases h
    rename_i hb
    cases h
    have hb : b ≠ above := by
      rintro rfl
      obtain ⟨init, n, hinit, hn⟩ := hlast
      have hts : ts = [] := by simpa using hb
      rw [ht, hts, List.append_nil] at hinit
      rw [hinit, List.append_assoc] at hr
      exact (isEntry_after_name hr hn.ne_above above (by simp)).ne_above rfl
    have hbelow := isEntry_after_name hr hb
    have hsteps : (b :: bs).map (fun _ => above) = List.replicate (bs.length + 1) above :=
      List.map_const'
    have hparts : ∀ x ∈ List.replicate (bs.length + 1) above ++ ts, x ≠ [] ∧ slash ∉ x := by
      intro x hx
      rcases List.mem_append.1 hx with hx | hx
      · rw [List.eq_of_mem_replicate hx]
        exact ⟨above_ne_nil, by decide⟩
      · exact ⟨ne_nil_of_mem_parts (p := t) (by rw [ht]; exact List.mem_append_right _ hx),
          htslash x hx⟩
    have hback : (fromRoot root).reverse.drop (bs.length + 1) =
        common.foldl (push true) [] := by
      rw [← foldl_push_root, hr, List.foldl_append, foldl_push_entries hbelow]
      exact List.drop_left' (by simp)
    rw [hsteps, resolve_clean (isAbsolute_joinWith hparts) (isEntry_fromRoot root), resolve,
      splitOn_slash_joinWith (fun x hx => (hparts x hx).2), List.foldl_append,
      foldl_push_aboves_rooted _ fun n hn => isEntry_fromRoot root n (List.mem_reverse.1 hn), hback,
      htarget]

end Path

end Flowsmith
