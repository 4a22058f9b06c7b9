import Flowsmith.Proofs.Files.Memory

/-!
# Searching for files

A search through a store in memory that succeeds leaves the store as it is and gives the paths of the
files below the directory whose names match: no other path, and none is missed.

* `Hit` : the names below a directory that a search is about;
* `walk_ends`, `find_ends` : what a search gives;
* `matchesName_around_iff`, `matchesName_after_iff` : patterns of stars and letters;
* `suffix_of_matchesName` : patterns that end in letters.
-/

namespace Flowsmith

namespace Glob

/-! ## Patterns of stars and letters -/

theorem matchesName_nil_iff (s : Bytes) : matchesName [] s = true ↔ s = [] := by
  rw [matchesName, List.isEmpty_iff]

theorem matchesName_eq_chunk (ps : List Part) (s : Bytes) :
    matchesName ps s = (chunk? ps s).any (matchesName (ps.dropWhile (· != .star))) := by
  match ps with
  | [] => simp [chunk?]
  | .star :: ps => simp [chunk?]
  | .any :: ps => simp [matchesName]
  | .cls negated ranges :: ps => simp [matchesName]
  | .byte b :: ps => simp [matchesName]

theorem matchesName_star {ps : List Part} (h : ps ≠ []) (s : Bytes) :
    matchesName (.star :: ps) s
      = (firstChunk? ps s).any (matchesName (ps.dropWhile (· != .star))) := by
  cases ps with
  | nil => exact absurd rfl h
  | cons p ps => rw [matchesName]

theorem chunk?_suffix {ps : List Part} {s t : Bytes} (h : chunk? ps s = some t) : t <:+ s := by
  induction ps generalizing s with
  | nil =>
    cases h
    exact List.suffix_rfl
  | cons p ps ih =>
    cases p with
    | star =>
      cases h
      exact List.suffix_rfl
    | any =>
      cases s with
      | nil => cases h
      | cons c s =>
        rw [chunk?, Option.ite_none_left_eq_some] at h
        exact ((ih h.2).trans (List.drop_suffix _ _)).trans (List.suffix_cons _ _)
    | cls negated ranges =>
      cases s with
      | nil => cases h
      | cons c s =>
        rw [chunk?, Option.ite_none_right_eq_some] at h
        exact ((ih h.2).trans (List.drop_suffix _ _)).trans (List.suffix_cons _ _)
    | byte b =>
      cases s with
      | nil => cases h
      | cons c s =>
        rw [chunk?, Option.ite_none_right_eq_some] at h
        exact (ih h.2).trans (List.suffix_cons _ _)

theorem chunk?_bytes (w : Bytes) (ps : List Part) (s t : Bytes) :
    chunk? (w.map .byte ++ ps) s = some t ↔ ∃ u, s = w ++ u ∧ chunk? ps u = some t := by
  induction w generalizing s with
  | nil => simp
  | cons b w ih =>
    cases s with
    | nil => simp [chunk?]
    | cons c s =>
      rw [List.map_cons, List.cons_append, chunk?, Option.ite_none_right_eq_some, ih]
      constructor
      · rintro ⟨rfl, u, rfl, hu⟩
        exact ⟨u, rfl, hu⟩
      · rintro ⟨u, hs, hu⟩
        obtain ⟨rfl, rfl⟩ := List.cons.inj hs
        exact ⟨rfl, u, rfl, hu⟩

theorem exists_of_firstChunk? {ps : List Part} {s t : Bytes} (h : firstChunk? ps s = some t) :
    ∃ front u, s = front ++ u ∧ chunk? ps u = some t ∧ (t = [] ∨ .star ∈ ps) := by
  induction s with
  | nil =>
    rw [firstChunk?] at h
    exact ⟨[], [], rfl, h, .inl (List.suffix_nil.1 (chunk?_suffix h))⟩
  | cons c s ih =>
    rw [firstChunk?] at h
    split at h
    · rename_i t' hfilter
      cases h
      rw [Option.filter_eq_some_iff] at hfilter
      exact ⟨[], c :: s, rfl, hfilter.1, by simpa using hfilter.2⟩
    · rw [Option.ite_none_left_eq_some] at h
      obtain ⟨front, u, rfl, hu⟩ := ih h.2
      exact ⟨c :: front, u, rfl, hu⟩

/-- What a star is followed by is found where it is, or before. -/
theorem exists_firstChunk? {ps : List Part} {front u t : Bytes} (h : Path.slash ∉ front)
    (hu : chunk? ps u = some t) (ht : t = [] ∨ .star ∈ ps) :
    ∃ t', firstChunk? ps (front ++ u) = some t' := by
  induction front with
  | nil =>
    cases u with
    | nil => exact ⟨t, hu⟩
    | cons c u =>
      have hfilter : (chunk? ps (c :: u)).filter (fun t => t.isEmpty || ps.contains .star) = some t :=
        Option.filter_eq_some_iff.2 ⟨hu, by simpa using ht⟩
      exact ⟨t, by rw [List.nil_append, firstChunk?, hfilter]⟩
  | cons c front ih =>
    rw [List.mem_cons, not_or] at h
    rw [List.cons_append, firstChunk?]
    split
    · exact ⟨_, rfl⟩
    · rw [if_neg (Ne.symm h.1)]
      exact ih h.2

theorem dropWhile_bytes (w : Bytes) (ps : List Part) :
    (w.map Part.byte ++ ps).dropWhile (· != .star) = ps.dropWhile (· != .star) := by
  induction w with
  | nil => rfl
  | cons b w ih => simp [ih]

theorem matchesName_bytes_iff (w : Bytes) (ps : List Part) (s : Bytes) :
    matchesName (w.map .byte ++ ps) s = true ↔ ∃ u, s = w ++ u ∧ matchesName ps u = true := by
  simp only [matchesName_eq_chunk (w.map .byte ++ ps), matchesName_eq_chunk ps, dropWhile_bytes,
    Option.any_eq_true, chunk?_bytes]
  constructor
  · rintro ⟨t, ⟨u, hs, hu⟩, ht⟩
    exact ⟨u, hs, t, hu, ht⟩
  · rintro ⟨u, hs, t, hu, ht⟩
    exact ⟨t, ⟨u, hs, hu⟩, ht⟩

/-- A word between stars is looked for anywhere in a name. -/
theorem matchesName_around_iff (w : Bytes) {s : Bytes} (h : Path.slash ∉ s) :
    matchesName (.star :: (w.map .byte ++ [.star])) s = true ↔ w <:+: s := by
  rw [matchesName_star (by simp), dropWhile_bytes, Option.any_eq_true]
  constructor
  · rintro ⟨t, hfirst, -⟩
    obtain ⟨front, u, rfl, hu, -⟩ := exists_of_firstChunk? hfirst
    obtain ⟨v, rfl, -⟩ := (chunk?_bytes w [.star] u t).1 hu
    exact ⟨front, v, by simp⟩
  · rintro ⟨front, v, rfl⟩
    rw [List.append_assoc] at h ⊢
    obtain ⟨t, ht⟩ := exists_firstChunk? (fun hmem => h (List.mem_append_left _ hmem))
      ((chunk?_bytes w [.star] (w ++ v) v).2 ⟨v, rfl, rfl⟩) (.inr (by simp))
    obtain ⟨front', u, hs, hu, -⟩ := exists_of_firstChunk? ht
    have hfree : Path.slash ∉ t := fun hmem =>
      h (hs ▸ List.mem_append_right _ ((chunk?_suffix hu).subset hmem))
    exact ⟨t, ht, by simpa [matchesName] using hfree⟩

/-- A word after a star is looked for at the end of a name. -/
theorem matchesName_after_iff (w : Bytes) {s : Bytes} (h : Path.slash ∉ s) :
    matchesName (.star :: w.map .byte) s = true ↔ w <:+ s := by
  by_cases hw : w = []
  · subst hw
    simpa [matchesName] using h
  have hbytes : ∀ u t, chunk? (w.map .byte) u = some t ↔ u = w ++ t := fun u t => by
    simpa [chunk?] using chunk?_bytes w [] u t
  have hall : (w.map Part.byte).dropWhile (· != .star) = [] := by simpa using dropWhile_bytes w []
  rw [matchesName_star (by simpa using hw), hall, Option.any_eq_true]
  constructor
  · rintro ⟨t, hfirst, ht⟩
    obtain ⟨front, u, rfl, hu, -⟩ := exists_of_firstChunk? hfirst
    obtain rfl := (matchesName_nil_iff t).1 ht
    exact ⟨front, by rw [(hbytes u []).1 hu, List.append_nil]⟩
  · rintro ⟨front, rfl⟩
    obtain ⟨t, ht⟩ := exists_firstChunk? (fun hmem => h (List.mem_append_left _ hmem))
      ((hbytes w []).2 (List.append_nil w).symm) (.inl rfl)
    obtain ⟨front', u, -, -, hnil⟩ := exists_of_firstChunk? ht
    exact ⟨t, ht, (matchesName_nil_iff t).2 (by simpa using hnil)⟩

theorem matchesName_letters_iff (w s : Bytes) : matchesName (w.map .byte) s = true ↔ s = w := by
  rw [← List.append_nil (w.map Part.byte), matchesName_bytes_iff]
  simp [matchesName_nil_iff]

/-! ## Patterns that end in letters -/

theorem classChar?_suffix {s rest : Bytes} {n : Nat} (h : classChar? s = some (n, rest)) :
    rest <:+ s := by
  unfold classChar? at h
  dsimp only at h
  split at h
  · cases h
  · rename_i u hu
    have hsuffix : u <:+ s := by
      split at hu <;> cases hu
      · exact List.suffix_cons _ _
      · exact List.suffix_rfl
    split at h
    · cases h
    · split at h
      · cases h
      · cases h
        exact (List.drop_suffix _ _).trans hsuffix

theorem ranges?_suffix {rs rs' : List (Nat × Nat)} {s after : Bytes}
    (h : ranges? rs s = some (rs', after)) : ']'.toUInt8 :: after <:+ s := by
  fun_induction ranges? rs s with
  | case1 rs s hend =>
    obtain ⟨c, rest, rfl, rfl⟩ : ∃ c rest, s = c :: rest ∧ c = ']'.toUInt8 := by
      obtain ⟨rest, hs⟩ := List.head?_eq_some_iff.1 hend.1
      exact ⟨_, rest, hs, rfl⟩
    cases h
    exact List.suffix_rfl
  | case2 => cases h
  | case3 => cases h
  | case4 rs s hend lo rest hlo upper hi rest' hhi hlen ih =>
    have hrest := classChar?_suffix hlo
    have hrest' : rest' <:+ rest := by
      have hhi' : upper = some (hi, rest') := hhi
      simp only [upper] at hhi'
      split at hhi'
      · exact (classChar?_suffix hhi').trans (List.drop_suffix _ _)
      · cases hhi'
        exact List.suffix_rfl
    exact ((ih h).trans hrest').trans hrest
  | case5 => cases h

/-- The bytes that mean something in a pattern. -/
def marks : Bytes := "*?[]\\"

/-- Whether a name is made of letters is read off its bytes. -/
instance decidableLetters (w : Bytes) : Decidable (∀ c ∈ w, c ∉ marks) :=
  decidable_of_iff (w.all fun c => !([42, 63, 91, 93, 92] : Bytes).contains c) <| by
    rw [show marks = [42, 63, 91, 93, 92] by decide]
    simp

theorem parse?_letters {w : Bytes} (h : ∀ c ∈ w, c ∉ marks) : parse? w = some (w.map .byte) := by
  induction w with
  | nil => rw [parse?]; rfl
  | cons c w ih =>
    have hc : ∀ d ∈ marks, c ≠ d := fun d hd hcd => h c List.mem_cons_self (hcd ▸ hd)
    rw [parse?.eq_def]
    show (if _ then _ else _) = _
    rw [if_neg (hc _ (by decide)), if_neg (hc _ (by decide)), if_neg (hc _ (by decide)),
      if_neg (hc _ (by decide)), ih fun d hd => h d (List.mem_cons_of_mem _ hd)]
    rfl

theorem parse?_star (s : Bytes) : parse? ('*'.toUInt8 :: s) = (parse? s).map (.star :: ·) := by
  rw [parse?.eq_def]
  rfl

theorem parse?_after {w : Bytes} (h : ∀ c ∈ w, c ∉ marks) :
    parse? ('*'.toUInt8 :: w) = some (.star :: w.map .byte) := by
  rw [parse?_star, parse?_letters h]
  rfl

theorem matchesName_self {w : Bytes} (h : ∀ c ∈ w, c ∉ marks) :
    ∃ ps, parse? w = some ps ∧ matchesName ps w = true :=
  ⟨_, parse?_letters h, (matchesName_letters_iff w w).2 rfl⟩

theorem exists_append_of_suffix {c : UInt8} {u w after : Bytes} (hw : c ∉ w)
    (h : c :: after <:+ u ++ w) : ∃ u', after = u' ++ w ∧ u'.length < u.length := by
  obtain ⟨pre, hpre⟩ := h
  rw [List.append_cons, List.append_eq_append_iff] at hpre
  rcases hpre with ⟨v, rfl, rfl⟩ | ⟨v, hv, rfl⟩
  · exact ⟨v, rfl, by simp; omega⟩
  · rcases List.eq_nil_or_concat v with rfl | ⟨v, b, rfl⟩
    · rw [List.append_nil] at hv
      exact ⟨[], rfl, by rw [← hv]; simp⟩
    · rw [List.concat_eq_append, ← List.append_assoc] at hv
      obtain ⟨-, hb⟩ := List.append_inj' hv rfl
      obtain rfl := (List.cons.inj hb).1
      exact absurd (by simp) hw

/-- A pattern that ends in letters stands for names that end in them. -/
theorem exists_of_parse? {u w : Bytes} {ps : List Part} (hw : ∀ c ∈ w, c ∉ marks)
    (h : parse? (u ++ w) = some ps) : ∃ ps', ps = ps' ++ w.map .byte := by
  induction hn : u.length using Nat.strong_induction_on generalizing u ps with
  | _ n ih =>
    subst hn
    cases u with
    | nil =>
      rw [List.nil_append, parse?_letters hw] at h
      exact ⟨[], (Option.some.inj h).symm⟩
    | cons c u =>
      have hstep : ∀ {u' : Bytes} {p : Part}, u'.length < (c :: u).length →
          (parse? (u' ++ w)).map (p :: ·) = some ps → ∃ ps', ps = ps' ++ w.map .byte := by
        intro u' p hlen h
        obtain ⟨qs, hqs, rfl⟩ := Option.map_eq_some_iff.1 h
        obtain ⟨ps', rfl⟩ := ih _ hlen hqs rfl
        exact ⟨p :: ps', rfl⟩
      rw [List.cons_append, parse?.eq_def] at h
      dsimp only at h
      split at h
      · exact hstep (Nat.lt_succ_self _) h
      split at h
      · exact hstep (Nat.lt_succ_self _) h
      split at h
      · -- a class ends before the letters
        split at h
        · cases h
        · rename_i rs after hranges
          split at h
          · have hsuffix : ']'.toUInt8 :: after <:+ u ++ w := by
              refine (ranges?_suffix hranges).trans ?_
              split
              · exact List.drop_suffix _ _
              · exact List.suffix_rfl
            obtain ⟨u', rfl, hlen⟩ := exists_append_of_suffix (fun hmem => hw _ hmem (by decide)) hsuffix
            exact hstep (Nat.lt_succ_of_lt hlen) h
          · cases h
      split at h
      · cases u with
        | nil =>
          cases w with
          | nil => cases h
          | cons d w =>
            simp only [List.nil_append] at h
            rw [parse?_letters fun c hc => hw c (List.mem_cons_of_mem _ hc)] at h
            exact ⟨[], (Option.some.inj h).symm⟩
        | cons d u => exact hstep (Nat.lt_succ_of_lt (Nat.lt_succ_self _)) h
      · exact hstep (Nat.lt_succ_self _) h

/-- What a part stands for comes before what the parts after it stand for. -/
theorem matchesName_cons {p : Part} {ps : List Part} {s : Bytes}
    (h : matchesName (p :: ps) s = true) : ∃ u, u <:+ s ∧ matchesName ps u = true := by
  -- what the parts of a chunk leave, the parts after the first of them leave of a shorter text
  have hrest : ∀ {u t}, u <:+ s → chunk? ps u = some t →
      matchesName (ps.dropWhile (· != .star)) t = true → ∃ u, u <:+ s ∧ matchesName ps u = true :=
    fun {u t} hu hchunk ht => ⟨u, hu, by rw [matchesName_eq_chunk, hchunk]; exact ht⟩
  cases p with
  | star =>
    by_cases hps : ps = []
    · exact ⟨[], List.nil_suffix, by rw [hps, matchesName]; rfl⟩
    · rw [matchesName_star hps, Option.any_eq_true] at h
      obtain ⟨t, hfirst, ht⟩ := h
      obtain ⟨front, u, rfl, hu, -⟩ := exists_of_firstChunk? hfirst
      exact hrest (List.suffix_append _ _) hu ht
  | any =>
    rw [matchesName_eq_chunk, Option.any_eq_true] at h
    obtain ⟨t, hchunk, ht⟩ := h
    cases s with
    | nil => cases hchunk
    | cons c s =>
      rw [chunk?, Option.ite_none_left_eq_some] at hchunk
      exact hrest ((List.drop_suffix _ _).trans (List.suffix_cons _ _)) hchunk.2 (by simpa using ht)
  | cls negated ranges =>
    rw [matchesName_eq_chunk, Option.any_eq_true] at h
    obtain ⟨t, hchunk, ht⟩ := h
    cases s with
    | nil => cases hchunk
    | cons c s =>
      rw [chunk?, Option.ite_none_right_eq_some] at hchunk
      exact hrest ((List.drop_suffix _ _).trans (List.suffix_cons _ _)) hchunk.2 (by simpa using ht)
  | byte b =>
    rw [matchesName_eq_chunk, Option.any_eq_true] at h
    obtain ⟨t, hchunk, ht⟩ := h
    cases s with
    | nil => cases hchunk
    | cons c s =>
      rw [chunk?, Option.ite_none_right_eq_some] at hchunk
      exact hrest (List.suffix_cons _ _) hchunk.2 (by simpa using ht)

theorem matchesName_append {ps qs : List Part} {s : Bytes} (h : matchesName (ps ++ qs) s = true) :
    ∃ u, u <:+ s ∧ matchesName qs u = true := by
  induction ps generalizing s with
  | nil => exact ⟨s, List.suffix_rfl, h⟩
  | cons p ps ih =>
    obtain ⟨u, hu, hrest⟩ := matchesName_cons h
    obtain ⟨v, hv, hmatch⟩ := ih hrest
    exact ⟨v, hv.trans hu, hmatch⟩

/-- A pattern that ends in letters stands only for names that end in them. -/
theorem suffix_of_matchesName {u w s : Bytes} {ps : List Part} (hw : ∀ c ∈ w, c ∉ marks)
    (hps : parse? (u ++ w) = some ps) (h : matchesName ps s = true) : w <:+ s := by
  obtain ⟨ps', rfl⟩ := exists_of_parse? hw hps
  obtain ⟨v, hv, hmatch⟩ := matchesName_append h
  rw [← List.append_nil (w.map Part.byte)] at hmatch
  obtain ⟨x, rfl, hx⟩ := (matchesName_bytes_iff w [] v).1 hmatch
  rwa [(matchesName_nil_iff x).1 hx, List.append_nil] at hv

end Glob

namespace Files

open Flowsmith.Path Memory

/-! ## Walking through directories -/

/-- Names that lead down from a directory to a file whose own name matches. -/
structure Hit (m : Memory) (ps : List Glob.Part) (dir : Bytes) (names : List Bytes) : Prop where
  entries : ∀ n ∈ names, IsEntry n
  file : ∃ c, m.fileAt? (key (fromRoot dir ++ names)) = some c
  last : ∃ above n, names = above ++ [n] ∧ Glob.matchesName ps n = true

variable {m m' : Memory} {ps : List Glob.Part}

theorem fromRoot_join_entry {dir n : Bytes} (hdir : dir ≠ []) (hn : IsEntry n) :
    fromRoot (join dir n) = fromRoot dir ++ [n] := by
  rw [fromRoot_join hdir]
  have hone : ∀ k ∈ [n], IsEntry k := fun k hk => by rwa [List.mem_singleton.1 hk]
  exact resolve_names hone

theorem normalize_names {dir : Bytes} {names : List Bytes} (hdir : dir ≠ [])
    (h : ∀ n ∈ names, IsEntry n) :
    normalize (join dir (Bytes.joinWith [slash] names)) = key (fromRoot dir ++ names) := by
  rw [normalize_eq, fromRoot_join hdir, resolve_names h]

theorem base_key_names {dir n : Bytes} {names : List Bytes} (h : ∀ k ∈ names ++ [n], IsEntry k) :
    base (key (fromRoot dir ++ (names ++ [n]))) = n := by
  rw [← List.append_assoc]
  exact base_key _ (h n (by simp))

theorem Hit.one_iff {dir n : Bytes} (hn : IsEntry n) :
    Hit m ps dir [n] ↔
      (∃ c, m.fileAt? (key (fromRoot dir ++ [n])) = some c) ∧ Glob.matchesName ps n = true := by
  constructor
  · rintro ⟨-, hfile, above, k, hk, hmatch⟩
    obtain ⟨-, hnk⟩ := List.append_inj' (show [] ++ [n] = above ++ [k] from hk) rfl
    rw [(List.cons.inj hnk).1]
    exact ⟨(List.cons.inj hnk).1 ▸ hfile, hmatch⟩
  · rintro ⟨hfile, hmatch⟩
    exact ⟨fun k hk => by rwa [List.mem_singleton.1 hk], hfile, [], n, rfl, hmatch⟩

/-- A file further down is one below an entry of the directory. -/
theorem Hit.cons_iff {dir n : Bytes} {names : List Bytes} (hdir : dir ≠ []) (hn : IsEntry n)
    (hne : names ≠ []) : Hit m ps dir (n :: names) ↔ Hit m ps (join dir n) names := by
  have hroot : fromRoot dir ++ n :: names = fromRoot (join dir n) ++ names := by
    rw [fromRoot_join_entry hdir hn, List.append_assoc]
    rfl
  constructor
  · rintro ⟨hall, hfile, above, k, hk, hmatch⟩
    refine ⟨fun j hj => hall j (List.mem_cons_of_mem _ hj), hroot ▸ hfile, ?_⟩
    cases above with
    | nil => exact absurd (List.cons.inj hk).2 hne
    | cons a above => exact ⟨above, k, (List.cons.inj hk).2, hmatch⟩
  · rintro ⟨hall, hfile, above, k, rfl, hmatch⟩
    refine ⟨fun j hj => ?_, hroot ▸ hfile, n :: above, k, rfl, hmatch⟩
    rcases List.mem_cons.1 hj with rfl | hj
    · exact hn
    · exact hall j hj

/-- What a walk that enters directories `depth` deep gives for `dir`. -/
def Walked (m : Memory) (ps : List Glob.Part) (depth : Nat) (dir path : Bytes) : Prop :=
  ∃ names, Hit m ps dir names ∧ names.length ≤ depth ∧ path = join dir (Bytes.joinWith [slash] names)

/-- The walk through entries of a directory, when the walks through directories one level down are
known. -/
theorem walkEntries_ends {depth : Nat} {dir : Bytes} {es : List DirEntry} {found : List Bytes}
    (hwalk : ∀ n found m', IsEntry n → Ends (walk ps depth (join dir n)) m found m' →
      m' = m ∧ ∀ path, path ∈ found ↔ Walked m ps depth (join dir n) path)
    (hes : ∀ e ∈ es, IsEntry e.name) (h : Ends (walkEntries ps depth dir es) m found m') :
    m' = m ∧ ∀ path, path ∈ found ↔ ∃ e ∈ es,
      if e.isDirectory then Walked m ps depth (join dir e.name) path
      else Glob.matchesName ps e.name = true ∧ path = join dir e.name := by
  induction es generalizing found with
  | nil =>
    rw [walkEntries] at h
    obtain ⟨rfl, rfl⟩ := Ends.pure_iff.1 h
    exact ⟨rfl, by simp⟩
  | cons e es ih =>
    have hsplit : ∃ first more t, (t = m ∧ ∀ path, path ∈ first ↔
          if e.isDirectory then Walked m ps depth (join dir e.name) path
          else Glob.matchesName ps e.name = true ∧ path = join dir e.name) ∧
        Ends (walkEntries ps depth dir es) t more m' ∧ found = first ++ more := by
      rw [walkEntries] at h
      split at h
      · rename_i hd
        simp only [hd, if_true]
        obtain ⟨first, t, hfirst, h⟩ := Ends.bind_iff.1 h
        obtain ⟨more, t', hmore, h⟩ := Ends.bind_iff.1 h
        obtain ⟨rfl, rfl⟩ := Ends.pure_iff.1 h
        exact ⟨first, more, t, hwalk e.name first t (hes e List.mem_cons_self) hfirst, hmore, rfl⟩
      · rename_i hd
        rw [pure_bind] at h
        obtain ⟨more, t', hmore, h⟩ := Ends.bind_iff.1 h
        obtain ⟨rfl, rfl⟩ := Ends.pure_iff.1 h
        refine ⟨_, more, m, ⟨rfl, fun path => ?_⟩, hmore, rfl⟩
        by_cases hmatch : Glob.matchesName ps e.name = true <;> simp [hd, hmatch]
    obtain ⟨first, more, t, hhead, hmore, rfl⟩ := hsplit
    obtain ⟨rfl, hhead⟩ := hhead
    obtain ⟨rfl, htail⟩ := ih (fun e he => hes e (List.mem_cons_of_mem _ he)) hmore
    exact ⟨rfl, fun path => by rw [List.mem_append, hhead, htail, List.exists_mem_cons_iff]⟩

/-- A walk gives the files that match and lie at most `depth` directories down. -/
theorem walk_ends {depth : Nat} {dir : Bytes} {found : List Bytes} (hm : Sound m) (hdir : dir ≠ [])
    (h : Ends (walk ps depth dir) m found m') :
    m' = m ∧ ∀ path, path ∈ found ↔ Walked m ps depth dir path := by
  induction depth generalizing dir found m' with
  | zero =>
    rw [walk] at h
    obtain ⟨rfl, rfl⟩ := Ends.pure_iff.1 h
    refine ⟨rfl, fun path => ⟨fun hpath => absurd hpath List.not_mem_nil, ?_⟩⟩
    rintro ⟨names, ⟨-, -, above, n, rfl, -⟩, hlen, -⟩
    simp at hlen
  | succ depth ih =>
    rw [walk, Ends.bind_iff] at h
    obtain ⟨es, t, hlist, h⟩ := h
    obtain ⟨rfl, hes⟩ := list_ends hm hlist
    obtain ⟨rfl, hfound⟩ := walkEntries_ends
      (fun n found m' _ hn => ih (join_ne_nil hdir n) hn) (fun e he => ((hes _ _).1 he).1) h
    refine ⟨rfl, fun path => (hfound path).trans ?_⟩
    constructor
    · rintro ⟨⟨n, d⟩, he, hpath⟩
      obtain ⟨hn, e, hlookup, hkind⟩ := (hes n d).1 he
      cases d with
      | true =>
        obtain ⟨names, hhit, hlen, rfl⟩ := hpath
        have hne : names ≠ [] := by
          obtain ⟨-, -, above, k, rfl, -⟩ := hhit
          simp
        refine ⟨n :: names, (Hit.cons_iff hdir hn hne).2 hhit, by simpa using hlen, ?_⟩
        exact join_join hdir hn hhit.entries
      | false =>
        obtain ⟨hmatch, rfl⟩ := hpath
        cases e with
        | directory => cases hkind
        | file c =>
          have hfile : ∃ c, m'.fileAt? (key (fromRoot dir ++ [n])) = some c :=
            ⟨c, fileAt?_eq_some.2 hlookup⟩
          exact ⟨[n], (Hit.one_iff hn).2 ⟨hfile, hmatch⟩, by simp, rfl⟩
    · rintro ⟨names, hhit, hlen, rfl⟩
      cases names with
      | nil =>
        obtain ⟨-, -, above, k, hk, -⟩ := hhit
        simp at hk
      | cons n names =>
        have hn := hhit.entries n List.mem_cons_self
        obtain ⟨c, hc⟩ := hhit.file
        by_cases hne : names = []
        · subst hne
          refine ⟨⟨n, false⟩, (hes n false).2 ⟨hn, _, fileAt?_eq_some.1 hc, rfl⟩, ?_⟩
          exact ⟨((Hit.one_iff hn).1 hhit).2, rfl⟩
        · have hall : ∀ k ∈ fromRoot dir ++ [n] ++ names, IsEntry k := by
            intro k hk
            rw [List.append_assoc, List.mem_append] at hk
            rcases hk with hk | hk
            · exact isEntry_fromRoot dir k hk
            · exact hhit.entries k hk
          have hbelow : m'.lookup (key (fromRoot dir ++ [n] ++ names)) = some (.file c) := by
            rw [List.append_assoc]
            exact fileAt?_eq_some.1 hc
          refine ⟨⟨n, true⟩, (hes n true).2 ⟨hn, _, hm.above hall hbelow hne, rfl⟩, names,
            (Hit.cons_iff hdir hn hne).1 hhit, by simpa using hlen, ?_⟩
          exact (join_join hdir hn fun k hk => hhit.entries k (List.mem_cons_of_mem _ hk)).symm

/-- **A search finds every file below the directory whose name matches, and no other path.** -/
theorem find_ends {dir pattern : Bytes} {found : List Bytes} (hm : Sound m) (hdir : dir ≠ [])
    (h : Ends (find dir pattern) m found m') :
    m' = m ∧ ∃ ps, Glob.parse? pattern = some ps ∧ ∀ path, path ∈ found ↔
      ∃ names, Hit m ps dir names ∧ path = join dir (Bytes.joinWith [slash] names) := by
  unfold find at h
  split at h
  · simp at h
  rename_i ps hps
  simp only [Ends.get_bind_iff] at h
  rw [Ends.bind_iff] at h
  obtain ⟨paths, t, hwalk, h⟩ := h
  obtain ⟨rfl, rfl⟩ := Ends.pure_iff.1 h
  obtain ⟨rfl, hpaths⟩ := walk_ends hm hdir hwalk
  refine ⟨rfl, ps, hps, fun path => ?_⟩
  rw [Bytes.sort, List.mem_mergeSort, hpaths]
  constructor
  · rintro ⟨names, hhit, -, hpath⟩
    exact ⟨names, hhit, hpath⟩
  · rintro ⟨names, hhit, hpath⟩
    obtain ⟨c, hc⟩ := hhit.file
    have hlen := hm.length_lt (fun k hk => (List.mem_append.1 hk).elim
      (isEntry_fromRoot dir k) (hhit.entries k)) (fileAt?_eq_some.1 hc)
    rw [List.length_append] at hlen
    refine ⟨names, hhit, ?_, hpath⟩
    show names.length ≤ _ + 1
    omega

theorem findFirst?_ends {dir pattern : Bytes} {found : Option Bytes} (hm : Sound m)
    (hdir : dir ≠ []) (h : Ends (findFirst? dir pattern) m found m') :
    m' = m ∧ ∀ path, found = some path → ∃ ps names, Glob.parse? pattern = some ps ∧
      Hit m ps dir names ∧ path = join dir (Bytes.joinWith [slash] names) := by
  unfold findFirst? at h
  rw [Ends.bind_iff] at h
  obtain ⟨paths, t, hfind, h⟩ := h
  obtain ⟨rfl, rfl⟩ := Ends.pure_iff.1 h
  obtain ⟨rfl, ps, hps, hpaths⟩ := find_ends hm hdir hfind
  refine ⟨rfl, fun path hpath => ?_⟩
  obtain ⟨names, hhit, heq⟩ := (hpaths path).1 (List.mem_of_head? hpath)
  exact ⟨ps, names, hps, hhit, heq⟩

theorem ran_stat (m : Memory) (p : Bytes) : (ran (Memory.stat p) m).2 = m := by
  have hkeep := ran_entryAt m p
  rw [Memory.stat, ran_bind]
  generalize ran (entryAt p) m = out at hkeep
  obtain ⟨r, t⟩ := out
  cases r <;> exact hkeep

theorem isDirectory_ends {path : Bytes} {d : Bool} (h : Ends (isDirectory path) m d m') :
    m' = m ∧ (d = true → path ≠ []) := by
  unfold isDirectory at h
  split at h
  · obtain ⟨rfl, rfl⟩ := Ends.pure_iff.1 h
    exact ⟨rfl, nofun⟩
  rename_i hne
  refine ⟨?_, fun _ hnil => hne (by simp [hnil])⟩
  have hkeep := ran_stat m path
  unfold Ends at h
  rw [ran_tryCatch, ran_bind] at h
  have hstat : ran (FileStore.stat path : FileM Memory FileInfo) m = ran (Memory.stat path) m := rfl
  rw [hstat] at h
  generalize ran (Memory.stat path) m = out at h hkeep
  obtain ⟨r, t⟩ := out
  obtain rfl : t = m := hkeep
  cases r with
  | error f => exact (Prod.mk.inj h).2.symm
  | ok info => exact (Prod.mk.inj h).2.symm

end Files

end Flowsmith
