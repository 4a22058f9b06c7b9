import Flowsmith.Proofs.Source.Retoken

/-!
# Tokens of a text with collapsed blanks

* `respaced_collapse` : collapsing changes the blanks of a text and nothing else;
* `collapse_collapse` : a text is collapsed once and for all.
-/

namespace Flowsmith.Source

open Utf8 (isTail)

/-! ## Blanks become single spaces -/

theorem wordsFrom_nil (word : Bytes) :
    Bytes.wordsFrom word [] = if word.isEmpty then [] else [word.reverse] := by
  rw [Bytes.wordsFrom]

theorem wordsFrom_byte {c : UInt8} {s : Bytes} (word : Bytes) (h : Text.blankSize (c :: s) = 0) :
    Bytes.wordsFrom word (c :: s) = Bytes.wordsFrom (c :: word) s := by
  rw [Bytes.wordsFrom, h]

theorem wordsFrom_blank {c : UInt8} {s : Bytes} {k : Nat} (word : Bytes)
    (h : Text.blankSize (c :: s) = k + 1) :
    Bytes.wordsFrom word (c :: s)
      = (if word.isEmpty then [] else [word.reverse]) ++ Bytes.wordsFrom [] (s.drop k) := by
  rw [Bytes.wordsFrom, h]

theorem drop_of_blankSize {c : UInt8} {s : Bytes} {k : Nat} (h : Text.blankSize (c :: s) = k + 1) :
    ∃ e ∈ Text.blankEncodings, c :: s = e ++ s.drop k := by
  obtain ⟨e, he, ⟨r, hr⟩, hlen⟩ := blankSize_eq_succ h
  refine ⟨e, he, ?_⟩
  have hdrop := congrArg (List.drop (k + 1)) hr
  rw [List.drop_succ_cons, ← hlen, List.drop_left] at hdrop
  rw [← hr, hdrop]

theorem ne_newline_of_blankSize {c : UInt8} {s : Bytes} (h : Text.blankSize (c :: s) = 0) :
    c ≠ Bytes.newline := by
  rintro rfl
  cases h

/-- Joining the words of a text, and joining them to a word that has begun, changes its blanks
only. -/
theorem respaced_words (s : Bytes) :
    (∀ word, word ≠ [] → ∃ t, Bytes.joinWith [0x20] (Bytes.wordsFrom word s) = word.reverse ++ t ∧
      Respaced false s t) ∧
    ((Bytes.wordsFrom [] s = [] ∧ Blank s) ∨
      (Bytes.wordsFrom [] s ≠ [] ∧ ∃ u s', s = u ++ s' ∧ Blank u ∧
        Respaced false s' (Bytes.joinWith [0x20] (Bytes.wordsFrom [] s)))) := by
  match s with
  | [] =>
    refine ⟨fun word hw => ⟨[], ?_, .nil⟩, Or.inl ⟨wordsFrom_nil [], .nil⟩⟩
    rw [wordsFrom_nil, if_neg (by simpa using hw)]
    simp [Bytes.joinWith]
  | c :: s =>
    cases hsize : Text.blankSize (c :: s) with
    | zero =>
      have hc := ne_newline_of_blankSize hsize
      have ih := (respaced_words s).1
      constructor
      · intro word hw
        obtain ⟨t, hjoin, ht⟩ := ih (c :: word) (by simp)
        refine ⟨c :: t, ?_, .byte hc ht⟩
        rw [wordsFrom_byte word hsize, hjoin]
        simp
      · obtain ⟨t, hjoin, ht⟩ := ih [c] (by simp)
        rw [wordsFrom_byte [] hsize, hjoin]
        refine Or.inr ⟨?_, [], c :: s, rfl, .nil, .byte hc ht⟩
        intro hnil
        rw [hnil] at hjoin
        cases hjoin
    | succ k =>
      obtain ⟨e, he, hs⟩ := drop_of_blankSize hsize
      have hblank : ∀ {u : Bytes}, Blank u → Blank (e ++ u) := fun hu => .unit he hu
      have hne : e ≠ [] := by
        rintro rfl
        cases isBlankForm_of_mem he
      rcases (respaced_words (s.drop k)).2 with ⟨hnil, hb⟩ | ⟨hsome, u, s', hrest, hu, ht⟩
      · constructor
        · intro word hw
          refine ⟨[], ?_, ?_⟩
          · rw [wordsFrom_blank word hsize, hnil, if_neg (by simpa using hw)]
            simp [Bytes.joinWith]
          · rw [hs]
            exact .last (hblank hb)
        · refine Or.inl ⟨?_, ?_⟩
          · rw [wordsFrom_blank [] hsize, hnil]
            rfl
          · rw [hs]
            exact hblank hb
      · constructor
        · intro word hw
          refine ⟨0x20 :: Bytes.joinWith [0x20] (Bytes.wordsFrom [] (s.drop k)), ?_, ?_⟩
          · rw [wordsFrom_blank word hsize, if_neg (by simpa using hw), List.singleton_append]
            obtain ⟨w, ws, hws⟩ := List.exists_cons_of_ne_nil hsome
            rw [hws]
            simp [Bytes.joinWith]
          · rw [hs, hrest, ← List.append_assoc]
            refine .run (v := [0x20]) (.space (hblank hu) (by simp [hne])) ?_
            rwa [hrest] at ht
        · rw [wordsFrom_blank [] hsize]
          refine Or.inr ⟨hsome, e ++ u, s', ?_, hblank hu, ht⟩
          rw [hs, hrest, List.append_assoc]
termination_by s.length
decreasing_by
  all_goals
    simp only [List.length_drop, List.length_cons]
    omega

/-- Collapsing changes the blanks of a text that begins with none. -/
theorem respaced_collapse {c : UInt8} {s : Bytes} (h : Text.blankSize (c :: s) = 0) :
    Respaced false (c :: s) (Bytes.collapse (c :: s)) := by
  obtain ⟨t, hjoin, ht⟩ := (respaced_words s).1 [c] (by simp)
  unfold Bytes.collapse Bytes.words
  rw [wordsFrom_byte [] h, hjoin]
  exact .byte (ne_newline_of_blankSize h) ht

/-! ## Collapsed texts -/

theorem blankSize_space {b s r : Bytes} (hb : b ≠ []) (hr : r = [] ∨ r.head? = some 0x20)
    (h : Text.blankSize (b ++ s) = 0) : Text.blankSize (b ++ r) = 0 := by
  cases hsize : Text.blankSize (b ++ r) with
  | zero => rfl
  | succ k =>
    obtain ⟨e, he, hpre, hlen⟩ := blankSize_eq_succ hsize
    exfalso
    have hshort : e <+: b := by
      rcases List.prefix_or_prefix_of_prefix hpre (List.prefix_append b r) with hle | ⟨r₁, rfl⟩
      · exact hle
      · cases r₁ with
        | nil => simp
        | cons x r₁ =>
          have htail : ∀ e ∈ Text.blankEncodings, (0x20 : UInt8) ∉ e.tail := by decide
          refine absurd ?_ (htail _ he)
          obtain ⟨w, hw⟩ := hpre
          rw [List.append_assoc] at hw
          have hx := congrArg List.head? (List.append_cancel_left hw)
          obtain ⟨y, b, rfl⟩ := List.exists_cons_of_ne_nil hb
          rcases hr with rfl | hr
          · cases hx
          · rw [hr] at hx
            cases hx
            simp
    have hlong : e <+: b ++ s := hshort.trans (List.prefix_append b s)
    unfold Text.blankSize at h
    split at h
    · rename_i e' he'
      have := List.mem_of_find?_eq_some he'
      have := isBlankForm_of_mem this
      obtain rfl := List.eq_nil_of_length_eq_zero h
      cases this
    · rename_i hnone
      have := List.find?_eq_none.1 hnone e he
      exact this (List.isPrefixOf_iff_prefix.2 hlong)

/-- A word: no blank begins in it, be it at the end of a text or in front of a space. -/
def Unbroken (w : Bytes) : Prop :=
  w ≠ [] ∧ ∀ a b r : Bytes, w = a ++ b → b ≠ [] → (r = [] ∨ r.head? = some 0x20) →
    Text.blankSize (b ++ r) = 0

theorem unbroken_of_wordsFrom (s word : Bytes)
    (hword : ∀ a b, word.reverse = a ++ b → b ≠ [] → Text.blankSize (b ++ s) = 0) :
    ∀ w ∈ Bytes.wordsFrom word s, Unbroken w := by
  have hdone : word.isEmpty = false → Unbroken word.reverse := by
    intro hne
    refine ⟨by simpa using hne, fun a b r hw hb hr => ?_⟩
    exact blankSize_space hb hr (hword a b hw hb)
  have hlast : ∀ w ∈ (if word.isEmpty then [] else [word.reverse]), Unbroken w := by
    intro w hw
    cases hempty : word.isEmpty with
    | true => rw [hempty] at hw; cases hw
    | false =>
      rw [hempty] at hw
      rw [List.mem_singleton.1 hw]
      exact hdone hempty
  match s with
  | [] =>
    rw [wordsFrom_nil]
    exact hlast
  | c :: s =>
    cases hsize : Text.blankSize (c :: s) with
    | zero =>
      rw [wordsFrom_byte word hsize]
      refine unbroken_of_wordsFrom s (c :: word) fun a b hab hb => ?_
      rw [List.reverse_cons] at hab
      rcases List.append_eq_append_iff.1 hab with ⟨a', rfl, hc⟩ | ⟨b', hw, rfl⟩
      · cases a' with
        | nil =>
          rw [List.nil_append] at hc
          rw [← hc]
          exact hsize
        | cons x a' =>
          have hnil := (List.append_eq_nil_iff.1 (List.cons.inj hc).2.symm).2
          exact absurd hnil hb
      · cases b' with
        | nil => exact hsize
        | cons x b' =>
          have := hword a (x :: b') hw (by simp)
          simpa using this
    | succ k =>
      rw [wordsFrom_blank word hsize]
      intro w hw
      rcases List.mem_append.1 hw with hw | hw
      · exact hlast w hw
      · refine unbroken_of_wordsFrom (s.drop k) [] (fun a b hab hb => ?_) w hw
        exact absurd (List.append_eq_nil_iff.1 hab.symm).2 hb
termination_by s.length
decreasing_by
  all_goals
    simp only [List.length_drop, List.length_cons]
    omega

theorem wordsFrom_unbroken {b r : Bytes} (acc : Bytes)
    (h : ∀ a b' : Bytes, b = a ++ b' → b' ≠ [] → Text.blankSize (b' ++ r) = 0) :
    Bytes.wordsFrom acc (b ++ r) = Bytes.wordsFrom (b.reverse ++ acc) r := by
  induction b generalizing acc with
  | nil => rfl
  | cons c b ih =>
    have hfirst : Text.blankSize (c :: (b ++ r)) = 0 := h [] (c :: b) rfl (by simp)
    rw [List.cons_append, wordsFrom_byte acc hfirst, ih _ fun a b' hab hb' => h (c :: a) b' (by rw [hab]; rfl) hb']
    simp

theorem words_joinWith (ws : List Bytes) (h : ∀ w ∈ ws, Unbroken w) :
    Bytes.words (Bytes.joinWith [0x20] ws) = ws := by
  unfold Bytes.words
  induction ws with
  | nil => exact wordsFrom_nil []
  | cons w ws ih =>
    obtain ⟨hne, hw⟩ := h w List.mem_cons_self
    have hnonempty : (w.reverse ++ []).isEmpty = false := by simpa using hne
    cases ws with
    | nil =>
      have := wordsFrom_unbroken (b := w) (r := []) []
        fun a b' hab hb' => hw a b' [] hab hb' (Or.inl rfl)
      rw [List.append_nil] at this
      rw [Bytes.joinWith, this, wordsFrom_nil, hnonempty]
      simp
    | cons v ws =>
      have hspace : Text.blankSize (0x20 :: Bytes.joinWith [0x20] (v :: ws)) = 0 + 1 := rfl
      rw [Bytes.joinWith, List.append_assoc,
        wordsFrom_unbroken (b := w) (r := [0x20] ++ Bytes.joinWith [0x20] (v :: ws)) []
          fun a b' hab hb' => hw a b' _ hab hb' (Or.inr rfl),
        List.singleton_append, wordsFrom_blank _ hspace, hnonempty, List.drop_zero,
        ih fun x hx => h x (List.mem_cons_of_mem _ hx)]
      simp

theorem words_flatMap_space (ws : List Bytes) (h : ∀ w ∈ ws, Unbroken w) :
    Bytes.words (ws.flatMap (· ++ [0x20])) = ws := by
  unfold Bytes.words
  induction ws with
  | nil => exact wordsFrom_nil []
  | cons w ws ih =>
    obtain ⟨hne, hw⟩ := h w List.mem_cons_self
    have hnonempty : (w.reverse ++ []).isEmpty = false := by simpa using hne
    have hspace : Text.blankSize (0x20 :: ws.flatMap (· ++ [0x20])) = 0 + 1 := rfl
    rw [List.flatMap_cons, List.append_assoc, List.singleton_append,
      wordsFrom_unbroken (b := w) [] fun a b' hab hb' => hw a b' _ hab hb' (Or.inr rfl),
      wordsFrom_blank _ hspace, hnonempty, List.drop_zero, ih fun x hx => h x (List.mem_cons_of_mem _ hx)]
    simp

theorem collapse_collapse (s : Bytes) : s.collapse.collapse = s.collapse := by
  have hwords : ∀ w ∈ Bytes.words s, Unbroken w :=
    unbroken_of_wordsFrom s [] fun a b hab hb => absurd (List.append_eq_nil_iff.1 hab.symm).2 hb
  rw [Bytes.collapse, Bytes.collapse, words_joinWith _ hwords]

end Flowsmith.Source
