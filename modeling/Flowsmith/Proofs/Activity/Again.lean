import Flowsmith.Proofs.Activity.Usings
import Flowsmith.Proofs.Source.Collapse
import Flowsmith.Proofs.Source.Reheaded

/-!
# Running the passes over an activity again

The passes over a conventionally laid out activity have nothing to do when they are run again: the header
that the last pass settles holds nothing that another pass looks for, and the class is found again behind
it.

* `Done.rehead` : the first three passes do not see the modifiers of a class;
* `settledHeader_eq` : the header holds the settled modifiers;
* `settleClass_again` : the last pass runs twice;
* `migrate_again` : all passes run twice; `migrate_twice_differs` : where they do not.
-/

namespace Flowsmith.Activity

open Bytes (newline isLetterByte)
open Source (IsDotted EndsPlain ClassPlace WordOf wordChunks render modifierWords classWord)
open Text (isSpace closedLine? fullLine leads LinePattern isMargin Clear)

/-! ## Modifiers and the keyword behind them -/

def isLow (c : UInt8) : Bool := (0x61 ≤ c && c ≤ 0x7A) || c == 0x20

theorem isLow_of_mem_modifierWords : ∀ w ∈ modifierWords, ∀ c ∈ w, isLow c = true ∧ isLetterByte c = true := by
  have h : (modifierWords.all fun w => w.all fun c => isLow c && isLetterByte c) = true := rfl
  simpa using h

theorem isLow_of_mem_classWord : ∀ c ∈ classWord, isLow c = true ∧ isLetterByte c = true := by
  have h : (classWord.all fun c => isLow c && isLetterByte c) = true := rfl
  simpa using h

theorem isLow_of_mem_render (ws : List (WordOf modifierWords)) :
    ∀ c ∈ render (wordChunks ws), isLow c = true := by
  intro c hc
  rw [Source.render_wordChunks, List.mem_flatMap] at hc
  obtain ⟨w, hw, hc⟩ := hc
  obtain ⟨v, -, rfl⟩ := List.mem_map.1 hw
  rcases List.mem_append.1 hc with hc | hc
  · exact (isLow_of_mem_modifierWords v.1 v.2 c hc).1
  · rw [List.mem_singleton.1 hc]
    decide

theorem not_isTail_of_isLow {c : UInt8} (h : isLow c = true) : Utf8.isTail c = false := by
  have hc := Bytes.forall_byte (fun c => !isLow c || !Utf8.isTail c) rfl c
  simpa [h] using hc

theorem newline_not_mem_render (ws : List (WordOf modifierWords)) : newline ∉ render (wordChunks ws) := by
  intro hmem
  have hlow := isLow_of_mem_render ws newline hmem
  revert hlow
  decide

theorem newline_not_mem_row (ws : List (WordOf modifierWords)) :
    newline ∉ render (wordChunks ws) ++ classWord := by
  rw [List.mem_append, not_or]
  exact ⟨newline_not_mem_render ws, by decide⟩

theorem apart_space {s : Bytes} (h : ∀ c, s.head? = some c → isLetterByte c = true) :
    Source.Apart (0x20 :: s) := by
  refine ⟨fun z hz => ?_, fun hsemi => ?_⟩
  · cases hz
    exact Or.inl (by decide)
  · cases s with
    | nil => cases hsemi
    | cons c s =>
      have hc := h c rfl
      have hspace : isSpace c = false := by
        cases hs : isSpace c with
        | false => rfl
        | true =>
          have hblank := Source.isBlankByte_of_isSpace hs
          rw [Source.isBlankByte_of_isLetterByte hc] at hblank
          cases hblank
      rw [List.dropWhile_cons_of_pos (by decide), List.dropWhile_cons_of_neg (by simp [hspace])] at hsemi
      cases hsemi
      revert hc
      decide

/-- Modifiers and the keyword behind them begin with a word in front of which nothing has to stand. -/
theorem exists_word (ws : List (WordOf modifierWords)) {r : Bytes} (hr : Source.Apart r) :
    ∃ m s, render (wordChunks ws) ++ (classWord ++ r) = m ++ s ∧ Source.Apart s ∧
      (m ∈ modifierWords ∨ m = classWord) := by
  cases ws with
  | nil => exact ⟨classWord, r, rfl, hr, Or.inr rfl⟩
  | cons w ws =>
    refine ⟨w.1, 0x20 :: (render (wordChunks ws) ++ (classWord ++ r)), ?_, apart_space fun c hc => ?_,
      Or.inl w.2⟩
    · rw [Source.render_wordChunks, List.map_cons, List.flatMap_cons, ← Source.render_wordChunks]
      simp
    · obtain ⟨y, s, heq, hy⟩ := Source.exists_letter ws r
      rw [heq] at hc
      cases hc
      exact hy

theorem not_endsName_of_isLetterByte {c : UInt8} (h : isLetterByte c = true) : endsName c = false := by
  have hc := Bytes.forall_byte (fun c => !isLetterByte c || !endsName c) rfl c
  simpa [h] using hc

theorem letters_of_word {m : Bytes} (h : m ∈ modifierWords ∨ m = classWord) :
    m ≠ [] ∧ ∀ c ∈ m, isLetterByte c = true := by
  rcases h with h | rfl
  · have hne : ∀ w ∈ modifierWords, w ≠ [] := by decide
    exact ⟨hne m h, fun c hc => (isLow_of_mem_modifierWords m h c hc).2⟩
  · exact ⟨by decide, fun c hc => (isLow_of_mem_classWord c hc).2⟩

/-- No name of a namespace ends behind the place where modifiers and the keyword stand. -/
theorem not_name_of_apart {space n₁ n₂ m s b r : Bytes} (h : IsDotted space) (hspace : space = n₁ ++ n₂)
    (hm : m ∈ modifierWords ∨ m = classWord) (hs : Source.Apart s) (heq : m ++ s = n₂ ++ (b ++ 0x3B :: r))
    (hb : ∀ c ∈ b, isSpace c = true) : False := by
  obtain ⟨hne, hletters⟩ := letters_of_word hm
  have hopen : s ≠ b ++ 0x3B :: r := by
    rintro rfl
    apply hs.open_
    rw [dropWhile_isSpace hb fun c hc => by cases hc; decide]
    rfl
  rcases List.append_eq_append_iff.1 heq with ⟨a, hn₂, ha⟩ | ⟨a, ha, hrest⟩
  · cases a with
    | nil => exact hopen ha
    | cons z a =>
      have hz : z ∈ space := by simp [hspace, hn₂]
      have hforeign := not_isForeign_of_mem h hz
      rcases hs.head z (by rw [ha]; rfl) with hblank | rfl | rfl
      · have hz' := Bytes.forall_byte (fun c => !Source.isBlankByte c || isForeign c) rfl z
        simp [hblank, hforeign] at hz'
      · revert hforeign
        decide
      · -- a sign that begins a word does not stand behind a letter
        have hchain := Source.isChain_dotted h
        obtain ⟨m', x, rfl⟩ : ∃ m' x, m = m' ++ [x] :=
          ⟨m.dropLast, m.getLast hne, (List.dropLast_concat_getLast hne).symm⟩
        have hsplit : space = (n₁ ++ m') ++ x :: '@'.toUInt8 :: a := by
          rw [hspace, hn₂]
          simp
        rw [hsplit, List.isChain_append_cons_cons] at hchain
        have hdot := hchain.2.1 rfl
        have hx := hletters x (by simp)
        rw [hdot] at hx
        revert hx
        decide
  · cases a with
    | nil => exact hopen hrest.symm
    | cons z a =>
      have hend := endsName_head hb (c := z) (by rw [hrest]; rfl)
      rw [not_endsName_of_isLetterByte (hletters z (by simp [ha]))] at hend
      cases hend

theorem not_beginsUsing {space m s : Bytes} (hm : m ∈ modifierWords ∨ m = classWord) (hs : Source.Apart s) :
    ¬ BeginsUsing space (m ++ s) := by
  rintro ⟨g, b, r, heq, hg, hgspace, -⟩
  have hother : m ≠ "using" := by
    rcases hm with hm | rfl
    · rintro rfl
      revert hm
      decide
    · decide
  obtain ⟨-, hletters⟩ := letters_of_word hm
  obtain ⟨d, g, rfl⟩ := List.exists_cons_of_ne_nil hg
  rcases List.append_eq_append_iff.1 heq with ⟨a, ha, hrest⟩ | ⟨a, ha, hrest⟩
  · cases a with
    | nil => exact hother (by rw [ha, List.append_nil])
    | cons z a =>
      have hz : z ∈ ("using" : Bytes) := by simp [ha]
      have hall : (("using" : Bytes).all fun z =>
          !Source.isBlankByte z && z != '/'.toUInt8 && z != '@'.toUInt8) = true := rfl
      have hz' := List.all_eq_true.1 hall z hz
      simp only [Bool.and_eq_true, Bool.not_eq_true', bne_iff_ne] at hz'
      obtain ⟨⟨h₁, h₂⟩, h₃⟩ := hz'
      rcases hs.head z (by rw [hrest]; rfl) with h | h | h
      · rw [h₁] at h
        cases h
      · exact h₂ h
      · exact h₃ h
  · cases a with
    | nil => exact hother (by rw [ha, List.append_nil])
    | cons z a =>
      obtain rfl := (List.cons.inj hrest).1
      have hend := not_endsName_of_isLetterByte (hletters d (by simp [ha]))
      rw [endsName, hgspace d List.mem_cons_self, Bool.true_or] at hend
      cases hend

/-! ## The passes do not see the header -/

theorem not_endsPlain {a : Bytes} {z : UInt8} (hz : isLetterByte z = true) : ¬ EndsPlain (a ++ [z]) := by
  intro h
  have hplain := h z List.getLast?_concat
  rw [hz] at hplain
  cases hplain

theorem exists_concat {a : Bytes} (h : a ≠ []) : ∃ b z, a = b ++ [z] :=
  ⟨a.dropLast, a.getLast h, (List.dropLast_concat_getLast h).symm⟩

section Rehead

variable {pre r : Bytes} (ws ws' : List (WordOf modifierWords)) (hplain : EndsPlain pre) (hr : Source.Apart r)

include hplain hr

/-- **What a text imports** does not depend on the modifiers of its class. -/
theorem imports_rehead {space : Bytes} (h : IsDotted space)
    (himports : imports (pre ++ (render (wordChunks ws) ++ (classWord ++ r))) space = true) :
    imports (pre ++ (render (wordChunks ws') ++ (classWord ++ r))) space = true := by
  obtain ⟨m, s, hms, hs, hm⟩ := exists_word ws hr
  obtain ⟨hne, hletters⟩ := letters_of_word hm
  rw [imports_iff] at himports ⊢
  obtain ⟨p, t, heq, hp, ht⟩ := himports
  rcases List.append_eq_append_iff.1 heq with ⟨w, rfl, hw⟩ | ⟨w, rfl, rfl⟩
  · by_cases hnil : w = []
    · subst hnil
      rw [List.nil_append] at hw
      rw [← hw, hms] at ht
      exact absurd ht (not_beginsUsing hm hs)
    · -- the directive stands behind a line feed, and so behind the keyword
      have hmem : newline ∈ w := by
        by_contra hline
        rw [Text.leads_append pre hline, Bool.and_eq_true, List.all_eq_true] at hp
        obtain ⟨c, w, rfl⟩ := List.exists_cons_of_ne_nil hnil
        obtain ⟨d, m, rfl⟩ := List.exists_cons_of_ne_nil hne
        rw [hms] at hw
        obtain rfl := (List.cons.inj hw).1
        have hend := not_endsName_of_isLetterByte (hletters d List.mem_cons_self)
        rw [endsName, hp.2 d List.mem_cons_self, Bool.true_or] at hend
        cases hend
      rw [← List.append_assoc] at hw
      rcases List.append_eq_append_iff.1 hw with ⟨w', rfl, hr'⟩ | ⟨a, ha, -⟩
      · have hmem' : newline ∈ w' := (List.mem_append.1 hmem).resolve_left (newline_not_mem_row ws)
        refine ⟨pre ++ (render (wordChunks ws') ++ classWord) ++ w', t, ?_, ?_, ht⟩
        · rw [hr']
          simp
        · rwa [Text.leads_append_of_mem _ (pre ++ (render (wordChunks ws) ++ classWord)) hmem',
            List.append_assoc]
      · refine absurd ?_ (newline_not_mem_row ws)
        rw [ha]
        exact List.mem_append_left _ hmem
  · by_cases hnil : w = []
    · subst hnil
      rw [List.nil_append, hms] at ht
      exact absurd ht (not_beginsUsing hm hs)
    have hhead : ∀ c, (render (wordChunks ws) ++ (classWord ++ r)).head? = some c → endsName c = false := by
      intro c hc
      obtain ⟨y, s', hletter, hy⟩ := Source.exists_letter ws r
      rw [hletter] at hc
      cases hc
      exact not_endsName_of_isLetterByte hy
    rcases ht.cut (ne_nil_of_dotted h) hhead with hall | ⟨a, -, ha⟩ | ⟨g, n₁, n₂, b, r', hspace, -, -, -,
      hrest, hb⟩
    · exact ⟨p, w ++ (render (wordChunks ws') ++ (classWord ++ r)), by rw [List.append_assoc], hp, hall _⟩
    · -- the text in front of the header does not end in a word
      exfalso
      obtain ⟨w', z, rfl⟩ := exists_concat hnil
      have hz : isLetterByte z = true := by
        have hall : ∀ c ∈ ("using" : Bytes), isLetterByte c = true := List.all_eq_true.1 rfl
        refine hall z ?_
        rw [← ha]
        simp
      rw [← List.append_assoc] at hplain
      exact not_endsPlain hz hplain
    · rw [hms] at hrest
      exact (not_name_of_apart h hspace hm hs hrest hb).elim

end Rehead

theorem EndsPlain.right {a b : Bytes} (h : EndsPlain (a ++ b)) (hb : b ≠ []) : EndsPlain b := by
  obtain ⟨b, z, rfl⟩ := exists_concat hb
  intro x hx
  apply h x
  rw [← List.append_assoc, List.getLast?_concat]
  rwa [List.getLast?_concat] at hx

section Clear

variable {pre r : Bytes} {ws ws' : List (WordOf modifierWords)} {f : Bytes → Option Nat}
  {Head : Bytes → Prop} {mark : UInt8} (hf : Headed f Head mark) (hplain : EndsPlain pre)

include hf

theorem closedLine?_rehead (w : Bytes)
    (h : (closedLine? mark (w ++ (render (wordChunks ws') ++ (classWord ++ r)))).isSome = true) :
    (closedLine? mark (w ++ (render (wordChunks ws) ++ (classWord ++ r)))).isSome = true := by
  by_cases hw : newline ∈ w
  · exact (closedLine?_congr hf.stop (Text.fullLine_append_of_mem _ _ hw)).1 h
  have hclosed : ∀ ws : List (WordOf modifierWords),
      (closedLine? mark (w ++ (render (wordChunks ws) ++ (classWord ++ r)))).isSome
        = (closedLine? mark (classWord ++ r)).isSome := fun ws => by
    have hline : newline ∉ w ++ render (wordChunks ws) := by
      rw [List.mem_append, not_or]
      exact ⟨hw, newline_not_mem_render ws⟩
    rw [← List.append_assoc, closedLine?_append hf.stop hline fun c hc => ?_]
    cases hc
    decide
  rw [hclosed] at h ⊢
  exact h

include hplain

/-- **A pattern that matches nowhere** matches nowhere behind other modifiers, when no match begins among
modifiers and a match that goes on over them goes on over others. -/
theorem Clear.rehead
    (hinside : ∀ h : Bytes, h ≠ [] → (∀ c ∈ h, isLow c = true) → f (h ++ (classWord ++ r)) = none)
    (hacross : ∀ w h y : Bytes, w ≠ [] → EndsPlain w → h ≠ [] → Head (w ++ h) →
      render (wordChunks ws') ++ (classWord ++ r) = h ++ y → (closedLine? mark y).isSome = true →
      f (w ++ (render (wordChunks ws) ++ (classWord ++ r))) ≠ none)
    (h : Clear f (pre ++ (render (wordChunks ws) ++ (classWord ++ r)))) :
    Clear f (pre ++ (render (wordChunks ws') ++ (classWord ++ r))) := by
  -- what begins behind the text in front of the header
  have hbehind : ∀ w t : Bytes, render (wordChunks ws') ++ (classWord ++ r) = w ++ t → f t = none := by
    intro w t heq
    rcases List.append_eq_append_iff.1 heq with ⟨w', rfl, hw⟩ | ⟨h₁, hh, rfl⟩
    · exact h (pre ++ render (wordChunks ws) ++ w') t (by rw [hw]; simp)
    · by_cases hnil : h₁ = []
      · subst hnil
        exact h (pre ++ render (wordChunks ws)) (classWord ++ r) (by simp)
      · exact hinside h₁ hnil fun c hc => isLow_of_mem_render ws' c (by rw [hh]; simp [hc])
  intro p t heq
  rcases List.append_eq_append_iff.1 heq with ⟨w, rfl, hw⟩ | ⟨w, rfl, rfl⟩
  · exact hbehind w t hw
  by_cases hnil : w = []
  · subst hnil
    exact hbehind [] _ rfl
  have hnone : f (w ++ (render (wordChunks ws) ++ (classWord ++ r))) = none :=
    h p _ (List.append_assoc _ _ _)
  by_contra hsome
  obtain ⟨head, y, hhead, happ, hclosed⟩ := hf.iff.1 (Option.isSome_iff_ne_none.2 hsome)
  -- a match that ends its head in front of the header is one before
  have hmatch : ∀ w', w = head ++ w' →
      (closedLine? mark (w' ++ (render (wordChunks ws') ++ (classWord ++ r)))).isSome = true → False := by
    rintro w' rfl hclosed
    have hfound : (f (head ++ w' ++ (render (wordChunks ws) ++ (classWord ++ r)))).isSome = true :=
      hf.iff.2 ⟨head, _, hhead, List.append_assoc _ _ _, closedLine?_rehead hf w' hclosed⟩
    rw [hnone] at hfound
    cases hfound
  rcases List.append_eq_append_iff.1 happ with ⟨h₂, rfl, hy⟩ | ⟨w', rfl, rfl⟩
  · by_cases hnil' : h₂ = []
    · subst hnil'
      rw [List.nil_append] at hy
      subst hy
      exact hmatch [] (by simp) hclosed
    · exact hacross w h₂ y hnil (EndsPlain.right hplain hnil) hnil' hhead hy hclosed hnone
  · exact hmatch w' rfl hclosed

end Clear

/-- Modifiers and the keyword begin with a small letter. -/
theorem isLow_head (ws : List (WordOf modifierWords)) (r : Bytes) {c : UInt8} {t : Bytes}
    (h : render (wordChunks ws) ++ (classWord ++ r) = c :: t) : isLow c = true := by
  cases hws : render (wordChunks ws) with
  | nil =>
    rw [hws] at h
    cases h
    decide
  | cons d s =>
    rw [hws] at h
    cases h
    exact isLow_of_mem_render ws c (by rw [hws]; exact List.mem_cons_self)

/-- An attribute does not begin among modifiers. -/
theorem validationOption?_inside {h : Bytes} (r : Bytes) (hne : h ≠ []) (hlow : ∀ c ∈ h, isLow c = true) :
    validationOption? (h ++ (classWord ++ r)) = none := by
  by_contra hsome
  obtain ⟨k, hk⟩ := Option.ne_none_iff_exists'.1 hsome
  obtain ⟨s, hs⟩ := validationOption?_head hk
  obtain ⟨c, h, rfl⟩ := List.exists_cons_of_ne_nil hne
  obtain rfl := (List.cons.inj hs).1
  exact absurd (hlow 0x5B List.mem_cons_self) (by decide)

/-- An attribute that goes on over modifiers goes on over others. -/
theorem validationOption?_across {r : Bytes} (ws ws' : List (WordOf modifierWords)) {w h y : Bytes}
    (hw : w ≠ []) (hplain : EndsPlain w) (hhead : OptionHead (w ++ h))
    (heq : render (wordChunks ws') ++ (classWord ++ r) = h ++ y)
    (hclosed : (closedLine? ']'.toUInt8 y).isSome = true) :
    validationOption? (w ++ (render (wordChunks ws) ++ (classWord ++ r))) ≠ none := by
  rw [← Option.isSome_iff_ne_none]
  apply headed_validationOption.iff.2
  have hfirst : ∀ t, render (wordChunks ws') ++ (classWord ++ r) ≠ mention ++ t := fun t ht =>
    absurd (isLow_head ws' r ht) (by decide)
  obtain ⟨x, hx, hline⟩ := hhead
  obtain ⟨c, w, rfl⟩ := List.exists_cons_of_ne_nil hw
  obtain ⟨rfl, hrest⟩ := List.cons.inj hx
  rcases List.append_eq_append_iff.1 hrest with ⟨a, rfl, rfl⟩ | ⟨a, rfl, ha⟩
  · -- the mention stands behind the keyword
    obtain ⟨e, rfl, rfl⟩ : ∃ e, a = render (wordChunks ws') ++ classWord ++ e ∧ r = e ++ (mention ++ y) := by
      rw [← List.append_assoc, List.append_assoc a] at heq
      rcases List.append_eq_append_iff.1 heq with ⟨e, ha, hr⟩ | ⟨e, ha, hr⟩
      · exact ⟨e, ha, hr⟩
      · cases e with
        | nil => exact ⟨[], by rw [ha, List.append_nil, List.append_nil], hr.symm⟩
        | cons d e =>
          exfalso
          obtain rfl := (List.cons.inj hr).1
          have hmem : 'V'.toUInt8 ∈ render (wordChunks ws') ++ classWord := by
            rw [ha]
            exact List.mem_append_right a List.mem_cons_self
          rcases List.mem_append.1 hmem with hmem | hmem
          · exact absurd (isLow_of_mem_render ws' _ hmem) (by decide)
          · exact absurd (isLow_of_mem_classWord _ hmem).1 (by decide)
    simp only [List.mem_append, not_or] at hline
    refine ⟨0x5B :: ((w ++ (render (wordChunks ws) ++ (classWord ++ e))) ++ mention), y, ⟨_, rfl, ?_⟩, ?_,
      hclosed⟩
    · simp only [List.mem_append, not_or]
      exact ⟨hline.1, newline_not_mem_render ws, hline.2.1.2, hline.2.2⟩
    · simp
  · cases a with
    | nil =>
      rw [List.nil_append] at ha
      rw [← ha] at heq
      exact absurd heq (hfirst y)
    | cons d a =>
      -- the mention would begin in front of the modifiers, where the text does not end in a word
      exfalso
      obtain ⟨b, z, hb⟩ := exists_concat (List.cons_ne_nil d a)
      have hall : ∀ z ∈ mention, isLetterByte z = true := List.all_eq_true.1 rfl
      have hz := hall z (by rw [ha, hb]; simp)
      rw [hb, ← List.append_assoc, ← List.cons_append] at hplain
      exact not_endsPlain hz hplain

/-- A using directive does not begin among modifiers. -/
theorem workflowUsingLine?_inside {h : Bytes} (r : Bytes) (hlow : ∀ c ∈ h, isLow c = true) :
    workflowUsingLine? (h ++ (classWord ++ r)) = none := by
  by_contra hsome
  obtain ⟨head, y, ⟨ch, -, rfl⟩, heq, -⟩ :=
    headed_workflowUsingLine.iff.1 (Option.isSome_iff_ne_none.2 hsome)
  rw [← List.append_assoc, List.append_assoc ("using System" : Bytes)] at heq
  rcases List.append_eq_append_iff.1 heq with ⟨a, ha, -⟩ | ⟨a, ha, -⟩
  · -- the keyword does not end a beginning of the directive
    have hall : ∀ n ≤ ("using System" : Bytes).length, ¬ classWord <:+ List.take n ("using System" : Bytes) := by
      decide
    have htake : List.take (h ++ classWord).length ("using System" : Bytes) = h ++ classWord := by
      rw [ha]
      exact List.take_left
    apply hall (h ++ classWord).length
    · rw [ha]
      exact (List.prefix_append _ a).length_le
    · rw [htake]
      exact List.suffix_append h classWord
  · have hmem : 'S'.toUInt8 ∈ h ++ classWord := by
      rw [ha]
      exact List.mem_append_left _ (by decide)
    rcases List.mem_append.1 hmem with hmem | hmem
    · exact absurd (hlow _ hmem) (by decide)
    · exact absurd (isLow_of_mem_classWord _ hmem).1 (by decide)

/-- A using directive for a workflow namespace does not go on over modifiers. -/
theorem not_workflowHead {r : Bytes} (ws : List (WordOf modifierWords)) {w h y : Bytes} (hw : w ≠ [])
    (hplain : EndsPlain w) (hne : h ≠ []) (heq : render (wordChunks ws) ++ (classWord ++ r) = h ++ y) :
    ¬ WorkflowHead (w ++ h) := by
  rintro ⟨ch, hch, hhead⟩
  -- a small letter stands behind the place, and no letter in front of it
  have hlow : ∀ {c t}, h = c :: t → isLow c = true := by
    rintro c t rfl
    exact isLow_head ws r heq
  have hend : ∀ {a : Bytes} {z}, w = a ++ [z] → isLetterByte z = false := fun {a z} ha => by
    apply hplain z
    rw [ha, List.getLast?_concat]
  have hother : h ≠ "Workflow" := fun hh => absurd (hlow hh) (by decide)
  rcases List.append_eq_append_iff.1 hhead with ⟨e, he, hh⟩ | ⟨e, rfl, he⟩
  · have hall : ∀ n ≤ ("using System" : Bytes).length, n ≠ 0 →
        (List.take n ("using System" : Bytes)).getLast?.all (fun z => !isLetterByte z) = true →
          (List.drop n ("using System" : Bytes)).head? = some 'S'.toUInt8 := by
      decide
    obtain ⟨a, z, ha⟩ := exists_concat hw
    have htake : List.take w.length ("using System" : Bytes) = w := by
      rw [he]
      exact List.take_left
    have hdrop : List.drop w.length ("using System" : Bytes) = e := by
      rw [he]
      exact List.drop_left
    have hhead := hall w.length (by rw [he, List.length_append]; exact Nat.le_add_right _ _)
      (fun hnil => hw (List.eq_nil_of_length_eq_zero hnil)) (by
        rw [htake, ha, List.getLast?_concat, Option.all_some, hend ha]
        rfl)
    rw [hdrop] at hhead
    obtain ⟨e, rfl⟩ := List.head?_eq_some_iff.1 hhead
    exact absurd (hlow hh) (by decide)
  rcases (List.append_eq_append_iff.1 he).symm with ⟨d, hd, hh⟩ | ⟨d, hd, hh⟩
  · cases d with
    | nil => exact hother hh
    | cons c d =>
      cases e with
      | nil => exact absurd (hend (a := "using Syste") (z := 'm'.toUInt8) rfl) (by decide)
      | cons x e =>
        -- a small letter continues no character
        rw [hd] at hch
        have htail := (isTail_of_isCharacter hch).2 c (by simp)
        rw [not_isTail_of_isLow (hlow hh)] at htail
        cases htail
  · by_cases hnil : d = []
    · rw [hnil] at hh
      exact hother hh.symm
    · obtain ⟨a, z, rfl⟩ := exists_concat hnil
      have hall : ∀ z ∈ ("Workflow" : Bytes), isLetterByte z = true := List.all_eq_true.1 rfl
      have hz := hall z (by rw [hh]; simp)
      rw [hend (a := ("using System" : Bytes) ++ (ch ++ a)) (by rw [hd]; simp)] at hz
      cases hz

/-- **The first three passes do not see the modifiers of a class.** -/
theorem Done.rehead {spaces : List Bytes} {pre r : Bytes} (hspaces : ∀ space ∈ spaces, IsDotted space)
    (hplain : EndsPlain pre) (hr : Source.Apart r) (ws ws' : List (WordOf modifierWords))
    (h : Done spaces (pre ++ (render (wordChunks ws) ++ (classWord ++ r)))) :
    Done spaces (pre ++ (render (wordChunks ws') ++ (classWord ++ r))) where
  options := Clear.rehead headed_validationOption hplain (fun _ => validationOption?_inside r)
    (fun _ _ _ hw hw' _ => validationOption?_across ws ws' hw hw') h.options
  workflows := Clear.rehead headed_workflowUsingLine hplain (fun _ _ => workflowUsingLine?_inside r)
    (fun _ _ _ hw hw' hne hhead heq _ => (not_workflowHead ws' hw hw' hne heq hhead).elim) h.workflows
  imported space hspace := imports_rehead ws ws' hplain hr (hspaces space hspace) (h.imported space hspace)

/-! ## The header -/

theorem unbroken_of_isWord {w : Bytes} (h : Source.IsWord w) : Source.Unbroken w := by
  refine ⟨?_, fun a b r hw hb hr => Source.blankSize_word h hw hb fun x hx => ?_⟩
  · rintro rfl
    rw [Source.IsWord, Source.tokens, Source.tokensFrom_nil] at h
    cases h
  · rcases hr with rfl | hr
    · cases hx
    · rw [hr] at hx
      cases hx
      decide

theorem joinWith_space {ws : List Bytes} (h : ws ≠ []) :
    Bytes.joinWith [0x20] ws ++ [0x20] = ws.flatMap (· ++ [0x20]) := by
  induction ws with
  | nil => exact absurd rfl h
  | cons w ws ih =>
    cases ws with
    | nil => simp [Bytes.joinWith]
    | cons v ws =>
      rw [Bytes.joinWith, List.append_assoc, ih (List.cons_ne_nil v ws)]
      rfl

theorem removeWord_eq {header : Bytes} {ws : List Bytes} (word : Bytes) (h : header.words = ws) :
    removeWord header word = (ws.filter (· != word)).flatMap (· ++ [0x20]) := by
  unfold removeWord
  rw [h]
  by_cases hnil : ws.filter (· != word) = []
  · rw [hnil]
    rfl
  · rw [← joinWith_space hnil]
    simp [hnil]

theorem removeWord_flatMap {ws : List Bytes} (word : Bytes) (h : ∀ w ∈ ws, Source.Unbroken w) :
    removeWord (ws.flatMap (· ++ [0x20])) word = (ws.filter (· != word)).flatMap (· ++ [0x20]) :=
  removeWord_eq word (Source.words_flatMap_space ws h)

def executingModifiers (context : Bytes) (cls : Source.Class) : List Bytes :=
  if cls.members.any (isExecute context) then cls.modifiers else cls.modifiers ++ [("abstract" : Bytes)]

/-- The modifiers of a class that is not abstract, after the last pass. -/
def settledModifiers (context : Bytes) (cls : Source.Class) : List Bytes :=
  (executingModifiers context cls).filter (· != "partial")

theorem mem_executingModifiers {context w : Bytes} {cls : Source.Class}
    (h : w ∈ executingModifiers context cls) : w ∈ cls.modifiers ∨ w = "abstract" := by
  unfold executingModifiers at h
  split at h
  · exact Or.inl h
  · exact (List.mem_append.1 h).imp_right List.mem_singleton.1

theorem executingModifiers_words {context : Bytes} {cls : Source.Class}
    (h : ∀ w ∈ cls.modifiers, w ∈ modifierWords) : ∀ w ∈ executingModifiers context cls, w ∈ modifierWords := by
  intro w hw
  rcases mem_executingModifiers hw with hw | rfl
  · exact h w hw
  · decide

/-- Without `partial` there is nothing to remove. -/
theorem settledModifiers_of_not_partial {cls : Source.Class} (context : Bytes)
    (h : cls.hasModifier "partial" = false) : settledModifiers context cls = executingModifiers context cls := by
  refine List.filter_eq_self.2 fun w hw => bne_iff_ne.2 ?_
  rintro rfl
  rcases mem_executingModifiers hw with hw | hw
  · rw [Source.Class.hasModifier, List.contains_iff_mem.2 hw] at h
    cases h
  · revert hw
    decide

/-- **The header** holds the settled modifiers with a space after each. -/
theorem settledHeader_eq {cls : Source.Class} (context : Bytes)
    (h : ∀ w ∈ cls.modifiers, w ∈ modifierWords) :
    settledHeader cls context (cls.modifiers.flatMap (· ++ [0x20]))
      = (settledModifiers context cls).flatMap (· ++ [0x20]) := by
  have hheader : (if cls.members.any (isExecute context) then cls.modifiers.flatMap (· ++ [0x20])
      else cls.modifiers.flatMap (· ++ [0x20]) ++ ("abstract " : Bytes))
        = (executingModifiers context cls).flatMap (· ++ [0x20]) := by
    unfold executingModifiers
    split
    · rfl
    · rw [List.flatMap_append]
      rfl
  unfold settledHeader
  simp only [hheader]
  split
  · exact removeWord_flatMap "partial" fun w hw =>
      unbroken_of_isWord (Source.isWord_modifierWords w (executingModifiers_words h w hw))
  · rename_i hpartial
    rw [settledModifiers_of_not_partial context (by simpa using hpartial)]

/-! ## Running the passes twice -/

/-- A source after the first three passes. -/
def prepared (usings : List Bytes) (text : Bytes) : Bytes :=
  addUsings usings (dropWorkflowUsings (dropValidationOptions text))

theorem migrate_eq (usings : List Bytes) (context text : Bytes) :
    migrate usings context text = settleClass context (prepared usings text) := by
  unfold migrate apply passes prepared
  simp only [List.foldlM_cons, List.foldlM_nil, bind_pure]
  rfl

theorem any_isExecute_of_bare {c c' : Source.Class} (context : Bytes) (h : c'.bare = c.bare) :
    c'.members.any (isExecute context) = c.members.any (isExecute context) := by
  have hmembers : c'.members.map Source.Member.bare = c.members.map Source.Member.bare :=
    congrArg Source.Class.members h
  have hbare : ∀ ms : List Source.Member,
      ms.any (isExecute context) = (ms.map Source.Member.bare).any (isExecute context) := fun ms => by
    rw [List.any_map]
    rfl
  rw [hbare, hmembers, ← hbare]

def declared? (text : Bytes) : Option Source.Class :=
  match Source.outline text with
  | .ok o => o.class?
  | .error _ => none

/-- The last token that ends in front of an offset and is no comment. -/
def tokenBefore? (text : Bytes) (n : Nat) : Option Source.Token :=
  ((Source.solid (Source.tokens text)).filter fun t => decide (t.stop ≤ n)).getLast?

/-- A class whose modifiers stand in a row, and that is still declared when they are settled. -/
structure Tidy (context text : Bytes) (c : Source.Class) : Prop where
  row : text.slice c.start c.keywordStart = c.modifiers.flatMap (· ++ [0x20])
  free : settledModifiers context c = [] → ∀ t ∈ tokenBefore? text c.start, t.barsClass = false

instance (context text : Bytes) (c : Source.Class) : Decidable (Tidy context text c) :=
  decidable_of_iff ((text.slice c.start c.keywordStart = c.modifiers.flatMap (· ++ [0x20])) ∧
      (settledModifiers context c = [] → ∀ t ∈ tokenBefore? text c.start, t.barsClass = false))
    ⟨fun h => ⟨h.1, h.2⟩, fun h => ⟨h.row, h.free⟩⟩

/-- **The last pass** replaces the header of a class that is not abstract. -/
theorem settleClass_split (context : Bytes) {pre head s : Bytes} {o : Source.Outline} {c : Source.Class}
    (h : Source.outline (pre ++ (head ++ s)) = .ok o) (hc : o.class? = some c) (hstart : c.start = pre.length)
    (hkeyword : c.keywordStart = pre.length + head.length) :
    settleClass context (pre ++ (head ++ s)) = .ok (if c.hasModifier "abstract" then pre ++ (head ++ s)
      else pre ++ (settledHeader c context head ++ s)) := by
  have htake : (pre ++ (head ++ s)).take c.start = pre := by
    rw [hstart, List.take_left]
  have hdrop : (pre ++ (head ++ s)).drop c.keywordStart = s := by
    rw [hkeyword, ← List.drop_drop, List.drop_left, List.drop_left]
  have hslice : (pre ++ (head ++ s)).slice c.start c.keywordStart = head := by
    rw [hstart, hkeyword, Bytes.slice, List.drop_left, Nat.add_sub_cancel_left, List.take_left]
  unfold settleClass
  rw [h]
  simp only [bind, Except.bind, hc, htake, hdrop, hslice, List.append_assoc]
  split <;> rfl

/-- The last pass over a class whose modifiers stand in a row. -/
theorem settleClass_eq (context : Bytes) {pre s : Bytes} {ws : List (WordOf modifierWords)} {o : Source.Outline}
    {c : Source.Class} (h : Source.outline (pre ++ (render (wordChunks ws) ++ s)) = .ok o)
    (hc : o.class? = some c) (hmodifiers : c.modifiers = ws.map (·.1)) (hstart : c.start = pre.length)
    (hkeyword : c.keywordStart = pre.length + (render (wordChunks ws)).length) :
    settleClass context (pre ++ (render (wordChunks ws) ++ s))
      = .ok (if c.hasModifier "abstract" then pre ++ (render (wordChunks ws) ++ s)
          else pre ++ ((settledModifiers context c).flatMap (· ++ [0x20]) ++ s)) := by
  have hwords : ∀ w ∈ c.modifiers, w ∈ modifierWords := fun w hw => by
    rw [hmodifiers] at hw
    obtain ⟨v, -, rfl⟩ := List.mem_map.1 hw
    exact v.2
  have hheader : render (wordChunks ws) = c.modifiers.flatMap (· ++ [0x20]) := by
    rw [Source.render_wordChunks, hmodifiers]
  rw [settleClass_split context h hc hstart hkeyword, ← settledHeader_eq context hwords, ← hheader]

/-- A class that the pass leaves without `abstract` executes. -/
theorem executes_of_settled {context : Bytes} {c c' : Source.Class}
    (hmodifiers : c'.modifiers = settledModifiers context c) (habstract : c'.hasModifier "abstract" = false) :
    c.members.any (isExecute context) = true := by
  by_contra hno
  have hmem : ("abstract" : Bytes) ∈ c'.modifiers := by
    rw [hmodifiers, settledModifiers, executingModifiers, if_neg hno, List.mem_filter]
    exact ⟨List.mem_append_right _ List.mem_cons_self, by decide⟩
  rw [Source.Class.hasModifier, List.contains_iff_mem.2 hmem] at habstract
  cases habstract

theorem settledModifiers_again {context : Bytes} {c c' : Source.Class}
    (hmodifiers : c'.modifiers = settledModifiers context c)
    (hexec : c'.members.any (isExecute context) = c.members.any (isExecute context))
    (habstract : c'.hasModifier "abstract" = false) : settledModifiers context c' = c'.modifiers := by
  have hexecutes := executes_of_settled hmodifiers habstract
  rw [settledModifiers, executingModifiers, hexec, if_pos hexecutes, hmodifiers, settledModifiers,
    List.filter_filter]
  simp only [Bool.and_self]

theorem exists_class_of_settleClass {context text text2 : Bytes} (h : settleClass context text = .ok text2) :
    ∃ o c, Source.outline text = .ok o ∧ o.class? = some c ∧ c ∈ declared? text := by
  unfold settleClass at h
  obtain ⟨o, ho, h⟩ := bind_eq_ok h
  cases hc : o.class? with
  | none =>
    rw [hc] at h
    cases h
  | some c =>
    refine ⟨o, c, ho, hc, ?_⟩
    rw [declared?, ho]
    exact hc

/-- **The last pass runs twice**, and the others have nothing to do in between. -/
theorem settleClass_again {usings : List Bytes} {context text text2 : Bytes}
    (husings : ∀ space ∈ usings, IsDotted space) (hdone : Done usings text)
    (hclass : ∀ c ∈ declared? text, Tidy context text c)
    (h : settleClass context text = .ok text2) : Done usings text2 ∧ settleClass context text2 = .ok text2 := by
  obtain ⟨o, c, ho, hc, hdeclared⟩ := exists_class_of_settleClass h
  have htidy := hclass c hdeclared
  obtain ⟨pre, r, ws, P, hplace⟩ := Source.exists_classPlace ho hc htidy.row
  have hfree : settledModifiers context c = [] → ∀ t, P.getLast? = some t → t.barsClass = false := by
    intro hnil t ht
    apply htidy.free hnil t
    rwa [tokenBefore?, hplace.front]
  have heq := hplace.text_eq
  subst heq
  have hsettle := settleClass_eq context ho hc hplace.modifiers hplace.start hplace.keywordStart
  rw [h, Except.ok.injEq] at hsettle
  cases habstract : c.hasModifier "abstract" with
  | true =>
    rw [habstract, if_pos rfl] at hsettle
    subst hsettle
    exact ⟨hdone, h⟩
  | false =>
    rw [habstract, if_neg Bool.false_ne_true] at hsettle
    have hwords : ∀ w ∈ settledModifiers context c, w ∈ modifierWords := fun w hw => by
      apply executingModifiers_words _ w (List.mem_filter.1 hw).1
      intro v hv
      rw [hplace.modifiers] at hv
      obtain ⟨v, -, rfl⟩ := List.mem_map.1 hv
      exact v.2
    obtain ⟨ws', hws'⟩ : ∃ ws' : List (WordOf modifierWords), ws'.map (·.1) = settledModifiers context c :=
      ⟨(settledModifiers context c).attachWith _ hwords, List.attachWith_map_subtype_val hwords⟩
    rw [← hws', ← Source.render_wordChunks] at hsettle
    -- the class is found again behind its settled modifiers
    obtain ⟨o', c', ho', hc', hmodifiers, hstart, hkeyword, hbare⟩ := hplace.rehead ws' fun hnil =>
      hfree (by rw [← hws', hnil]; rfl)
    subst hsettle
    refine ⟨hdone.rehead husings hplace.plain hplace.apart ws ws', ?_⟩
    rw [settleClass_eq context ho' hc' hmodifiers hstart hkeyword]
    cases habstract' : c'.hasModifier "abstract" with
    | true => rfl
    | false =>
      rw [settledModifiers_again (hmodifiers.trans hws') (any_isExecute_of_bare context hbare) habstract',
        hmodifiers, ← Source.render_wordChunks]
      rfl

/-- **The passes run twice** leave a conventional source as they leave it once, when the modifiers of its
class stand in a row. -/
theorem migrate_again {usings : List Bytes} {context text text2 : Bytes} (htext : Conventional text)
    (husings : ∀ space ∈ usings, Importable space)
    (hclass : ∀ c ∈ declared? (prepared usings text), Tidy context (prepared usings text) c)
    (h : migrate usings context text = .ok text2) : migrate usings context text2 = .ok text2 := by
  rw [migrate_eq] at h ⊢
  obtain ⟨hdone, hagain⟩ := settleClass_again (fun space hspace => (husings space hspace).dotted)
    (done_of_conventional htext husings) hclass h
  rwa [prepared, hdone.passes]

def greeter : Bytes :=
  "using System.Workflow.Activities;\nusing System;\n[ValidationOption]\npublic partial class Greeter : Activity \x7b void Run() \x7b \x7d \x7d\n"

def greeterAfter : Bytes :=
  "using Acme.Flow;\nusing System;\npublic abstract class Greeter : Activity \x7b void Run() \x7b \x7d \x7d\n"

theorem migrate_again_greeter : migrate ["Acme.Flow"] "Context" greeter = .ok greeterAfter ∧
    migrate ["Acme.Flow"] "Context" greeterAfter = .ok greeterAfter := by
  have husings : ∀ space ∈ ([("Acme.Flow" : Bytes)] : List Bytes), Importable space := fun space hspace => by
    rw [List.mem_singleton.1 hspace]
    exact ⟨by decide +kernel, by decide, by decide +kernel⟩
  have hrun : migrate ["Acme.Flow"] "Context" greeter = .ok greeterAfter := by
    rw [greeter, greeterAfter]
    repeat rw [Bytes.ofString_ofList]
    decide +kernel
  refine ⟨hrun, ?_⟩
  have htext : Conventional greeter := by
    rw [greeter, Bytes.ofString_ofList]
    decide +kernel
  apply migrate_again htext husings _ hrun
  rw [greeter]
  repeat rw [Bytes.ofString_ofList]
  decide +kernel

/-! ## Sources that change when the passes run again -/

/-- A source in which one space follows each modifier in front of a keyword `class`. -/
def Spaced (text : Bytes) : Prop :=
  ∀ n < (Source.solid (Source.tokens text)).length,
    let before := ((Source.solid (Source.tokens text)).take n).reverse
    let modifiers := (before.takeWhile Source.isModifier).reverse
    ∀ keyword ∈ (Source.solid (Source.tokens text))[n]?, keyword.is "class" = true →
      text.slice ((modifiers.head?.map (·.start)).getD keyword.start) keyword.start
        = modifiers.flatMap (·.text ++ [0x20])

instance (text : Bytes) : Decidable (Spaced text) := by
  unfold Spaced
  infer_instance

/-- A class behind the mark of a list of bases, declared by its modifier alone. -/
def listed : Bytes := "using B;\n: partial class A\x7bvoid Execute(C c)\x7b\x7d\x7d"

def listedAfter : Bytes := "using B;\n: class A\x7bvoid Execute(C c)\x7b\x7d\x7d"

/-- A class that comes out of a comment when an attribute goes. -/
def uncovered : Bytes := "using B;\n[ValidationOption] /*]\npartial // c\nclass A\x7b\x7d/* */"

def uncoveredAfter : Bytes := "using B;\n// c abstract class A\x7b\x7d/* */"

/-- **Not every conventional source** with single spaces between its modifiers is left alone: without
modifiers the keyword may declare nothing behind a mark, what the first passes erase may uncover another
class, and a namespace that one pass drops and another adds changes its place. -/
theorem migrate_twice_differs :
    (Conventional listed ∧ Spaced listed ∧ migrate ["B"] "C" listed = .ok listedAfter ∧
      migrate ["B"] "C" listedAfter ≠ .ok listedAfter) ∧
    (Conventional uncovered ∧ Spaced uncovered ∧ migrate ["B"] "C" uncovered = .ok uncoveredAfter ∧
      migrate ["B"] "C" uncoveredAfter ≠ .ok uncoveredAfter) ∧
    (IsDotted "B" ∧ IsDotted "SystemXWorkflow" ∧ Conventional "abstract class A\x7b\x7d" ∧
      Spaced "abstract class A\x7b\x7d" ∧ migrate ["B", "SystemXWorkflow"] "C" "abstract class A\x7b\x7d"
        = .ok "using B;\nusing SystemXWorkflow;\nabstract class A\x7b\x7d" ∧
      migrate ["B", "SystemXWorkflow"] "C" "using B;\nusing SystemXWorkflow;\nabstract class A\x7b\x7d"
        = .ok "using SystemXWorkflow;\nusing B;\nabstract class A\x7b\x7d") := by
  rw [listed, listedAfter, uncovered, uncoveredAfter]
  repeat rw [Bytes.ofString_ofList]
  refine ⟨⟨?_, ?_, ?_, ?_⟩, ⟨?_, ?_, ?_, ?_⟩, ?_, ?_, ?_, ?_, ?_, ?_⟩
  all_goals decide +kernel

end Flowsmith.Activity
