import Flowsmith.Proofs.Source.Respace

/-!
# Literals and comments of texts that differ in their blanks

Blanks inside a literal or a comment may change with the layout. A literal or comment that is closed
in the one text is closed in the other, at the same place.

* `ClosedQuoted`, `ClosedVerbatim`, `ClosedComment` : the rest of a literal or comment that is closed;
* `Respaced.quoted`, `Respaced.verbatim`, `Respaced.comment` : they are closed in both texts;
* `lineSize_of_respaced` : the rest of a line in both texts.
-/

namespace Flowsmith.Source

/-! ## Literals and comments -/

/-- The rest of a literal with backslash escapes, through its closing quote. -/
def ClosedQuoted (quote : UInt8) (b : Bytes) : Prop :=
  quotedEnds quote b = true ∧ quotedSize quote b = b.length

theorem quotedEnds_cons {quote c : UInt8} (s : Bytes) (h : c ≠ '\\'.toUInt8) :
    quotedEnds quote (c :: s)
      = if c = quote then true else if c = Bytes.newline then false else quotedEnds quote s := by
  cases s <;> simp [quotedEnds, h]

theorem closedQuoted_cons {quote c : UInt8} {b : Bytes} (hc : c ≠ '\\'.toUInt8) (hq : c ≠ quote) :
    ClosedQuoted quote (c :: b) ↔ c ≠ Bytes.newline ∧ ClosedQuoted quote b := by
  unfold ClosedQuoted
  rw [quotedEnds_cons b hc, quotedSize_cons b hc, if_neg hq, if_neg hq]
  by_cases hn : c = Bytes.newline
  · simp [hn]
  · simp [hn]

theorem closedQuoted_escape {quote d : UInt8} {b : Bytes} :
    ClosedQuoted quote ('\\'.toUInt8 :: d :: b) ↔ ClosedQuoted quote b := by
  simp [ClosedQuoted, quotedEnds, quotedSize]

theorem not_closedQuoted_nil {quote : UInt8} : ¬ ClosedQuoted quote [] := by
  simp [ClosedQuoted, quotedEnds]

theorem ne_of_isBlankPart {c d : UInt8} (h : isBlankPart c = true) (hd : isBlankPart d = false) :
    c ≠ d := by
  rintro rfl
  rw [h] at hd
  cases hd

/-- A literal goes over blanks that are no line feed. -/
theorem ClosedQuoted.skip {quote : UInt8} (hq : isBlankPart quote = false) {w s b r : Bytes}
    (hw : ∀ c ∈ w, isBlankPart c = true) (hb : ClosedQuoted quote b) (h : w ++ s = b ++ r) :
    ∃ b', b = w ++ b' ∧ ClosedQuoted quote b' ∧ s = b' ++ r ∧ Bytes.newline ∉ w := by
  induction w generalizing b with
  | nil => exact ⟨b, rfl, hb, h, by simp⟩
  | cons x w ih =>
    cases b with
    | nil => exact absurd hb not_closedQuoted_nil
    | cons y b =>
      obtain ⟨rfl, htail⟩ := List.cons.inj h
      have hx := hw x List.mem_cons_self
      rw [closedQuoted_cons (ne_of_isBlankPart hx (by decide)) (ne_of_isBlankPart hx hq)] at hb
      obtain ⟨b', rfl, hb', hs, hn⟩ := ih (fun c hc => hw c (List.mem_cons_of_mem _ hc)) hb.2 htail
      refine ⟨b', rfl, hb', hs, ?_⟩
      simp only [List.mem_cons, not_or]
      exact ⟨hb.1.symm, hn⟩

theorem closedQuoted_append {quote : UInt8} (hq : isBlankPart quote = false) {w b : Bytes}
    (hw : ∀ c ∈ w, isBlankPart c = true) (hn : Bytes.newline ∉ w) (hb : ClosedQuoted quote b) :
    ClosedQuoted quote (w ++ b) := by
  induction w with
  | nil => exact hb
  | cons x w ih =>
    have hx := hw x List.mem_cons_self
    rw [List.cons_append,
      closedQuoted_cons (ne_of_isBlankPart hx (by decide)) (ne_of_isBlankPart hx hq)]
    simp only [List.mem_cons, not_or] at hn
    exact ⟨fun h => hn.1 h.symm, ih (fun c hc => hw c (List.mem_cons_of_mem _ hc)) hn.2⟩

/-- Blanks of which a literal takes the first byte by an escape hold no other line feed in the second
text. -/
theorem Run.no_newline_tail {lines : Bool} {u v : Bytes} {y : UInt8} (h : Run lines u (y :: v)) :
    Bytes.newline ∉ v := by
  cases h with
  | lines _ _ hg' => exact fun hn => absurd (hg' _ hn) (by decide)
  | space _ _ => simp

theorem Respaced.cons_cases {lines : Bool} {c : UInt8} {s t : Bytes}
    (h : Respaced lines (c :: s) t) :
    (∃ t', t = c :: t' ∧ c ≠ Bytes.newline ∧ Respaced lines s t') ∨
    (∃ x u y v s' t', c = x ∧ s = u ++ s' ∧ t = y :: v ++ t' ∧ Run lines (x :: u) (y :: v) ∧
      Respaced lines s' t') ∨
    (t = [] ∧ Blank (c :: s)) := by
  generalize hs : c :: s = s₀ at h
  cases h with
  | nil => cases hs
  | byte hc h =>
    obtain ⟨rfl, rfl⟩ := List.cons.inj hs
    exact Or.inl ⟨_, rfl, hc, h⟩
  | @run u v s₀ t₀ hr h =>
    obtain ⟨x, u', y, v', rfl, rfl, -, -⟩ := hr.head
    obtain ⟨rfl, rfl⟩ := List.cons.inj hs
    exact Or.inr (Or.inl ⟨_, u', y, v', s₀, t₀, rfl, rfl, rfl, hr, h⟩)
  | last hu => exact Or.inr (Or.inr ⟨rfl, hu⟩)

/-- Two texts that begin with the same byte outside of blanks go on alike. -/
theorem Respaced.uncons {lines : Bool} {c : UInt8} {s t : Bytes} (h : Respaced lines (c :: s) t)
    (hc : isBlankPart c = false) : ∃ t', t = c :: t' ∧ Respaced lines s t' := by
  rcases h.cons_cases with ⟨t', rfl, _, h⟩ | ⟨x, u, y, v, s', t', rfl, _, _, hr, _⟩ | ⟨_, hu⟩
  · exact ⟨t', rfl, h⟩
  · rw [hr.parts.1 c List.mem_cons_self] at hc
    cases hc
  · rw [hu.parts c List.mem_cons_self] at hc
    cases hc

theorem Run.no_newline {lines : Bool} {u v : Bytes} (h : Run lines u v) (hu : Bytes.newline ∉ u) :
    Bytes.newline ∉ v := by
  cases h with
  | lines _ _ _ => simp at hu
  | space _ _ => decide

theorem not_closedQuoted_blank {quote : UInt8} (hq : isBlankPart quote = false) {b r : Bytes}
    (hu : Blank (b ++ r)) : ¬ ClosedQuoted quote b := by
  intro hb
  obtain ⟨b', hbb, hb', hnil, -⟩ := hb.skip hq (s := []) hu.parts (List.append_nil _)
  obtain ⟨rfl, -⟩ := List.append_eq_nil_iff.1 hnil.symm
  exact not_closedQuoted_nil hb'

/-- A literal with backslash escapes is closed in both texts. -/
theorem Respaced.quoted {lines : Bool} {quote : UInt8} (hq : isBlankPart quote = false)
    {b r t : Bytes} (h : Respaced lines (b ++ r) t) (hb : ClosedQuoted quote b) :
    ∃ b' r', t = b' ++ r' ∧ ClosedQuoted quote b' ∧ Respaced lines r r' := by
  match b, hb with
  | [], hb => exact absurd hb not_closedQuoted_nil
  | c :: b, hb =>
    by_cases hesc : c = '\\'.toUInt8
    · subst hesc
      obtain ⟨t, rfl, h₁⟩ := h.uncons (by decide)
      cases b with
      | nil => simp [ClosedQuoted, quotedEnds] at hb
      | cons d b =>
        rw [closedQuoted_escape] at hb
        rcases h₁.cons_cases with ⟨t', rfl, _, h₂⟩ | ⟨x, u, y, v, s', t', rfl, hs, rfl, hr, h₂⟩ |
          ⟨_, hu⟩
        · obtain ⟨b', r', rfl, hb', hrest⟩ := h₂.quoted hq hb
          exact ⟨'\\'.toUInt8 :: d :: b', r', rfl, closedQuoted_escape.2 hb', hrest⟩
        · have hparts := hr.parts
          obtain ⟨b₁, rfl, hb₁, rfl, hn⟩ := hb.skip hq
            (fun c hc => hparts.1 c (List.mem_cons_of_mem _ hc)) hs.symm
          obtain ⟨b', r', rfl, hb', hrest⟩ := h₂.quoted hq hb₁
          refine ⟨'\\'.toUInt8 :: y :: (v ++ b'), r', by simp, ?_, hrest⟩
          exact closedQuoted_escape.2 (closedQuoted_append hq
            (fun c hc => hparts.2 c (List.mem_cons_of_mem _ hc)) hr.no_newline_tail hb')
        · have hblank : ∀ c ∈ b ++ r, isBlankPart c = true := fun c hc =>
            hu.parts c (List.mem_cons_of_mem _ hc)
          obtain ⟨b', -, hb', hnil, -⟩ := hb.skip hq (s := []) hblank (List.append_nil _)
          obtain ⟨rfl, -⟩ := List.append_eq_nil_iff.1 hnil.symm
          exact absurd hb' not_closedQuoted_nil
    · by_cases hquote : c = quote
      · subst hquote
        obtain ⟨t, rfl, h₁⟩ := h.uncons hq
        have hnil : b = [] := by
          have hsize := hb.2
          rw [quotedSize_cons _ hesc, if_pos rfl, List.length_cons] at hsize
          exact List.eq_nil_of_length_eq_zero (by omega)
        subst hnil
        exact ⟨[c], t, rfl, hb, h₁⟩
      · have hb' := (closedQuoted_cons hesc hquote).1 hb
        rcases h.cons_cases with ⟨t', rfl, _, h₁⟩ | ⟨x, u, y, v, s', t', rfl, hs, rfl, hr, h₁⟩ |
          ⟨_, hu⟩
        · obtain ⟨b₁, r', rfl, hb₁, hrest⟩ := h₁.quoted hq hb'.2
          exact ⟨c :: b₁, r', rfl, (closedQuoted_cons hesc hquote).2 ⟨hb'.1, hb₁⟩, hrest⟩
        · obtain ⟨b₁, hbb, hb₁, rfl, hn⟩ := hb.skip hq hr.parts.1
            (show c :: u ++ s' = c :: b ++ r from congrArg (c :: ·) hs.symm)
          have hlen : b₁.length < b.length + 1 := by
            have := congrArg List.length hbb
            simp only [List.length_append, List.length_cons] at this
            omega
          obtain ⟨b₂, r', rfl, hb₂, hrest⟩ := h₁.quoted hq hb₁
          exact ⟨y :: v ++ b₂, r', by simp,
            closedQuoted_append hq hr.parts.2 (hr.no_newline hn) hb₂, hrest⟩
        · exact absurd hb (not_closedQuoted_blank hq hu)
termination_by b.length

/-- What holds of no empty text, and of a text that begins with a byte of a blank just when it holds of
the rest. -/
structure SkipsBlanks (P : Bytes → Prop) : Prop where
  nil : ¬ P []
  cons {x : UInt8} {b : Bytes} (hx : isBlankPart x = true) : P (x :: b) ↔ P b

namespace SkipsBlanks

variable {P : Bytes → Prop}

theorem skip (hP : SkipsBlanks P) {w s b r : Bytes} (hw : ∀ c ∈ w, isBlankPart c = true) (hb : P b)
    (h : w ++ s = b ++ r) : ∃ b', b = w ++ b' ∧ P b' ∧ s = b' ++ r := by
  induction w generalizing b with
  | nil => exact ⟨b, rfl, hb, h⟩
  | cons x w ih =>
    cases b with
    | nil => exact absurd hb hP.nil
    | cons y b =>
      obtain ⟨rfl, htail⟩ := List.cons.inj h
      rw [hP.cons (hw x List.mem_cons_self)] at hb
      obtain ⟨b', rfl, hb', hs⟩ := ih (fun c hc => hw c (List.mem_cons_of_mem _ hc)) hb htail
      exact ⟨b', rfl, hb', hs⟩

theorem append (hP : SkipsBlanks P) {w b : Bytes} (hw : ∀ c ∈ w, isBlankPart c = true) (hb : P b) :
    P (w ++ b) := by
  induction w with
  | nil => exact hb
  | cons x w ih =>
    rw [List.cons_append, hP.cons (hw x List.mem_cons_self)]
    exact ih fun c hc => hw c (List.mem_cons_of_mem _ hc)

/-- The beginning of a text for which this holds is found in the other text when it is found after the
first byte, or after the blanks, with which it begins. -/
theorem respaced (hP : SkipsBlanks P) {lines : Bool} {c : UInt8} {b r t : Bytes}
    (h : Respaced lines (c :: b ++ r) t) (hc : isBlankPart c = true) (hb : P (c :: b))
    (ih : ∀ b₁ t₁, b₁.length ≤ b.length → P b₁ → Respaced lines (b₁ ++ r) t₁ →
      ∃ b' r', t₁ = b' ++ r' ∧ P b' ∧ Respaced lines r r') :
    ∃ b' r', t = b' ++ r' ∧ P b' ∧ Respaced lines r r' := by
  rcases h.cons_cases with ⟨t', rfl, _, h₁⟩ | ⟨x, u, y, v, s', t', rfl, hs, rfl, hr, h₁⟩ | ⟨_, hu⟩
  · obtain ⟨b', r', rfl, hb', hrest⟩ := ih b t' (Nat.le_refl _) ((hP.cons hc).1 hb) h₁
    exact ⟨c :: b', r', rfl, (hP.cons hc).2 hb', hrest⟩
  · obtain ⟨b₁, hbb, hb₁, rfl⟩ := hP.skip hr.parts.1 hb
      (show c :: u ++ s' = c :: b ++ r from congrArg (c :: ·) hs.symm)
    have hlen : b₁.length ≤ b.length := by
      have := congrArg List.length hbb
      simp only [List.length_append, List.length_cons] at this
      omega
    obtain ⟨b', r', rfl, hb', hrest⟩ := ih b₁ t' hlen hb₁ h₁
    exact ⟨y :: v ++ b', r', by simp, hP.append hr.parts.2 hb', hrest⟩
  · obtain ⟨b', -, hb', hnil⟩ := hP.skip (s := []) hu.parts hb (List.append_nil _)
    obtain ⟨rfl, -⟩ := List.append_eq_nil_iff.1 hnil.symm
    exact absurd hb' hP.nil

end SkipsBlanks

/-- The rest of a literal in which a quote is written twice, through its closing quote. -/
inductive ClosedVerbatim : Bytes → Prop where
  | quote : ClosedVerbatim ['"'.toUInt8]
  | pair {b : Bytes} (h : ClosedVerbatim b) : ClosedVerbatim ('"'.toUInt8 :: '"'.toUInt8 :: b)
  | byte {c : UInt8} {b : Bytes} (hc : c ≠ '"'.toUInt8) (h : ClosedVerbatim b) :
      ClosedVerbatim (c :: b)

theorem closedVerbatim_cons {c : UInt8} {b : Bytes} (hc : c ≠ '"'.toUInt8) :
    ClosedVerbatim (c :: b) ↔ ClosedVerbatim b := by
  constructor
  · intro h
    cases h with
    | quote => exact absurd rfl hc
    | pair _ => exact absurd rfl hc
    | byte _ h => exact h
  · exact .byte hc

theorem closedVerbatim_pair {d : UInt8} {b : Bytes} :
    ClosedVerbatim ('"'.toUInt8 :: d :: b) ↔ d = '"'.toUInt8 ∧ ClosedVerbatim b := by
  constructor
  · intro h
    cases h with
    | pair h => exact ⟨rfl, h⟩
    | byte hd _ => exact absurd rfl hd
  · rintro ⟨rfl, h⟩
    exact .pair h

theorem skipsBlanks_closedVerbatim : SkipsBlanks ClosedVerbatim where
  nil := fun h => by cases h
  cons := fun hx => closedVerbatim_cons (ne_of_isBlankPart hx (by decide))

theorem ClosedVerbatim.ends {b : Bytes} (h : ClosedVerbatim b) : verbatimEnds b = true := by
  induction h with
  | quote => rfl
  | pair _ ih => simpa [verbatimEnds] using ih
  | @byte c b hc _ ih => cases b <;> simp_all [verbatimEnds]

theorem ClosedVerbatim.size {b r : Bytes} (h : ClosedVerbatim b) (hr : r.head? ≠ some '"'.toUInt8) :
    verbatimSize (b ++ r) = b.length := by
  induction h with
  | quote =>
    cases r with
    | nil => rfl
    | cons x r =>
      simp only [List.head?_cons, ne_eq, Option.some.injEq] at hr
      simp [verbatimSize, hr]
  | pair _ ih => simp [verbatimSize, ih]
  | byte hc _ ih => rw [List.cons_append, verbatimSize_cons _ hc, ih, List.length_cons]

theorem closedVerbatim_of_size {b r : Bytes} (h : verbatimEnds b = true)
    (hsize : verbatimSize (b ++ r) = b.length) :
    ClosedVerbatim b ∧ r.head? ≠ some '"'.toUInt8 := by
  fun_induction verbatimEnds b with
  | case1 => cases h
  | case2 =>
    refine ⟨.quote, fun hq => ?_⟩
    obtain ⟨r, rfl⟩ := List.head?_eq_some_iff.1 hq
    simp [verbatimSize] at hsize
  | case3 s ih =>
    simp only [List.cons_append, verbatimSize, if_true, List.length_cons,
      Nat.add_right_cancel_iff] at hsize
    exact ⟨.pair (ih h hsize).1, (ih h hsize).2⟩
  | case4 d s hd =>
    simp only [List.cons_append, verbatimSize, if_true, List.length_cons, if_neg hd] at hsize
    omega
  | case5 c s hc ih =>
    rw [List.cons_append, verbatimSize_cons _ hc, List.length_cons, Nat.add_right_cancel_iff] at hsize
    exact ⟨.byte hc (ih h hsize).1, (ih h hsize).2⟩

/-- A literal in which a quote is written twice is closed in both texts. -/
theorem Respaced.verbatim {lines : Bool} {b r t : Bytes} (h : Respaced lines (b ++ r) t)
    (hb : ClosedVerbatim b) :
    ∃ b' r', t = b' ++ r' ∧ ClosedVerbatim b' ∧ Respaced lines r r' := by
  match b, hb with
  | [], hb => exact absurd hb skipsBlanks_closedVerbatim.nil
  | c :: b, hb =>
    cases hc : isBlankPart c with
    | true =>
      exact skipsBlanks_closedVerbatim.respaced h hc hb fun b₁ t₁ _ hb₁ h₁ => h₁.verbatim hb₁
    | false =>
      obtain ⟨t, rfl, h₁⟩ := h.uncons hc
      by_cases hquote : c = '"'.toUInt8
      · subst hquote
        rcases hd : b with _ | ⟨d, b₁⟩
        · rw [hd] at h₁
          exact ⟨['"'.toUInt8], t, rfl, .quote, h₁⟩
        · have hlen : b₁.length < b.length + 1 := by
            rw [hd, List.length_cons]
            omega
          rw [hd] at h₁ hb
          obtain ⟨rfl, hpair⟩ := closedVerbatim_pair.1 hb
          obtain ⟨t, rfl, h₂⟩ := h₁.uncons (by decide)
          obtain ⟨b', r', rfl, hb', hrest⟩ := h₂.verbatim hpair
          exact ⟨'"'.toUInt8 :: '"'.toUInt8 :: b', r', rfl, .pair hb', hrest⟩
      · obtain ⟨b', r', rfl, hb', hrest⟩ := h₁.verbatim ((closedVerbatim_cons hquote).1 hb)
        exact ⟨c :: b', r', rfl, .byte hquote hb', hrest⟩
termination_by b.length
decreasing_by
  all_goals
    simp only [List.length_cons]
    omega

/-- The rest of a comment, through its closing mark. -/
inductive ClosedComment : Bytes → Prop where
  | mark : ClosedComment ['*'.toUInt8, '/'.toUInt8]
  | byte {c : UInt8} {b : Bytes} (hc : c = '*'.toUInt8 → b.head? ≠ some '/'.toUInt8)
      (h : ClosedComment b) : ClosedComment (c :: b)

theorem closedComment_cons {c : UInt8} {b : Bytes}
    (hc : c = '*'.toUInt8 → b.head? ≠ some '/'.toUInt8) :
    ClosedComment (c :: b) ↔ ClosedComment b := by
  constructor
  · intro h
    cases h with
    | mark => exact absurd rfl (hc rfl)
    | byte _ h => exact h
  · exact .byte hc

theorem skipsBlanks_closedComment : SkipsBlanks ClosedComment where
  nil := fun h => by cases h
  cons := fun hx => closedComment_cons fun h => absurd h (ne_of_isBlankPart hx (by decide))

theorem ClosedComment.ends {b : Bytes} (h : ClosedComment b) :
    commentEnds b = true ∧ commentSize b = b.length := by
  induction h with
  | mark => exact ⟨rfl, rfl⟩
  | @byte c b hc h ih =>
    cases b with
    | nil => cases h
    | cons d b =>
      have hne : ¬ (c = '*'.toUInt8 ∧ d = '/'.toUInt8) := fun hh => hc hh.1 (by rw [hh.2]; rfl)
      rw [commentEnds, commentSize, if_neg hne, if_neg hne, ih.2]
      exact ⟨ih.1, rfl⟩

theorem closedComment_of_ends {b : Bytes} (h : commentEnds b = true)
    (hsize : commentSize b = b.length) : ClosedComment b := by
  fun_induction commentEnds b with
  | case1 => cases h
  | case2 => cases h
  | case3 a b s hab =>
    obtain ⟨rfl, rfl⟩ := hab
    simp only [commentSize, and_self, if_true, List.length_cons] at hsize
    obtain rfl := List.eq_nil_of_length_eq_zero (l := s) (by omega)
    exact .mark
  | case4 a b s hab ih =>
    rw [commentSize, if_neg hab, List.length_cons, Nat.add_right_cancel_iff] at hsize
    refine .byte (fun ha hb => hab ⟨ha, ?_⟩) (ih h hsize)
    exact Option.some.inj hb

theorem Respaced.comment {lines : Bool} {b r t : Bytes} (h : Respaced lines (b ++ r) t)
    (hb : ClosedComment b) :
    ∃ b' r', t = b' ++ r' ∧ ClosedComment b' ∧ Respaced lines r r' := by
  match b with
  | [] => exact absurd hb skipsBlanks_closedComment.nil
  | c :: b =>
    cases hc : isBlankPart c with
    | true =>
      exact skipsBlanks_closedComment.respaced h hc hb fun b₁ t₁ _ hb₁ h₁ => h₁.comment hb₁
    | false =>
      obtain ⟨t, rfl, h₁⟩ := h.uncons hc
      cases hb with
      | mark =>
        obtain ⟨t, rfl, h₂⟩ := h₁.uncons (by decide)
        exact ⟨_, t, rfl, .mark, h₂⟩
      | byte hmark hb =>
        obtain ⟨b', r', rfl, hb', hrest⟩ := h₁.comment hb
        refine ⟨c :: b', r', rfl, .byte (fun hstar hslash => hmark hstar ?_) hb', hrest⟩
        obtain ⟨b', rfl⟩ := List.head?_eq_some_iff.1 hslash
        have hhead := h₁.tame.head? (x := '/'.toUInt8) (by decide) rfl
        cases b with
        | nil => cases hb
        | cons d b => exact hhead
termination_by b.length
decreasing_by
  all_goals
    simp only [List.length_cons]
    omega

/-! ## The rest of a line -/

theorem lineSize_cons {c : UInt8} (s : Bytes) (h : c ≠ Bytes.newline) :
    lineSize (c :: s) = lineSize s + 1 := by
  unfold lineSize
  rw [List.takeWhile_cons_of_pos (by simpa using h), List.length_cons]

theorem lineSize_append {a w : Bytes} (ha : Bytes.newline ∉ a)
    (hw : ∀ x, w.head? = some x → x = Bytes.newline) : lineSize (a ++ w) = a.length := by
  unfold lineSize
  rw [length_takeWhile_append]
  refine ⟨fun x hx => ?_, fun x hx => ?_⟩
  · rw [bne_iff_ne]
    rintro rfl
    exact ha hx
  · rw [hw x hx]
    rfl

theorem Blank.line {u : Bytes} (hu : Blank u) :
    ∃ a w, u = a ++ w ∧ Blank w ∧ Bytes.newline ∉ a ∧ ∀ x, w.head? = some x → x = Bytes.newline := by
  induction hu with
  | nil => exact ⟨[], [], rfl, .nil, by simp, by simp⟩
  | @unit e u he hu ih =>
    by_cases hn : e = [Bytes.newline]
    · subst hn
      exact ⟨[], [Bytes.newline] ++ u, rfl, .unit he hu, by simp, by simp⟩
    · obtain ⟨a, w, rfl, hw, ha, hhead⟩ := ih
      refine ⟨e ++ a, w, by simp, hw, ?_, hhead⟩
      have hone : ∀ e ∈ Text.blankEncodings, e = [Bytes.newline] ∨ Bytes.newline ∉ e := by decide
      rcases hone e he with h | h
      · exact absurd h hn
      · simp [h, ha]

/-- The rest of a line ends in front of blanks that stand for one another. -/
theorem lineSize_of_respaced {s t : Bytes} (h : Respaced true s t) :
    ∃ b r b' r', s = b ++ r ∧ t = b' ++ r' ∧ lineSize s = b.length ∧ lineSize t = b'.length ∧
      Resumes true r r' := by
  induction h with
  | nil => exact ⟨[], [], [], [], rfl, rfl, rfl, rfl, Respaced.nil.resumes⟩
  | @byte c s t hc _ ih =>
    obtain ⟨b, r, b', r', rfl, rfl, hb, hb', hr⟩ := ih
    refine ⟨c :: b, r, c :: b', r', rfl, rfl, ?_, ?_, hr⟩
    · rw [lineSize_cons _ hc, hb, List.length_cons]
    · rw [lineSize_cons _ hc, hb', List.length_cons]
  | @run u v s t hr h _ =>
    cases hr with
    | @lines u g g' hu hg hg' =>
      obtain ⟨a, w, rfl, hw, ha, hhead⟩ := hu.line
      refine ⟨a, w ++ Bytes.newline :: g ++ s, [], Bytes.newline :: g' ++ t, by simp, rfl, ?_, ?_,
        .lead (.lines hw.loose hg hg') h⟩
      · rw [List.append_assoc, List.append_assoc]
        refine lineSize_append ha fun x hx => ?_
        cases w with
        | nil => cases hx; rfl
        | cons y w => exact hhead x hx
      · exact lineSize_append (a := []) (by simp) fun x hx => by cases hx; rfl
  | @last u hu =>
    obtain ⟨a, w, rfl, hw, ha, hhead⟩ := hu.line
    exact ⟨a, w, [], [], rfl, rfl, lineSize_append ha hhead, rfl, .last hw.loose⟩

end Flowsmith.Source
