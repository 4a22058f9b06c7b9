import Flowsmith.Proofs.FlowClass.Tracker

/-!
# Texts whose lines are laid out anew

A text and the text it becomes when the lines that begin outside of verbatim literals get another
indentation, side by side with the walk that finds those lines.

* `Tracked` : such texts, from one mode on, with a flag for each line that begins after it;
* `Tracked.cons_cases` : what the first byte of the old text becomes;
* `Tracked.tame` : the new text continues a token no more than the old one does.
-/

namespace Flowsmith.FlowClass

open Source (IsGapText isGap isBlankByte Blank Tame)

def AtEnd (s : Bytes) : Prop := s = [] ∨ s.head? = some Bytes.newline

/-- The text is at the end of a line, or at a carriage return in front of a line feed. -/
def AtBreak (s : Bytes) : Prop := AtEnd s ∨ ∃ s', s = 0x0D :: Bytes.newline :: s'

/-- Blanks that a line begins with: spaces and tabs, or all of a line of blanks. -/
def Margin (trims : Bool) (g s : Bytes) : Prop :=
  IsGapText g ∨ trims = true ∧ Blank g ∧ Bytes.newline ∉ g ∧ AtBreak s

/-- The text `s` becomes the text `t`; the walk is in `mode` at its beginning and finds the flags on its
way. With `trims` lines may lose the blanks at their ends, when they begin outside of verbatim literals,
and carriage returns in front of line feeds, and so may blank lines at the end; `may` says that the first
line may lose blanks. -/
inductive Tracked (trims : Bool) : Mode → Bool → Bytes → List Bool → Bytes → Prop where
  | nil {m : Mode} {may : Bool} : Tracked trims m may [] [] []
  | line {m : Mode} {may : Bool} {g g' s t : Bytes} {fs : List Bool} (hm : m = .verbatim → g = [] ∧ g' = [])
      (hg : Margin trims g s) (hg' : IsGapText g')
      (h : Tracked trims m.atLineEnd (trims && m != .verbatim) s fs t) :
      Tracked trims m may (Bytes.newline :: (g ++ s)) ((m == .verbatim) :: fs)
        (Bytes.newline :: (g' ++ t))
  | stride {m m' : Mode} {may : Bool} {c : UInt8} {b s t : Bytes} {fs : List Bool}
      (hnote : ¬ OpensNote m c (b ++ s)) (hline : Bytes.newline ∉ c :: b)
      (hreturn : trims = true → c = 0x0D → (b ++ s).head? ≠ some Bytes.newline)
      (hstride : stride m c (b ++ s) = (m', b.length)) (h : Tracked trims m' may s fs t) :
      Tracked trims m may (c :: (b ++ s)) fs (c :: (b ++ t))
  /-- A comment up to the end of its line. -/
  | note {may : Bool} {b z s t : Bytes} {fs : List Bool} (hline : Bytes.newline ∉ b ++ z)
      (hz : IsGapText z) (htrims : trims = false → z = []) (hs : AtEnd s)
      (h : Tracked trims .code may s fs t) :
      Tracked trims .code may ('/'.toUInt8 :: '/'.toUInt8 :: (b ++ z ++ s)) fs
        ('/'.toUInt8 :: '/'.toUInt8 :: (b ++ t))
  | trail {m : Mode} {z s t : Bytes} {fs : List Bool} (htrims : trims = true)
      (hz : ∀ c ∈ z, isIndent c = true) (hs : AtBreak s) (ht : AtEnd t)
      (h : Tracked trims m true s fs t) : Tracked trims m true (z ++ s) fs t
  | ending {m : Mode} {may : Bool} {s t : Bytes} {fs : List Bool} (htrims : trims = true)
      (h : Tracked trims m may (Bytes.newline :: s) fs t) :
      Tracked trims m may (0x0D :: Bytes.newline :: s) fs t
  /-- Blank lines at the end of the text. -/
  | last {m : Mode} {may : Bool} {u : Bytes} (htrims : trims = true) (hu : Blank u) (hbreak : AtBreak u) :
      Tracked trims m may u (List.replicate (u.count Bytes.newline) (m == .verbatim)) []

namespace Tracked

variable {trims may : Bool} {m : Mode} {s t : Bytes} {fs : List Bool}

theorem eq_nil (h : Tracked trims m may s fs t) (hs : s = []) : fs = [] ∧ t = [] := by
  induction h with
  | nil => exact ⟨rfl, rfl⟩
  | line => cases hs
  | stride => cases hs
  | note => cases hs
  | trail _ _ _ _ _ ih => exact ih (List.append_eq_nil_iff.1 hs).2
  | ending => cases hs
  | last =>
    subst hs
    exact ⟨rfl, rfl⟩

theorem cons_cases {c : UInt8} (h : Tracked trims m may (c :: s) fs t) :
    (∃ g g' s' fs' t', c = Bytes.newline ∧ s = g ++ s' ∧ fs = (m == .verbatim) :: fs' ∧
      t = Bytes.newline :: (g' ++ t') ∧ (m = .verbatim → g = [] ∧ g' = []) ∧ Margin trims g s' ∧
      IsGapText g' ∧ Tracked trims m.atLineEnd (trims && m != .verbatim) s' fs' t') ∨
    (∃ b s' t' m', s = b ++ s' ∧ t = c :: (b ++ t') ∧ ¬ OpensNote m c s ∧
      Bytes.newline ∉ c :: b ∧ (trims = true → c = 0x0D → s.head? ≠ some Bytes.newline) ∧
      FlowClass.stride m c s = (m', b.length) ∧ Tracked trims m' may s' fs t') ∨
    (∃ b z s' t', m = .code ∧ c = '/'.toUInt8 ∧ s = '/'.toUInt8 :: (b ++ z ++ s') ∧
      t = '/'.toUInt8 :: '/'.toUInt8 :: (b ++ t') ∧ Bytes.newline ∉ b ++ z ∧ IsGapText z ∧
      (trims = false → z = []) ∧ AtEnd s' ∧ Tracked trims .code may s' fs t') ∨
    (∃ z s', trims = true ∧ may = true ∧ isIndent c = true ∧ (∀ d ∈ z, isIndent d = true) ∧
      s = z ++ s' ∧ AtBreak s' ∧ AtEnd t ∧ Tracked trims m true s' fs t) ∨
    (∃ s', trims = true ∧ c = 0x0D ∧ s = Bytes.newline :: s' ∧
      Tracked trims m may (Bytes.newline :: s') fs t) ∨
    (trims = true ∧ Blank (c :: s) ∧ AtBreak (c :: s) ∧ t = [] ∧
      fs = List.replicate ((c :: s).count Bytes.newline) (m == .verbatim)) := by
  generalize hx : c :: s = x at h
  induction h with
  | nil => cases hx
  | @line m may g g' s' t' fs' hm hg hg' h _ =>
    obtain ⟨rfl, rfl⟩ := List.cons.inj hx
    exact .inl ⟨g, g', s', fs', t', rfl, rfl, rfl, rfl, hm, hg, hg', h⟩
  | @stride m m' may c' b s' t' fs' hnote hline hreturn hstride h _ =>
    obtain ⟨rfl, rfl⟩ := List.cons.inj hx
    exact .inr (.inl ⟨b, s', t', m', rfl, rfl, hnote, hline, hreturn, hstride, h⟩)
  | @note may b z s' t' fs' hline hz htrims hs h _ =>
    obtain ⟨rfl, rfl⟩ := List.cons.inj hx
    exact .inr (.inr (.inl ⟨b, z, s', t', rfl, rfl, rfl, rfl, hline, hz, htrims, hs, h⟩))
  | @trail m z s' t' fs' htrims hz hs ht h ih =>
    cases z with
    | nil => exact ih hx
    | cons c' z =>
      obtain ⟨rfl, rfl⟩ := List.cons.inj hx
      exact .inr (.inr (.inr (.inl ⟨z, s', htrims, rfl, hz c List.mem_cons_self,
        fun d hd => hz d (List.mem_cons_of_mem _ hd), rfl, hs, ht, h⟩)))
  | @ending m may s' t' fs' htrims h _ =>
    obtain ⟨rfl, rfl⟩ := List.cons.inj hx
    exact .inr (.inr (.inr (.inr (.inl ⟨s', htrims, rfl, rfl, h⟩))))
  | @last m may u htrims hu hbreak =>
    subst hx
    exact .inr (.inr (.inr (.inr (.inr ⟨htrims, hu, hbreak, rfl, rfl⟩))))

theorem not_atBreak {c : UInt8} {s : Bytes} (hc : isBlankByte c = false) : ¬ AtBreak (c :: s) := by
  rintro ((h | h) | ⟨s', h⟩)
  · cases h
  · rw [Option.some.inj h] at hc
    cases hc
  · rw [(List.cons.inj h).1] at hc
    cases hc

/-- At the end of a line the old text and the new one end alike. -/
theorem atEnd (h : Tracked trims m may s fs t) (hs : AtEnd s) : AtEnd t := by
  rcases hs with rfl | hs
  · exact .inl (h.eq_nil rfl).2
  obtain ⟨s, rfl⟩ := List.head?_eq_some_iff.1 hs
  rcases h.cons_cases with ⟨g, g', s', fs', t', -, -, -, rfl, -⟩ | ⟨b, s', t', m', -, -, -, hline, -⟩ |
    ⟨b, z, s', t', -, hc, -⟩ | ⟨z, s', -, -, hc, -⟩ | ⟨s', -, hc, -⟩ | ⟨-, -, -, rfl, -⟩
  · exact .inr rfl
  · simp at hline
  · exact absurd hc (by decide)
  · exact absurd hc (by decide)
  · exact absurd hc (by decide)
  · exact .inl rfl

/-- The new text continues a token no more than the old one does. -/
theorem tame (h : Tracked trims m may s fs t) : Tame s t := by
  have hend : ∀ {s t : Bytes}, AtEnd t → Tame s t := by
    rintro s t (rfl | ht)
    · exact .done s
    · obtain ⟨t', rfl⟩ := List.head?_eq_some_iff.1 ht
      exact .stop s t' (by decide)
  induction h with
  | nil => exact .done []
  | line => exact .stop _ _ (by decide)
  | stride _ _ _ _ _ ih => exact .byte _ (ih.append _)
  | @note _ b _ _ _ _ _ _ _ hs h _ =>
    refine .byte _ (.byte _ ?_)
    rw [List.append_assoc]
    exact (hend (h.atEnd hs)).append b
  | trail _ _ _ ht _ _ => exact hend ht
  | ending _ h _ => exact hend (h.atEnd (.inr rfl))
  | last => exact .done _

/-- The new text begins as the old one does, or at the end of a line. -/
theorem head?_or (h : Tracked trims m may s fs t) : t.head? = s.head? ∨ AtEnd t := by
  cases s with
  | nil => exact .inr (h.atEnd (.inl rfl))
  | cons c s =>
    rcases h.cons_cases with ⟨g, g', s', fs', t', -, -, -, rfl, -⟩ | ⟨b, s', t', m', -, rfl, -⟩ |
      ⟨b, z, s', t', -, rfl, -, rfl, -⟩ | ⟨z, s', -, -, -, -, -, -, ht, -⟩ | ⟨s', -, -, -, h'⟩ |
      ⟨-, -, -, rfl, -⟩
    · exact .inr (.inr rfl)
    · exact .inl rfl
    · exact .inl rfl
    · exact .inr ht
    · exact .inr (h'.atEnd (.inr rfl))
    · exact .inr (.inl rfl)

theorem relax (h : Tracked trims m may s fs t) (hs : AtEnd s) {m' : Mode}
    (hm : m.atLineEnd = m'.atLineEnd) : Tracked trims m' may s fs t := by
  rcases hs with rfl | hs
  · obtain ⟨rfl, rfl⟩ := h.eq_nil rfl
    exact .nil
  obtain ⟨s, rfl⟩ := List.head?_eq_some_iff.1 hs
  have hverbatim : (m == .verbatim) = (m' == .verbatim) ∧ (m' = .verbatim → m = .verbatim) := by
    cases m <;> cases m' <;> first | exact ⟨rfl, by decide⟩ | cases hm
  rcases h.cons_cases with ⟨g, g', s', fs', t', -, rfl, rfl, rfl, hg, hmargin, hg', h'⟩ |
    ⟨b, s', t', m', -, -, -, hline, -⟩ | ⟨b, z, s', t', -, hc, -⟩ | ⟨z, s', -, -, hc, -⟩ |
    ⟨s', -, hc, -⟩ | ⟨htrims, hu, hbreak, rfl, rfl⟩
  · have hbne : (m != .verbatim) = (m' != .verbatim) := by rw [bne, bne, hverbatim.1]
    rw [hm, hbne] at h'
    rw [hverbatim.1]
    exact .line (fun hv => hg (hverbatim.2 hv)) hmargin hg' h'
  · simp at hline
  · exact absurd hc (by decide)
  · exact absurd hc (by decide)
  · exact absurd hc (by decide)
  · rw [hverbatim.1]
    exact .last htrims hu hbreak

end Tracked

end Flowsmith.FlowClass
