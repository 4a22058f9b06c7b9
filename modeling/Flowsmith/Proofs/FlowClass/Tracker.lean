import Flowsmith.Proofs.FlowClass.Layout
import Mathlib.Tactic.SplitIfs

/-!
# Where verbatim literals lie, byte by byte

The lines of a text are walked through to find those that begin inside a verbatim literal. The walk goes
from mode to mode by one to three bytes at a time, and looks ahead no further.

* `stride` : the mode after a byte, and how many bytes belong to it;
* `modeAfter_cons` : a line is walked through stride by stride;
* `stride_append` : what follows a line has no part in it;
* `modeAfter_blanks`, `modeAfter_append_gaps` : blanks around a line do not change its mode.
-/

namespace Flowsmith.FlowClass

open Source (IsGapText isGap isBlankByte isBlankPart)

/-- What the end of a line leaves: strings and characters end with their line. -/
def Mode.atLineEnd : Mode → Mode
  | .string => .code
  | .character => .code
  | m => m

theorem nextMode_eq (mode : Mode) (line : Bytes) :
    nextMode mode line = (modeAfter mode line).atLineEnd := by
  unfold nextMode
  cases modeAfter mode line <;> rfl

/-! ## Strides -/

/-- A byte that an escape keeps from being taken for what it is. -/
def isEscapable (c : UInt8) : Bool := c == '"'.toUInt8 || c == '\''.toUInt8 || c == '\\'.toUInt8

/-- The number of bytes that belong to a backslash. -/
def escapeSize (s : Bytes) : Nat := if s.head?.any isEscapable then 1 else 0

/-- The mode after a byte in a literal with backslash escapes, and the number of bytes after the byte
that belong to it. -/
def quotedStride (mode : Mode) (quote c : UInt8) (s : Bytes) : Mode × Nat :=
  if c = '\\'.toUInt8 then (mode, escapeSize s)
  else if c = quote then (.code, 0)
  else (mode, 0)

/-- The mode after a byte, and the number of bytes after the byte that belong to it. Comments up to the
end of the line are left out. -/
def stride (mode : Mode) (c : UInt8) (s : Bytes) : Mode × Nat :=
  match mode with
  | .code =>
    if c = '/'.toUInt8 ∧ s.head? = some '*'.toUInt8 then (.comment, 1)
    else if c = '@'.toUInt8 ∧ s.head? = some '"'.toUInt8 then (.verbatim, 1)
    else if c = '$'.toUInt8 ∧ s.take 2 = ['@'.toUInt8, '"'.toUInt8] then (.verbatim, 2)
    else if c = '"'.toUInt8 then (.string, 0)
    else if c = '\''.toUInt8 then (.character, 0)
    else (.code, 0)
  | .string => quotedStride .string '"'.toUInt8 c s
  | .character => quotedStride .character '\''.toUInt8 c s
  | .verbatim =>
    if c = '"'.toUInt8 then if s.head? = some '"'.toUInt8 then (.verbatim, 1) else (.code, 0)
    else (.verbatim, 0)
  | .comment =>
    if c = '*'.toUInt8 ∧ s.head? = some '/'.toUInt8 then (.code, 1) else (.comment, 0)

/-- A comment up to the end of the line begins. -/
def OpensNote (mode : Mode) (c : UInt8) (s : Bytes) : Prop :=
  mode = .code ∧ c = '/'.toUInt8 ∧ s.head? = some '/'.toUInt8

theorem modeAfter_nil (mode : Mode) : modeAfter mode [] = mode := by
  rw [modeAfter]

theorem modeAfter_note (s : Bytes) :
    modeAfter .code ('/'.toUInt8 :: '/'.toUInt8 :: s) = .code := by
  rw [modeAfter, if_pos ⟨rfl, rfl⟩]

theorem modeAfter_escaped {mode : Mode} {s : Bytes}
    (hplain : ∀ c s, isEscapable c = false → modeAfter mode (c :: s) = modeAfter mode s) :
    modeAfter mode (s.drop 1) = modeAfter mode (s.drop (escapeSize s)) := by
  cases s with
  | nil => rfl
  | cons x s =>
    cases hx : isEscapable x with
    | true => simp [escapeSize, hx]
    | false => simp [escapeSize, hx, hplain x s hx]

theorem ne_of_not_isEscapable {c : UInt8} (h : isEscapable c = false) :
    c ≠ '"'.toUInt8 ∧ c ≠ '\''.toUInt8 ∧ c ≠ '\\'.toUInt8 := by
  simpa [isEscapable, not_or, and_assoc] using h

theorem modeAfter_cons {mode : Mode} {c : UInt8} {s : Bytes} (h : ¬ OpensNote mode c s) :
    modeAfter mode (c :: s) = modeAfter (stride mode c s).1 (s.drop (stride mode c s).2) := by
  have hstring : ∀ c s, isEscapable c = false → modeAfter .string (c :: s) = modeAfter .string s := by
    intro c s hc
    rw [modeAfter, if_neg (ne_of_not_isEscapable hc).2.2, if_neg (ne_of_not_isEscapable hc).1]
  have hcharacter : ∀ c s, isEscapable c = false →
      modeAfter .character (c :: s) = modeAfter .character s := by
    intro c s hc
    rw [modeAfter, if_neg (ne_of_not_isEscapable hc).2.2, if_neg (ne_of_not_isEscapable hc).2.1]
  cases mode with
  | code =>
    rw [modeAfter, if_neg fun hh => h ⟨rfl, hh⟩, stride]
    split_ifs <;> rfl
  | string =>
    rw [modeAfter, stride, quotedStride]
    split_ifs
    · exact modeAfter_escaped hstring
    all_goals rfl
  | character =>
    rw [modeAfter, stride, quotedStride]
    split_ifs
    · exact modeAfter_escaped hcharacter
    all_goals rfl
  | verbatim =>
    rw [modeAfter, stride]
    split_ifs <;> rfl
  | comment =>
    rw [modeAfter, stride]
    split_ifs <;> rfl

theorem stride_size_le (mode : Mode) (c : UInt8) (s : Bytes) : (stride mode c s).2 ≤ s.length := by
  have hescape : escapeSize s ≤ s.length := by
    unfold escapeSize
    cases s with
    | nil => rfl
    | cons x s => exact Nat.le_trans (by split_ifs <;> omega) (Nat.le_add_left 1 s.length)
  have hhead : ∀ {x : UInt8}, s.head? = some x → 1 ≤ s.length := by
    cases s <;> simp
  have htwo : ∀ {x y : UInt8}, s.take 2 = [x, y] → 2 ≤ s.length := by
    intro x y h
    have := congrArg List.length h
    simp only [List.length_take, List.length_cons, List.length_nil] at this
    omega
  cases mode <;> simp only [stride, quotedStride] <;> split_ifs <;>
    first | exact hescape | exact Nat.zero_le _ | skip
  · exact hhead ‹_ ∧ _›.2
  · exact hhead ‹_ ∧ _›.2
  · exact htwo ‹_ ∧ _›.2
  · exact hhead ‹_›
  · exact hhead ‹_ ∧ _›.2

/-! ## What follows a line -/

def Apart (r : Bytes) : Prop := ∀ x, r.head? = some x → isBlankByte x = true

theorem Apart.head_ne {r : Bytes} (h : Apart r) {x : UInt8} (hx : isBlankByte x = false) :
    r.head? ≠ some x := by
  intro hr
  rw [h x hr] at hx
  cases hx

theorem head?_append_apart {s r : Bytes} (h : Apart r) {x : UInt8} (hx : isBlankByte x = false) :
    (s ++ r).head? = some x ↔ s.head? = some x := by
  cases s with
  | nil => simpa using h.head_ne hx
  | cons y s => rfl

theorem stride_append (mode : Mode) (c : UInt8) (s : Bytes) {r : Bytes} (h : Apart r) :
    stride mode c (s ++ r) = stride mode c s := by
  have hhead : ∀ x, isBlankByte x = false → ((s ++ r).head? = some x ↔ s.head? = some x) :=
    fun x hx => head?_append_apart h hx
  have hescape : escapeSize (s ++ r) = escapeSize s := by
    cases s with
    | cons y s => rfl
    | nil =>
      cases r with
      | nil => rfl
      | cons y r =>
        have hy : isEscapable y = false := by
          have hall : ∀ y, isEscapable y = true → isBlankByte y = false := by
            intro y hy
            simp only [isEscapable, Bool.or_eq_true, beq_iff_eq] at hy
            rcases hy with (rfl | rfl) | rfl <;> decide
          cases hesc : isEscapable y with
          | false => rfl
          | true => exact absurd rfl (h.head_ne (r := y :: r) (hall y hesc))
        simp [escapeSize, hy]
  have htwo : (s ++ r).take 2 = ['@'.toUInt8, '"'.toUInt8] ↔ s.take 2 = ['@'.toUInt8, '"'.toUInt8] := by
    rcases s with _ | ⟨y, _ | ⟨z, s⟩⟩
    · cases r with
      | nil => rfl
      | cons y r =>
        have hy : y ≠ '@'.toUInt8 :=
          fun hy => h.head_ne (r := y :: r) (x := '@'.toUInt8) (by decide) (by rw [hy]; rfl)
        simp [hy]
    · cases r with
      | nil => simp
      | cons z r =>
        have hz : z ≠ '"'.toUInt8 :=
          fun hz => h.head_ne (r := z :: r) (x := '"'.toUInt8) (by decide) (by rw [hz]; rfl)
        simp [hz]
    · rfl
  cases mode <;>
    simp only [stride, quotedStride, hhead '*'.toUInt8 (by decide), hhead '"'.toUInt8 (by decide),
      hhead '/'.toUInt8 (by decide), htwo, hescape]

/-! ## Blanks around a line -/

theorem stride_blank {mode : Mode} {c : UInt8} (hc : isBlankPart c = true) (s : Bytes) :
    stride mode c s = (mode, 0) ∧ ¬ OpensNote mode c s := by
  have hne : ∀ d : UInt8, isBlankPart d = false → c ≠ d := by
    rintro d hd rfl
    rw [hc] at hd
    cases hd
  refine ⟨?_, fun h => hne _ (by decide) h.2.1⟩
  cases mode <;>
    simp [stride, quotedStride, hne '/'.toUInt8 (by decide), hne '@'.toUInt8 (by decide),
      hne '$'.toUInt8 (by decide), hne '"'.toUInt8 (by decide), hne '\''.toUInt8 (by decide),
      hne '\\'.toUInt8 (by decide), hne '*'.toUInt8 (by decide)]

theorem stride_gap {mode : Mode} {c : UInt8} (hc : isGap c = true) (s : Bytes) :
    stride mode c s = (mode, 0) ∧ ¬ OpensNote mode c s :=
  stride_blank (by simp [isBlankPart, Source.isBlankByte_of_isGap hc]) s

/-- Blanks at the beginning of a line do not change its mode. -/
theorem modeAfter_blanks {g : Bytes} (hg : ∀ c ∈ g, isBlankPart c = true) (mode : Mode) (s : Bytes) :
    modeAfter mode (g ++ s) = modeAfter mode s := by
  induction g with
  | nil => rfl
  | cons c g ih =>
    obtain ⟨hstride, hnote⟩ := stride_blank (hg c List.mem_cons_self) (g ++ s)
    rw [List.cons_append, modeAfter_cons hnote, hstride]
    exact ih fun d hd => hg d (List.mem_cons_of_mem _ hd)

theorem IsGapText.apart {g : Bytes} (hg : IsGapText g) : Apart g := fun x hx =>
  Source.isBlankByte_of_isGap (hg x (List.mem_of_mem_head? hx))

/-- Blanks at the end of a line do not change its mode. -/
theorem modeAfter_append_gaps {g : Bytes} (hg : IsGapText g) (mode : Mode) (s : Bytes) :
    modeAfter mode (s ++ g) = modeAfter mode s := by
  match s with
  | [] =>
    have h := modeAfter_blanks hg.parts mode []
    rwa [List.append_nil] at h
  | c :: s =>
    by_cases hnote : OpensNote mode c s
    · obtain ⟨rfl, rfl, hs⟩ := hnote
      obtain ⟨s', rfl⟩ : ∃ s', s = '/'.toUInt8 :: s' := by
        cases s with
        | nil => cases hs
        | cons x s' => exact ⟨s', by rw [Option.some.inj hs]⟩
      rw [modeAfter_note, List.cons_append, List.cons_append, modeAfter_note]
    · have hnote' : ¬ OpensNote mode c (s ++ g) := by
        rintro ⟨hm, hc, hs⟩
        exact hnote ⟨hm, hc, (head?_append_apart (IsGapText.apart hg) (by decide)).1 hs⟩
      have hlength : (s.drop (stride mode c s).2).length < (c :: s).length := by
        rw [List.length_drop, List.length_cons]
        omega
      rw [List.cons_append, modeAfter_cons hnote', stride_append mode c s (IsGapText.apart hg),
        List.drop_append_of_le_length (stride_size_le mode c s),
        modeAfter_append_gaps hg _ (s.drop (stride mode c s).2), modeAfter_cons hnote]
termination_by s.length

end Flowsmith.FlowClass
