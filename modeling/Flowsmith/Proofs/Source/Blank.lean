import Flowsmith.Proofs.Source.Segment
import Flowsmith.Text.Blank

/-!
# Tokens of blanks

A layout works with all blanks of a text, the scanner only with those of one byte. A blank of several
bytes is a mark to the scanner, which no declaration depends on.

* `Blank`, `Loose` : texts of blanks, and of what a number leaves of blanks;
* `Token.isJunk`, `Token.isBlankMark` : the marks that blanks are;
* `tokensFrom_blank`, `tokensFrom_loose` : the tokens of blanks.
-/

namespace Flowsmith.Source

open Utf8 (isTail decode decode?)

/-! ## Blanks -/

/-- What every encoding of a blank is like: one byte that lies between tokens, or a code point that
is no part of a word. -/
def isBlankForm : Bytes → Bool
  | [] => false
  | [c] => isBlankByte c
  | a :: b :: r =>
    0x80 ≤ a && !isTail a && (b :: r).all isTail && !isWordPart b.toNat &&
      (decode? (a :: b :: r)).any fun p => p.2 == r.length + 2 && !isWordPart p.1

theorem isBlankForm_of_mem {e : Bytes} (h : e ∈ Text.blankEncodings) : isBlankForm e = true := by
  have hall : Text.blankEncodings.all isBlankForm = true := by decide +kernel
  exact List.all_eq_true.1 hall e h

/-- A text that consists of blanks. -/
inductive Blank : Bytes → Prop where
  | nil : Blank []
  | unit {e u : Bytes} (h : e ∈ Text.blankEncodings) (hu : Blank u) : Blank (e ++ u)

/-- A text of blanks and of bytes that are left of a blank when a token has taken its first byte. -/
inductive Loose : Bytes → Prop where
  | nil : Loose []
  | unit {e u : Bytes} (h : e ∈ Text.blankEncodings) (hu : Loose u) : Loose (e ++ u)
  | rest {c : UInt8} {u : Bytes} (h : isTail c = true) (hu : Loose u) : Loose (c :: u)

theorem Blank.loose {u : Bytes} (h : Blank u) : Loose u := by
  induction h with
  | nil => exact .nil
  | unit h _ ih => exact .unit h ih

theorem Blank.append {u v : Bytes} (hu : Blank u) (hv : Blank v) : Blank (u ++ v) := by
  induction hu with
  | nil => exact hv
  | unit h _ ih => rw [List.append_assoc]; exact .unit h ih

theorem mem_blankEncodings {c : UInt8} (h : isBlankByte c = true) : [c] ∈ Text.blankEncodings := by
  have hall : ∀ c ∈ ([0x20, 0x09, 0x0A, 0x0B, 0x0C, 0x0D] : Bytes), [c] ∈ Text.blankEncodings := by
    decide +kernel
  refine hall c ?_
  simp only [isBlankByte, isGap, Bool.or_eq_true, beq_iff_eq] at h
  simp only [List.mem_cons, List.not_mem_nil, or_false]
  grind

theorem blankSize_eq_succ {s : Bytes} {k : Nat} (h : Text.blankSize s = k + 1) :
    ∃ e ∈ Text.blankEncodings, e <+: s ∧ e.length = k + 1 := by
  unfold Text.blankSize at h
  split at h
  · rename_i e he
    have hp := List.find?_some he
    exact ⟨e, List.mem_of_find?_eq_some he, List.isPrefixOf_iff_prefix.1 hp, h⟩
  · cases h

theorem blank_of_dropUnits (s : Bytes) (h : Text.dropUnits Text.blankSize s = []) : Blank s := by
  fun_induction Text.dropUnits Text.blankSize s with
  | case1 => exact .nil
  | case2 c rest _ => cases h
  | case3 c rest k hk ih =>
    obtain ⟨e, he, ⟨r, hr⟩, hlen⟩ := blankSize_eq_succ hk
    obtain rfl : r = rest.drop k := by
      have := congrArg (List.drop (k + 1)) hr
      rwa [List.drop_succ_cons, ← hlen, List.drop_left] at this
    rw [← hr]
    exact .unit he (ih h)

theorem blank_of_isBlank {s : Bytes} (h : s.isBlank = true) : Blank s :=
  blank_of_dropUnits s (List.isEmpty_iff.1 h)

/-- A text of blanks other than line feeds that are one byte long. -/
def IsGapText (g : Bytes) : Prop := ∀ c ∈ g, isGap c = true

theorem isBlankByte_of_isGap {c : UInt8} (h : isGap c = true) : isBlankByte c = true := by
  simp [isBlankByte, h]

theorem blank_of_bytes {v : Bytes} (h : ∀ c ∈ v, isBlankByte c = true) : Blank v := by
  induction v with
  | nil => exact .nil
  | cons c v ih =>
    rw [← List.singleton_append]
    exact .unit (mem_blankEncodings (h c List.mem_cons_self))
      (ih fun x hx => h x (List.mem_cons_of_mem _ hx))

theorem IsGapText.blank {g : Bytes} (h : IsGapText g) : Blank g :=
  blank_of_bytes fun c hc => isBlankByte_of_isGap (h c hc)

theorem isStop_of_isBlankByte {c : UInt8} (h : isBlankByte c = true) : isStop c = true := by
  have hall : ∀ c ∈ ([0x20, 0x09, 0x0A, 0x0B, 0x0C, 0x0D] : Bytes), isStop c = true := by
    decide +kernel
  refine hall c ?_
  simp only [isBlankByte, isGap, Bool.or_eq_true, beq_iff_eq] at h
  simp only [List.mem_cons, List.not_mem_nil, or_false]
  grind

/-! ## Tokens of blanks -/

/-- A mark outside of the range of one byte. No declaration depends on it. -/
def Token.isJunk (t : Token) : Bool := t.kind == .mark && t.text.head?.any fun c => 0x80 ≤ c

theorem lexeme_of_ge {fresh : Bool} {c : UInt8} {s : Bytes} {v k : Nat} (h : 0x80 ≤ c)
    (hdecode : decode (c :: s) = (v, k + 1)) (hstart : isWordStart v = false) :
    lexeme fresh c s = (.mark, k) := by
  have hne : ∀ d : UInt8, d < 0x80 → c ≠ d := by
    rintro d hd rfl
    exact absurd h (UInt8.not_le.2 hd)
  have hdigit : Bytes.isDigitByte c = false := by
    simp only [Bytes.isDigitByte, Bool.and_eq_false_iff, decide_eq_false_iff_not]
    refine Or.inr fun hle => ?_
    exact absurd (UInt8.le_trans h hle) (by decide)
  have hall : ∀ d ∈ (['#', '/', '"', '@', '$', '\''].map Char.toUInt8), d < 0x80 := by decide +kernel
  have hbare : Bare fresh c s := bare_of_ne (fun d hd => hne d (hall d hd)) hdigit
  refine (Lexed.rune hbare (hne _ (by decide)) ?_ (fun hh => hne _ (by decide) hh.1) ?_).lexeme_eq <;>
    rw [hdecode]
  simp [hstart]

/-- A byte that begins neither a literal nor a comment. -/
def beginsPlain (c : UInt8) : Bool :=
  !(['"', '@', '$', '\'', '/'].map Char.toUInt8).contains c

theorem textEnds_of_beginsPlain {c : UInt8} (b : Bytes) (h : beginsPlain c = true) :
    textEnds (c :: b) = true := by
  simp only [beginsPlain, List.map_cons, List.map_nil, Bool.not_eq_true', List.contains_eq_mem,
    List.mem_cons, List.not_mem_nil, or_false, decide_eq_false_iff_not, not_or] at h
  obtain ⟨hquote, hat, hdollar, hapos, hslash⟩ := h
  have hnone : stringOpeners.find? (·.1.isPrefixOf (c :: b)) = none := by
    rw [List.find?_eq_none]
    intro o ho
    have hfirst : ∀ o ∈ stringOpeners, ∃ d p, o.1 = d :: p ∧
        (d = '"'.toUInt8 ∨ d = '@'.toUInt8 ∨ d = '$'.toUInt8) := by
      intro o ho
      simp only [stringOpeners, List.mem_cons, List.not_mem_nil, or_false] at ho
      rcases ho with rfl | rfl | rfl | rfl | rfl <;> exact ⟨_, _, rfl, by decide⟩
    obtain ⟨d, p, hp, hd⟩ := hfirst o ho
    rw [hp]
    simp only [List.isPrefixOf_cons_cons, Bool.and_eq_true, beq_iff_eq, not_and]
    rintro rfl
    rcases hd with rfl | rfl | rfl
    · exact absurd rfl hquote
    · exact absurd rfl hat
    · exact absurd rfl hdollar
  have htake : (c :: b).take 2 ≠ ("/*" : Bytes) := fun hh => hslash (List.cons.inj hh).1
  simp only [textEnds, literalEnds, hnone, Bool.and_eq_true, Bool.or_eq_true, bne_iff_ne]
  refine ⟨?_, Or.inl htake⟩
  rw [if_neg]
  simpa using hapos


theorem beginsPlain_of_ge {c : UInt8} (h : 0x80 ≤ c) : beginsPlain c = true := by
  have hne : ∀ d : UInt8, d < 0x80 → c ≠ d := by
    rintro d hd rfl
    exact absurd h (UInt8.not_le.2 hd)
  simp only [beginsPlain, List.map_cons, List.map_nil, Bool.not_eq_true', List.contains_eq_mem,
    List.mem_cons, List.not_mem_nil, or_false, decide_eq_false_iff_not, not_or]
  exact ⟨hne _ (by decide), hne _ (by decide), hne _ (by decide), hne _ (by decide),
    hne _ (by decide)⟩

theorem textEnds_of_ge {c : UInt8} (b : Bytes) (h : 0x80 ≤ c) : textEnds (c :: b) = true :=
  textEnds_of_beginsPlain b (beginsPlain_of_ge h)

/-- A blank of several bytes, and each byte that is left of one, is a mark. -/
theorem lexeme_unit {e : Bytes} (he : e ∈ Text.blankEncodings) {a b : UInt8} {r : Bytes}
    (hform : e = a :: b :: r) (fresh : Bool) (s : Bytes) :
    0x80 ≤ a ∧ lexeme fresh a (b :: r ++ s) = (.mark, (b :: r).length) := by
  have h := isBlankForm_of_mem he
  subst hform
  simp only [isBlankForm, Bool.and_eq_true, decide_eq_true_eq, Bool.not_eq_true',
    Option.any_eq_true, beq_iff_eq] at h
  obtain ⟨⟨⟨⟨hge, -⟩, -⟩, -⟩, ⟨v, k⟩, hdec, hk, hword⟩ := h
  refine ⟨hge, ?_⟩
  obtain rfl : k = r.length + 2 := hk
  refine lexeme_of_ge hge ?_ (isWordStart_eq_false hword)
  unfold decode
  rw [← List.cons_append, Utf8.decode?_append s hdec]
  rfl

theorem decode?_of_isTail {c : UInt8} (s : Bytes) (h : isTail c = true) : decode? (c :: s) = none := by
  simp only [isTail, Bool.and_eq_true, decide_eq_true_eq] at h
  have hlt : ¬ c < 0x80 := UInt8.not_lt.2 h.1
  have h2 : ∀ b, Utf8.two? c b = none := by
    intro b
    unfold Utf8.two?
    rw [if_neg]
    simp only [Bool.and_eq_true, decide_eq_true_eq]
    rintro ⟨⟨hc, -⟩, -⟩
    exact absurd (UInt8.le_trans hc h.2) (by decide)
  have h3 : ∀ b d, Utf8.three? c b d = none := by
    intro b d
    unfold Utf8.three?
    rw [if_neg]
    simp only [Bool.and_eq_true, decide_eq_true_eq]
    rintro ⟨⟨⟨⟨⟨hc, -⟩, -⟩, -⟩, -⟩, -⟩
    exact absurd (UInt8.le_trans hc h.2) (by decide)
  have h4 : ∀ b d e, Utf8.four? c b d e = none := by
    intro b d e
    unfold Utf8.four?
    rw [if_neg]
    simp only [Bool.and_eq_true, decide_eq_true_eq]
    rintro ⟨⟨⟨⟨⟨⟨hc, -⟩, -⟩, -⟩, -⟩, -⟩, -⟩
    exact absurd (UInt8.le_trans hc h.2) (by decide)
  rcases s with _ | ⟨b, _ | ⟨d, _ | ⟨e, s⟩⟩⟩ <;> simp [decode?, hlt, h2, h3, h4]

theorem lexeme_of_isTail {c : UInt8} (fresh : Bool) (s : Bytes) (h : isTail c = true) :
    0x80 ≤ c ∧ lexeme fresh c s = (.mark, 0) := by
  have hge : 0x80 ≤ c := by
    simp only [isTail, Bool.and_eq_true, decide_eq_true_eq] at h
    exact h.1
  have hdec : decode (c :: s) = (Utf8.replacement, 1) := by
    unfold decode
    rw [decode?_of_isTail s h]
    rfl
  have hstart : isWordStart Utf8.replacement = false := by decide +kernel
  exact ⟨hge, lexeme_of_ge hge hdec hstart⟩

theorem isBlankByte_of_ge {c : UInt8} (h : 0x80 ≤ c) : isBlankByte c = false := by
  cases hb : isBlankByte c with
  | false => rfl
  | true => exact absurd (lt_of_isStop (isStop_of_isBlankByte hb)) (UInt8.not_lt.2 h)

/-- The mark that a blank of several bytes is to the scanner. -/
def Token.isBlankMark (t : Token) : Bool := t.kind == .mark && Text.blankEncodings.contains t.text

/-- A blank is passed over, or is a mark that nothing depends on. -/
theorem tokensFrom_unit {e : Bytes} (he : e ∈ Text.blankEncodings) (s : Bytes) (pos : Nat) (fresh : Bool) :
    ∃ marks fresh', tokensFrom pos fresh (e ++ s) = marks ++ tokensFrom (pos + e.length) fresh' s ∧
      ∀ t ∈ marks, t.isBlankMark = true ∧ t.isJunk = true ∧ textEnds t.text = true := by
  have hform := isBlankForm_of_mem he
  match e, hform, he with
  | [c], hc, he =>
    refine ⟨[], fresh || c == Bytes.newline, ?_, by simp⟩
    rcases tokensFrom_cases pos fresh c s with ⟨-, heq⟩ | ⟨hc', -⟩
    · exact heq
    · rw [show isBlankByte c = true from hc] at hc'
      cases hc'
  | a :: b :: r, _, he =>
    obtain ⟨hge, hlex⟩ := lexeme_unit he rfl fresh s
    refine ⟨[⟨.mark, a :: b :: r, pos⟩], false, ?_, List.forall_mem_singleton.2 ⟨?_, ?_, textEnds_of_ge _ hge⟩⟩
    · exact tokensFrom_token pos fresh (isBlankByte_of_ge hge) hlex
    · simpa [Token.isBlankMark] using he
    · simp [Token.isJunk, hge]

theorem tokensFrom_blank {u : Bytes} (hu : Blank u) (s : Bytes) (pos : Nat) (fresh : Bool) :
    ∃ marks fresh', tokensFrom pos fresh (u ++ s) = marks ++ tokensFrom (pos + u.length) fresh' s ∧
      ∀ t ∈ marks, t.isBlankMark = true := by
  induction hu generalizing pos fresh with
  | nil => exact ⟨[], fresh, rfl, by simp⟩
  | @unit e u he _ ih =>
    obtain ⟨marks, fresh₁, hmarks, hblank⟩ := tokensFrom_unit he (u ++ s) pos fresh
    obtain ⟨more, fresh₂, hmore, hrest⟩ := ih (pos + e.length) fresh₁
    refine ⟨marks ++ more, fresh₂, ?_, fun t ht => (List.mem_append.1 ht).elim (fun h => (hblank t h).1) (hrest t)⟩
    rw [List.append_assoc, hmarks, hmore, List.append_assoc, List.length_append, Nat.add_assoc]

/-- Blanks give no token but marks that nothing depends on. -/
theorem tokensFrom_loose {u : Bytes} (hu : Loose u) (s : Bytes) (pos : Nat) (fresh : Bool) :
    ∃ junk fresh', tokensFrom pos fresh (u ++ s) = junk ++ tokensFrom (pos + u.length) fresh' s ∧
      ∀ t ∈ junk, t.isJunk = true ∧ textEnds t.text = true := by
  induction hu generalizing pos fresh with
  | nil => exact ⟨[], fresh, rfl, by simp⟩
  | @unit e u he _ ih =>
    obtain ⟨marks, fresh₁, hmarks, hblank⟩ := tokensFrom_unit he (u ++ s) pos fresh
    obtain ⟨junk, fresh₂, hmore, hjunk⟩ := ih (pos + e.length) fresh₁
    refine ⟨marks ++ junk, fresh₂, ?_, fun t ht => (List.mem_append.1 ht).elim (fun h => (hblank t h).2) (hjunk t)⟩
    rw [List.append_assoc, hmarks, hmore, List.append_assoc, List.length_append, Nat.add_assoc]
  | @rest c u hc _ ih =>
    obtain ⟨hge, hlex⟩ := lexeme_of_isTail fresh (u ++ s) hc
    obtain ⟨junk, fresh', hrest, hjunk⟩ := ih (pos + 1) false
    have htoken : tokensFrom pos fresh (c :: (u ++ s))
      = ⟨.mark, [c], pos⟩ :: tokensFrom (pos + 1) false (u ++ s) :=
      tokensFrom_token (b := []) pos fresh (isBlankByte_of_ge hge) hlex
    refine ⟨⟨.mark, [c], pos⟩ :: junk, fresh', ?_, List.forall_mem_cons.2
      ⟨⟨by simp [Token.isJunk, hge], textEnds_of_ge _ hge⟩, hjunk⟩⟩
    rw [List.cons_append, htoken, hrest, List.cons_append, List.length_cons, Nat.add_right_comm, Nat.add_assoc]

theorem tokensFrom_gaps {g : Bytes} (hg : IsGapText g) (s : Bytes) (pos : Nat) (fresh : Bool) :
    tokensFrom pos fresh (g ++ s) = tokensFrom (pos + g.length) fresh s := by
  induction g generalizing pos with
  | nil => rfl
  | cons c g ih =>
    rw [List.cons_append, tokensFrom_gap _ _ _ (hg c List.mem_cons_self),
      ih (fun x hx => hg x (List.mem_cons_of_mem _ hx)), List.length_cons]
    congr 1
    omega

end Flowsmith.Source
