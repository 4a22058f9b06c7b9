import Flowsmith.Proofs.Source.Chunk
import Mathlib.Data.List.Chain

/-!
# Tokens in front of a letter

Where a token begins with a letter, the token in front of it is neither a word nor a number nor anything
that runs on, so it does not depend on which letter that is, and it ends with no letter itself.

* `isWordPart_of_mem_word`, `isWordPart_of_mem_dotted` : the bytes of words and dotted names;
* `Akin.lexeme` : a token does not depend on which letters stand further on;
* `tokensFrom_abutting` : the tokens of a text in front of a letter that begins one.
-/

namespace Flowsmith.Source

open Utf8 (isTail decode decode?)
open Bytes (newline isLetterByte)

/-! ## The bytes of words -/

/-- A byte of the ASCII range in a text of word parts is a word part. -/
theorem isWordPart_of_wordSize {s : Bytes} (h : wordSize s = s.length) {x : UInt8} (hx : x ∈ s)
    (hlt : x < 0x80) : isWordPart x.toNat = true := by
  match s with
  | [] => cases hx
  | c :: rest =>
    have hsize := decode_size_le c rest
    have hpos := Utf8.decode_size_pos (c :: rest)
    rw [wordSize_cons] at h
    split at h
    · rename_i hpart
      have hle := wordSize_le (rest.drop ((decode (c :: rest)).2 - 1))
      rw [List.length_drop] at hle
      rw [List.length_cons] at h
      rw [← List.take_append_drop (decode (c :: rest)).2 (c :: rest), List.mem_append] at hx
      rcases hx with hx | hx
      · by_cases hc : c < 0x80
        · rw [decode_of_lt rest hc] at hx hpart
          rw [List.mem_singleton.1 hx]
          exact hpart
        · -- the other bytes of a code point are outside of the range
          exfalso
          cases hd : decode? (c :: rest) with
          | none =>
            rw [decode, hd, Option.getD_none, isWordPart_replacement] at hpart
            cases hpart
          | some p =>
            have htail := isTail_of_decode? hd x
            rw [show decode (c :: rest) = p by rw [decode, hd]; rfl] at hx hpos
            obtain ⟨k, hk⟩ : ∃ k, p.2 = k + 1 := ⟨p.2 - 1, by omega⟩
            rw [hk, List.take_succ_cons, List.tail_cons] at htail
            rw [hk, List.take_succ_cons, List.mem_cons] at hx
            rcases hx with rfl | hx
            · exact hc hlt
            · have hge := htail hx
              simp only [isTail, Bool.and_eq_true, decide_eq_true_eq] at hge
              exact absurd hlt (UInt8.not_lt.2 hge.1)
      · have hdrop : (c :: rest).drop (decode (c :: rest)).2
            = rest.drop ((decode (c :: rest)).2 - 1) := by
          obtain ⟨k, hk⟩ : ∃ k, (decode (c :: rest)).2 = k + 1 :=
            ⟨(decode (c :: rest)).2 - 1, by omega⟩
          rw [hk, List.drop_succ_cons, Nat.add_sub_cancel]
        rw [hdrop] at hx
        exact isWordPart_of_wordSize (by rw [List.length_drop]; omega) hx hlt
    · rw [List.length_cons] at h
      omega
termination_by s.length
decreasing_by
  simp only [List.length_drop, List.length_cons]
  omega

/-- A byte of the ASCII range in a word is a word part, but for the sign that a word may begin with. -/
theorem isWordPart_of_mem_word {w : Bytes} (h : IsWord w) {x : UInt8} (hlt : x < 0x80) :
    (x ∈ w → isWordPart x.toNat = true ∨ x = '@'.toUInt8) ∧
      (x ∈ w.tail → isWordPart x.toNat = true) := by
  obtain ⟨c, s, rfl, -, hlex⟩ := h.lexeme
  rw [List.append_nil] at hlex
  rcases wordSize_of_lexeme hlex with ⟨rfl, hsize⟩ | hsize
  · have htail : x ∈ s → isWordPart x.toNat = true := fun hx => isWordPart_of_wordSize hsize hx hlt
    refine ⟨fun hx => ?_, htail⟩
    rcases List.mem_cons.1 hx with rfl | hx
    · exact Or.inr rfl
    · exact Or.inl (htail hx)
  · have hall : x ∈ c :: s → isWordPart x.toNat = true := fun hx =>
      isWordPart_of_wordSize (s := c :: s) hsize hx hlt
    exact ⟨fun hx => Or.inl (hall hx), fun hx => hall (List.mem_cons_of_mem _ hx)⟩

theorem isWordPart_of_mem_dotted {s : Bytes} (h : IsDotted s) {x : UInt8} (hx : x ∈ s) (hlt : x < 0x80) :
    isWordPart x.toNat = true ∨ x = '@'.toUInt8 ∨ x = '.'.toUInt8 := by
  have hparts : ∀ parts : List Bytes, (∀ part ∈ parts, IsWord part) →
      x ∈ Bytes.joinWith ['.'.toUInt8] parts →
        isWordPart x.toNat = true ∨ x = '@'.toUInt8 ∨ x = '.'.toUInt8 := by
    intro parts hwords hmem
    induction parts with
    | nil => cases hmem
    | cons part parts ih =>
      have hword := (isWordPart_of_mem_word (hwords part List.mem_cons_self) hlt).1
      cases parts with
      | nil => exact (hword hmem).imp_right Or.inl
      | cons next parts =>
        simp only [Bytes.joinWith, List.mem_append, List.mem_singleton] at hmem
        rcases hmem with (hmem | hmem) | hmem
        · exact (hword hmem).imp_right Or.inl
        · exact Or.inr (Or.inr hmem)
        · exact ih (fun p hp => hwords p (List.mem_cons_of_mem _ hp)) hmem
  rw [← Bytes.joinWith_splitOn '.'.toUInt8 s] at hx
  exact hparts _ h hx

/-- A byte `y` may follow `z` in a dotted name: a sign that begins a word stands behind a dot. -/
def MayFollow (z y : UInt8) : Prop := y = '@'.toUInt8 → z = '.'.toUInt8

theorem isChain_of_tail {w : Bytes} (h : ∀ y ∈ w.tail, y ≠ '@'.toUInt8) : w.IsChain MayFollow := by
  induction w with
  | nil => exact List.IsChain.nil
  | cons z w ih =>
    rw [List.isChain_cons]
    refine ⟨fun y hy hat => absurd hat (h y (List.mem_of_mem_head? hy)),
      ih fun y hy => h y (List.mem_of_mem_tail hy)⟩

theorem isChain_dotted {s : Bytes} (h : IsDotted s) : s.IsChain MayFollow := by
  have hword : ∀ w : Bytes, IsWord w → w.IsChain MayFollow := by
    intro w hw
    apply isChain_of_tail
    rintro y hy rfl
    have hpart := (isWordPart_of_mem_word hw (by decide)).2 hy
    revert hpart
    decide
  have hparts : ∀ parts : List Bytes, (∀ part ∈ parts, IsWord part) →
      (Bytes.joinWith ['.'.toUInt8] parts).IsChain MayFollow := by
    intro parts hwords
    induction parts with
    | nil => exact List.IsChain.nil
    | cons part parts ih =>
      have hpart := hword part (hwords part List.mem_cons_self)
      cases parts with
      | nil => exact hpart
      | cons next parts =>
        have hrest := ih fun p hp => hwords p (List.mem_cons_of_mem _ hp)
        rw [Bytes.joinWith, List.append_assoc]
        refine hpart.append (hrest.cons fun y _ _ => rfl) fun z _ y hy hat => ?_
        cases hy
        exact absurd hat (by decide)
  rw [← Bytes.joinWith_splitOn '.'.toUInt8 s]
  exact hparts _ h

/-! ## Letters -/

theorem isTail_of_isLetterByte {x : UInt8} (h : isLetterByte x = true) : isTail x = false := by
  have hlt := lt_of_isLetterByte h
  simp only [isTail, Bool.and_eq_false_iff, decide_eq_false_iff_not]
  exact Or.inl (UInt8.not_le.2 hlt)

theorem ne_of_isLetterByte {x y : UInt8} (h : isLetterByte x = true) (hy : isLetterByte y = false) :
    x ≠ y := by
  rintro rfl
  rw [h] at hy
  cases hy

theorem wordSize_letter {x : UInt8} (hx : isLetterByte x = true) (r b : Bytes) :
    wordSize (b ++ x :: r) ≠ b.length := by
  match b with
  | [] =>
    have hpos := Utf8.decode_size_pos (x :: r)
    rw [List.nil_append, wordSize_cons, decode_of_lt r (lt_of_isLetterByte hx),
      if_pos (isWordPart_of_isLetterByte hx), List.length_nil]
    omega
  | c :: b =>
    have hpos := Utf8.decode_size_pos (c :: (b ++ x :: r))
    rw [List.cons_append, wordSize_cons, List.length_cons]
    split
    · intro h
      by_cases hk : (decode (c :: (b ++ x :: r))).2 - 1 ≤ b.length
      · rw [List.drop_append_of_le_length hk] at h
        refine wordSize_letter hx r (b.drop ((decode (c :: (b ++ x :: r))).2 - 1)) ?_
        rw [List.length_drop]
        omega
      · omega
    · omega
termination_by b.length
decreasing_by
  simp only [List.length_drop, List.length_cons]
  omega

/-! ## What is closed ends with no letter -/

def EndsPlain (s : Bytes) : Prop := ∀ z, s.getLast? = some z → isLetterByte z = false

theorem EndsPlain.append {a b : Bytes} (hb : b ≠ []) (h : EndsPlain b) : EndsPlain (a ++ b) := by
  intro z hz
  rw [List.getLast?_append, List.getLast?_eq_some_getLast hb, Option.some_or] at hz
  exact h z (by rw [List.getLast?_eq_some_getLast hb, hz])

theorem endsPlain_concat (a : Bytes) {z : UInt8} (h : isLetterByte z = false) :
    EndsPlain (a ++ [z]) := by
  intro y hy
  rw [List.getLast?_concat] at hy
  cases hy
  exact h

theorem EndsPlain.cons {c : UInt8} {b : Bytes} (hb : b ≠ []) (h : EndsPlain b) : EndsPlain (c :: b) :=
  EndsPlain.append (a := [c]) hb h

theorem endsPlain_of_last {b : Bytes} {z : UInt8} (h : b.getLast? = some z) (hz : isLetterByte z = false) :
    EndsPlain b := by
  intro y hy
  rw [h] at hy
  cases hy
  exact hz

theorem getLast?_cons_of_some {b : Bytes} {z : UInt8} (c : UInt8) (h : b.getLast? = some z) :
    (c :: b).getLast? = some z := by
  rw [List.getLast?_cons, h]
  rfl

theorem getLast?_comment {b : Bytes} (h : commentEnds b = true) (hsize : commentSize b = b.length) :
    b.getLast? = some '/'.toUInt8 := by
  fun_induction commentEnds b with
  | case1 => cases h
  | case2 => cases h
  | case3 a b s hab =>
    rw [commentSize, if_pos hab, List.length_cons, List.length_cons] at hsize
    obtain rfl := List.eq_nil_of_length_eq_zero (by omega : s.length = 0)
    rw [hab.2]
    rfl
  | case4 a b s hab ih =>
    rw [commentSize, if_neg hab, List.length_cons] at hsize
    exact getLast?_cons_of_some a (ih h (by omega))

theorem getLast?_quoted {quote : UInt8} {b : Bytes} (h : quotedEnds quote b = true)
    (hsize : quotedSize quote b = b.length) : b.getLast? = some quote := by
  fun_induction quotedEnds quote b with
  | case1 => cases h
  | case2 => cases h
  | case3 d s ih =>
    simp only [quotedSize, if_true, List.length_cons] at hsize
    exact getLast?_cons_of_some _ (getLast?_cons_of_some d (ih h (by omega)))
  | case4 s hc =>
    rw [quotedSize_cons _ hc, if_pos rfl, List.length_cons] at hsize
    obtain rfl := List.eq_nil_of_length_eq_zero (by omega : s.length = 0)
    rfl
  | case5 => cases h
  | case6 c s hc hq hn ih =>
    rw [quotedSize_cons _ hc, if_neg hq, if_neg hn, List.length_cons] at hsize
    exact getLast?_cons_of_some c (ih h (by omega))

theorem getLast?_verbatim {b : Bytes} (h : verbatimEnds b = true) (hsize : verbatimSize b = b.length) :
    b.getLast? = some '"'.toUInt8 := by
  fun_induction verbatimEnds b with
  | case1 => cases h
  | case2 => rfl
  | case3 s ih =>
    simp only [verbatimSize, if_true, List.length_cons] at hsize
    exact getLast?_cons_of_some _ (getLast?_cons_of_some _ (ih h (by omega)))
  | case4 d s hd =>
    simp only [verbatimSize, if_true, if_neg hd, List.length_cons] at hsize
    omega
  | case5 c s hc ih =>
    rw [verbatimSize_cons _ hc, List.length_cons] at hsize
    exact getLast?_cons_of_some c (ih h (by omega))

/-- The bytes of a code point behind its first one continue it. -/
theorem isTail_of_size {c : UInt8} {b : Bytes} (hsize : (decode (c :: b)).2 - 1 = b.length) {z : UInt8}
    (hz : z ∈ b) : isTail z = true := by
  cases hd : decode? (c :: b) with
  | none =>
    rw [decode, hd] at hsize
    rw [List.eq_nil_of_length_eq_zero hsize.symm] at hz
    cases hz
  | some p =>
    rw [decode, hd, Option.getD_some] at hsize
    have hpos := List.length_pos_of_mem hz
    have htail := isTail_of_decode? hd z
    rw [show p.2 = (c :: b).length by rw [List.length_cons]; omega, List.take_length, List.tail_cons] at htail
    exact htail hz

/-- A code point that begins no word ends with no letter. -/
theorem endsPlain_rune {c : UInt8} {b : Bytes} (hw : ¬ isWordStart (decode (c :: b)).1 = true)
    (hsize : (decode (c :: b)).2 - 1 = b.length) : EndsPlain (c :: b) := by
  cases b with
  | nil =>
    intro z hz
    cases hz
    cases hc : isLetterByte c with
    | false => exact hc
    | true =>
      rw [decode_of_lt [] (lt_of_isLetterByte hc)] at hw
      exact absurd (isWordStart_of_isLetterByte hc) hw
  | cons d b =>
    refine EndsPlain.cons (List.cons_ne_nil d b) fun z hz => ?_
    have htail := isTail_of_size hsize (List.mem_of_getLast? hz)
    cases hletter : isLetterByte z with
    | false => rfl
    | true =>
      rw [isTail_of_isLetterByte hletter] at htail
      cases htail

/-! ## Tokens in front of a letter -/

/-- A code point does not reach over a byte that continues none. -/
theorem decode_append {a : Bytes} {x : UInt8} (r : Bytes) (ha : a ≠ []) (hx : isTail x = false) :
    decode (a ++ x :: r) = decode a := by
  unfold decode
  cases hd : decode? a with
  | some p => rw [Utf8.decode?_append _ hd]
  | none =>
    rw [Utf8.decode?_append_of_none ha hd fun y hy => ?_]
    cases hy
    exact hx

/-- Two texts that go on alike up to a letter in each, or through a line feed. -/
inductive Akin : Bytes → Bytes → Prop where
  | letter {x y : UInt8} (r r' : Bytes) (hx : isLetterByte x = true) (hy : isLetterByte y = true) :
      Akin (x :: r) (y :: r')
  | line (r r' : Bytes) : Akin (newline :: r) (newline :: r')
  | byte (z : UInt8) {r r' : Bytes} (h : Akin r r') : Akin (z :: r) (z :: r')

theorem akin_append {x y : UInt8} (s r r' : Bytes) (hx : isLetterByte x = true)
    (hy : isLetterByte y = true) : Akin (s ++ x :: r) (s ++ y :: r') := by
  induction s with
  | nil => exact .letter r r' hx hy
  | cons z s ih => exact .byte z ih

theorem akin_line (s r r' : Bytes) : Akin (s ++ newline :: r) (s ++ newline :: r') := by
  induction s with
  | nil => exact .line r r'
  | cons z s ih => exact .byte z ih

section Akin

variable {u u' : Bytes} (h : Akin u u')

include h

theorem Akin.ne_nil : u ≠ [] := by
  cases h <;> exact List.cons_ne_nil _ _

theorem Akin.head? {d : UInt8} (hd : isLetterByte d = false) :
    u.head? = some d ↔ u'.head? = some d := by
  cases h with
  | letter r r' hx hy =>
    exact ⟨fun hh => absurd (Option.some.inj hh) (ne_of_isLetterByte hx hd),
      fun hh => absurd (Option.some.inj hh) (ne_of_isLetterByte hy hd)⟩
  | line r r' => exact Iff.rfl
  | byte z h => exact Iff.rfl

theorem Akin.take_two {d e : UInt8} (hd : isLetterByte d = false) (hline : d ≠ newline)
    (he : isLetterByte e = false) : u.take 2 = [d, e] ↔ u'.take 2 = [d, e] := by
  cases h with
  | letter r r' hx hy =>
    exact ⟨fun hh => absurd (List.cons.inj hh).1 (ne_of_isLetterByte hx hd),
      fun hh => absurd (List.cons.inj hh).1 (ne_of_isLetterByte hy hd)⟩
  | line r r' =>
    exact ⟨fun hh => absurd (List.cons.inj hh).1.symm hline, fun hh => absurd (List.cons.inj hh).1.symm hline⟩
  | byte z h =>
    have hhead := h.head? he
    rename_i r r'
    cases r <;> cases r' <;> simp_all

theorem Akin.append (b : Bytes) : Akin (b ++ u) (b ++ u') := by
  induction b with
  | nil => exact h
  | cons z b ih => exact .byte z ih

/-- The first code point of a text does not depend on what is there. -/
theorem Akin.decode {a : Bytes} (ha : a ≠ []) :
    Utf8.decode (a ++ u) = Utf8.decode (a ++ u') := by
  induction h generalizing a with
  | letter r r' hx hy =>
    rw [decode_append r ha (isTail_of_isLetterByte hx), decode_append r' ha (isTail_of_isLetterByte hy)]
  | line r r' => rw [decode_append r ha (by decide), decode_append r' ha (by decide)]
  | byte z _ ih =>
    have := ih (a := a ++ [z]) (by simp)
    simpa using this

end Akin

theorem Akin.wordSize {u u' : Bytes} (h : Akin u u') (b : Bytes) (hb : wordSize (b ++ u) = b.length) :
    wordSize (b ++ u') = b.length := by
  match b with
  | [] =>
    cases h with
    | letter r r' hx hy => exact absurd hb (wordSize_letter hx r [])
    | line r r' =>
      rw [List.nil_append, wordSize_cons, decode_of_lt r' (by decide), if_neg (by decide)]
      rfl
    | byte z h =>
      rename_i r r'
      have hdecode := h.decode (List.cons_ne_nil z [])
      simp only [List.cons_append, List.nil_append] at hb hdecode ⊢
      rw [wordSize_cons] at hb ⊢
      rw [← hdecode]
      split at hb
      · have hpos := Utf8.decode_size_pos (z :: r)
        rw [List.length_nil] at hb
        omega
      · rw [if_neg ‹_›]
        rfl
  | c :: b =>
    have hdecode : Utf8.decode (c :: (b ++ u)) = Utf8.decode (c :: (b ++ u')) :=
      h.decode (List.cons_ne_nil c b)
    rw [List.cons_append, wordSize_cons, List.length_cons] at hb ⊢
    rw [← hdecode]
    split at hb
    · rw [if_pos ‹_›]
      have hpos := Utf8.decode_size_pos (c :: (b ++ u))
      have hk : (Utf8.decode (c :: (b ++ u))).2 - 1 ≤ b.length := by omega
      rw [List.drop_append_of_le_length hk] at hb ⊢
      have hrest : Source.wordSize (b.drop ((Utf8.decode (c :: (b ++ u))).2 - 1) ++ u)
          = (b.drop ((Utf8.decode (c :: (b ++ u))).2 - 1)).length := by
        rw [List.length_drop]
        omega
      rw [h.wordSize (b.drop ((Utf8.decode (c :: (b ++ u))).2 - 1)) hrest, List.length_drop]
      omega
    · omega
termination_by b.length
decreasing_by
  simp only [List.length_drop, List.length_cons]
  omega

section Akin

variable {u u' : Bytes} (h : Akin u u')

include h

theorem Akin.lineSize {b : Bytes} (hb : lineSize (b ++ u) = b.length) :
    lineSize (b ++ u') = b.length := by
  unfold Source.lineSize at hb ⊢
  rw [length_takeWhile_append] at hb ⊢
  refine ⟨hb.1, fun z hz => ?_⟩
  obtain ⟨x, r, rfl⟩ := List.exists_cons_of_ne_nil h.ne_nil
  have hx := hb.2 x rfl
  rw [bne_eq_false_iff_eq] at hx ⊢
  subst hx
  exact Option.some.inj (hz.symm.trans ((h.head? (by decide)).1 rfl))

theorem Akin.numberSize {b : Bytes} (hb : numberSize (b ++ u) = b.length) :
    numberSize (b ++ u') = b.length := by
  unfold Source.numberSize at hb ⊢
  rw [length_takeWhile_append] at hb ⊢
  refine ⟨hb.1, fun z hz => ?_⟩
  cases hletter : isLetterByte z with
  | false => exact hb.2 z ((h.head? hletter).2 hz)
  | true =>
    cases h with
    | letter r r' hx hy =>
      have hpart := hb.2 _ rfl
      rw [isWordPart_of_isLetterByte hx, Bool.true_or] at hpart
      cases hpart
    | line r r' =>
      cases hz
      exact hb.2 _ rfl
    | byte z' h =>
      cases hz
      exact hb.2 z rfl

theorem Akin.quotedSize {quote : UInt8} {b : Bytes} (hb : quotedSize quote (b ++ u) = b.length) :
    quotedSize quote (b ++ u') = b.length := by
  cases hends : quotedEnds quote b with
  | true =>
    rw [quotedSize_append _ _ hends] at hb ⊢
    exact hb
  | false =>
    obtain ⟨hline, hmore⟩ := quotedSize_open h.ne_nil hends hb
    exact hmore u' ((h.head? (by decide)).1 hline)

theorem Akin.stringSize? {c : UInt8} {b : Bytes} (hb : stringSize? c (b ++ u) = some b.length) :
    stringSize? c (b ++ u') = some b.length := by
  obtain ⟨p, v, b', hp, rfl, hrest⟩ := string_parts hb
  refine stringSize?_of_parts hp ?_
  cases v with
  | true =>
    refine verbatimSize_tame b' (verbatimEnds_of_size h.ne_nil hrest) hrest fun hq hq' => ?_
    exact hq ((h.head? (by decide)).2 hq')
  | false => exact h.quotedSize hrest

theorem Akin.stringSize?_none {c : UInt8} {b : Bytes} (hb : Source.stringSize? c (b ++ u) = none) :
    Source.stringSize? c (b ++ u') = none := by
  have hall := h.append b
  have hquote : isLetterByte '"'.toUInt8 = false := by decide
  rw [stringSize?_eq_none_iff] at hb ⊢
  refine ⟨hb.1, fun hc => ⟨fun hh => ?_, fun ht => ?_⟩, fun hc => ⟨fun hh => ?_, fun ht => ?_⟩⟩
  · exact (hb.2.1 hc).1 ((hall.head? hquote).2 hh)
  · exact (hb.2.1 hc).2 ((hall.take_two (by decide) (by decide) hquote).2 ht)
  · exact (hb.2.2 hc).1 ((hall.head? hquote).2 hh)
  · exact (hb.2.2 hc).2 ((hall.take_two (by decide) (by decide) hquote).2 ht)

/-- **A token does not depend on what follows a letter or a line feed further on.** -/
theorem Akin.lexeme {fresh : Bool} {c : UInt8} {b : Bytes} {kind : TokenKind}
    (hb : lexeme fresh c (b ++ u) = (kind, b.length)) : lexeme fresh c (b ++ u') = (kind, b.length) := by
  have hslash : (b ++ u).head? = some '/'.toUInt8 ↔ (b ++ u').head? = some '/'.toUInt8 :=
    (h.append b).head? (by decide)
  have hstar : (b ++ u).head? = some '*'.toUInt8 ↔ (b ++ u').head? = some '*'.toUInt8 :=
    (h.append b).head? (by decide)
  have harrow : (b ++ u).head? = some '>'.toUInt8 ↔ (b ++ u').head? = some '>'.toUInt8 :=
    (h.append b).head? (by decide)
  have hdecode : Utf8.decode (c :: (b ++ u)) = Utf8.decode (c :: (b ++ u')) :=
    h.decode (List.cons_ne_nil c b)
  rw [lexeme_iff] at hb ⊢
  cases hb with
  | directive hc hfresh hk => exact .directive hc hfresh (h.lineSize hk)
  | line hc hs hk => exact .line hc (hslash.1 hs) (h.lineSize hk)
  | comment hc hs hk =>
    obtain ⟨b', rfl⟩ := exists_cons_of_head hs (by rintro rfl; cases hk)
    rw [List.cons_append, List.tail_cons, List.length_cons, Nat.add_right_cancel_iff] at hk
    have hends := commentEnds_of_size b' u h.ne_nil hk
    rw [commentSize_append _ _ hends] at hk
    exact .comment hc rfl (by rw [List.cons_append, List.tail_cons, commentSize_append _ _ hends, hk,
      List.length_cons])
  | string hk => exact .string (h.stringSize? hk)
  | character hc hk => exact .character hc (h.quotedSize hk)
  | number hc hk => exact .number hc (h.numberSize hk)
  | verbatim hc hs hpos hk => exact .verbatim hc (h.stringSize?_none hs) hpos (h.wordSize b hk)
  | sign hc hs hzero hk => exact .sign hc (h.stringSize?_none hs) hzero (h.wordSize b hk)
  | word hstart hk => exact .word (hdecode ▸ hstart) (h.wordSize (c :: b) hk)
  | arrow hc hs hk => exact .arrow hc (harrow.1 hs) hk
  | rune hbare hc hstart hno hk =>
    exact .rune ⟨hbare.sharp, fun hh => hbare.line ⟨hh.1, hslash.2 hh.2⟩,
      fun hh => hbare.comment ⟨hh.1, hstar.2 hh.2⟩, h.stringSize?_none hbare.string, hbare.character,
      hbare.number⟩ hc (hdecode ▸ hstart) (fun hh => hno ⟨hh.1, harrow.2 hh.2⟩) (hdecode ▸ hk)

end Akin

/-! ## How tokens end -/

/-- The bytes that end comments, literals and arrows. -/
def endingBytes : List UInt8 := ['/'.toUInt8, '\''.toUInt8, '"'.toUInt8, '>'.toUInt8]

/-- How the token of `c` and `b` ends in front of `y`. -/
inductive Ending (c : UInt8) (b : Bytes) (y : UInt8) (r : Bytes) : Prop where
  | closed {q : UInt8} (hq : q ∈ endingBytes) (h : b.getLast? = some q)
  | number (h : numberSize (b ++ y :: r) = b.length)
  | verbatim (h : wordSize (b ++ y :: r) = b.length)
  | word (h : wordSize (c :: b ++ y :: r) = (c :: b).length)
  | rune (hw : ¬ isWordStart (decode (c :: b)).1 = true) (h : (decode (c :: b)).2 - 1 = b.length)

/-- A token that ends in front of something other than a line feed. -/
theorem ending_of_lexeme {fresh : Bool} {c y : UInt8} {b r : Bytes} {kind : TokenKind} (hline : y ≠ newline)
    (htail : isTail y = false) (h : lexeme fresh c (b ++ y :: r) = (kind, b.length)) : Ending c b y r := by
  have hne : y :: r ≠ [] := List.cons_ne_nil y r
  have hlines : lineSize (b ++ y :: r) ≠ b.length := fun hsize => by
    have hnewline := ((length_takeWhile_append b (y :: r)).1 hsize).2 y rfl
    rw [bne_eq_false_iff_eq] at hnewline
    exact hline hnewline
  have hquoted : ∀ {quote : UInt8} {b' : Bytes}, quotedSize quote (b' ++ y :: r) = b'.length →
      b'.getLast? = some quote := fun {quote b'} hsize => by
    cases hends : quotedEnds quote b' with
    | false => exact absurd (Option.some.inj (quotedSize_open hne hends hsize).1) hline
    | true =>
      rw [quotedSize_append _ _ hends] at hsize
      exact getLast?_quoted hends hsize
  cases lexed_of_lexeme h with
  | directive _ _ hk | line _ _ hk => exact absurd hk hlines
  | comment hc hs hk =>
    obtain ⟨b', rfl⟩ := exists_cons_of_head hs (by rintro rfl; cases hk)
    rw [List.cons_append, List.tail_cons, List.length_cons, Nat.add_right_cancel_iff] at hk
    have hends := commentEnds_of_size b' (y :: r) hne hk
    rw [commentSize_append _ _ hends] at hk
    exact .closed (by decide) (getLast?_cons_of_some _ (getLast?_comment hends hk))
  | string hk =>
    obtain ⟨p, v, b', hp, rfl, hrest⟩ := string_parts hk
    have hlast : b'.getLast? = some '"'.toUInt8 := by
      cases v with
      | false => exact hquoted hrest
      | true =>
        have hends := verbatimEnds_of_size hne hrest
        have hsize : verbatimSize (b' ++ []) = b'.length :=
          verbatimSize_tame b' hends hrest fun _ => by simp
        rw [List.append_nil] at hsize
        exact getLast?_verbatim hends hsize
    exact .closed (q := '"'.toUInt8) (by decide) (by rw [List.getLast?_append, hlast]; rfl)
  | character _ hk => exact .closed (by decide) (hquoted hk)
  | number _ hk => exact .number hk
  | verbatim _ _ _ hk | sign _ _ _ hk => exact .verbatim hk
  | word _ hk => exact .word hk
  | arrow _ hs hk =>
    obtain ⟨b', rfl⟩ := exists_cons_of_head hs (by rintro rfl; cases hk)
    obtain rfl := List.eq_nil_of_length_eq_zero (Nat.succ.inj hk)
    exact .closed (by decide) rfl
  | rune _ _ hstart _ hk =>
    have hdecode : decode (c :: (b ++ y :: r)) = decode (c :: b) :=
      decode_append r (List.cons_ne_nil c b) htail
    rw [hdecode] at hk hstart
    exact .rune hstart (by rw [hk, Nat.add_sub_cancel])

theorem endsPlain_of_lexeme {fresh : Bool} {c x : UInt8} {b r : Bytes} {kind : TokenKind}
    (hx : isLetterByte x = true) (h : lexeme fresh c (b ++ x :: r) = (kind, b.length)) :
    EndsPlain (c :: b) := by
  cases ending_of_lexeme (ne_of_isLetterByte hx (by decide)) (isTail_of_isLetterByte hx) h with
  | closed hq hlast =>
    have hplain : endingBytes.all (fun q => !isLetterByte q) = true := rfl
    exact endsPlain_of_last (getLast?_cons_of_some c hlast) (by simpa using List.all_eq_true.1 hplain _ hq)
  | number hsize =>
    have hpart := ((length_takeWhile_append b (x :: r)).1 hsize).2 x rfl
    rw [isWordPart_of_isLetterByte hx, Bool.true_or] at hpart
    cases hpart
  | verbatim hsize => exact absurd hsize (wordSize_letter hx r b)
  | word hsize => exact absurd hsize (wordSize_letter hx r (c :: b))
  | rune hw hsize => exact endsPlain_rune hw hsize

theorem not_blank_of_mem_word {w : Bytes} {y : UInt8} {r : Bytes} (h : wordSize (w ++ y :: r) = w.length)
    {z : UInt8} (hz : z ∈ w) : isBlankByte z = false := by
  have hsize := wordSize_of_tame (Tame.done (y :: r)) w h
  rw [List.append_nil] at hsize
  have hbyte := Bytes.forall_byte (fun c => !isBlankByte c || (decide (c < 0x80) && !isWordPart c.toNat)) rfl z
  cases hblank : isBlankByte z with
  | false => rfl
  | true =>
    simp only [hblank, Bool.not_true, Bool.false_or, Bool.and_eq_true, decide_eq_true_eq,
      Bool.not_eq_true'] at hbyte
    rw [isWordPart_of_wordSize hsize hz hbyte.1] at hbyte
    exact hbyte.2

/-- **A token in front of something other than a line feed** ends with no blank. -/
theorem not_blank_of_lexeme {fresh : Bool} {c y : UInt8} {b r : Bytes} {kind : TokenKind}
    (hline : y ≠ newline) (htail : isTail y = false) (h : lexeme fresh c (b ++ y :: r) = (kind, b.length))
    {z : UInt8} (hz : b.getLast? = some z) : isBlankByte z = false := by
  have hmem := List.mem_of_getLast? hz
  cases ending_of_lexeme hline htail h with
  | closed hq hlast =>
    have hplain : endingBytes.all (fun q => !isBlankByte q) = true := rfl
    rw [hz, Option.some_inj] at hlast
    subst hlast
    simpa using List.all_eq_true.1 hplain _ hq
  | number hsize =>
    have hpart := ((length_takeWhile_append b (y :: r)).1 hsize).1 z hmem
    have hbyte := Bytes.forall_byte
      (fun c => !isBlankByte c || !(isWordPart c.toNat || c == '.'.toUInt8)) rfl z
    rw [hpart] at hbyte
    simpa using hbyte
  | verbatim hsize => exact not_blank_of_mem_word hsize hmem
  | word hsize => exact not_blank_of_mem_word hsize (List.mem_cons_of_mem c hmem)
  | rune hw hsize =>
    have hbyte := Bytes.forall_byte (fun c => !isBlankByte c || !isTail c) rfl z
    rw [isTail_of_size hsize hmem] at hbyte
    simpa using hbyte

/-! ## What stands in front of a letter -/

/-- **The tokens in front of a letter.** Where a token begins with a letter, the text in front of it ends
with no letter, and it has the same tokens in front of any letter. -/
theorem tokensFrom_abutting {x : UInt8} (r : Bytes) (hx : isLetterByte x = true) (s : Bytes) :
    ∀ (pos : Nat) (fresh : Bool), Clean (tokensFrom pos fresh (s ++ x :: r)) (pos + s.length) →
      EndsPlain s ∧ ∃ ts fresh', (∀ t ∈ ts, t.stop ≤ pos + s.length) ∧
        ∀ (y : UInt8) (r' : Bytes), isLetterByte y = true →
          tokensFrom pos fresh (s ++ y :: r') = ts ++ tokensFrom (pos + s.length) fresh' (y :: r') := by
  match s with
  | [] =>
    intro pos fresh _
    exact ⟨fun z hz => (nomatch hz), [], fresh, fun t ht => (nomatch ht), fun y r' _ => rfl⟩
  | c :: s =>
    intro pos fresh hclean
    rw [List.cons_append] at hclean
    rcases tokensFrom_cases pos fresh c (s ++ x :: r) with ⟨hc, heq⟩ | ⟨hc, kind, b, rest, happ, hlex, heq⟩
    · rw [heq, List.length_cons, Nat.add_comm s.length, ← Nat.add_assoc] at hclean
      obtain ⟨hplain, ts, fresh', hstop, hmore⟩ := tokensFrom_abutting r hx s (pos + 1) _ hclean
      refine ⟨?_, ts, fresh', ?_, fun y r' hy => ?_⟩
      · by_cases hs : s = []
        · subst hs
          apply endsPlain_concat []
          cases hletter : isLetterByte c with
          | false => rfl
          | true =>
            rw [isBlankByte_of_isLetterByte hletter] at hc
            cases hc
        · exact hplain.cons hs
      · intro t ht
        have := hstop t ht
        rw [List.length_cons]
        omega
      · rcases tokensFrom_cases pos fresh c (s ++ y :: r') with ⟨-, heq'⟩ | ⟨hc', -⟩
        · rw [List.cons_append, heq', hmore y r' hy, List.length_cons, Nat.add_assoc, Nat.add_comm 1]
        · rw [hc] at hc'
          cases hc'
    · -- the token stops in front of the letter
      rw [heq] at hclean
      have hle : b.length ≤ s.length := by
        have := hclean _ List.mem_cons_self
        simp only [Token.stop, List.length_cons] at this
        omega
      obtain ⟨s', rfl⟩ : b <+: s :=
        List.prefix_of_prefix_length_le ⟨rest, happ.symm⟩ (List.prefix_append s _) hle
      rw [List.append_assoc] at happ
      obtain rfl := List.append_cancel_left happ
      have hlen : pos + (c :: (b ++ s')).length = pos + (c :: b).length + s'.length := by
        rw [List.length_cons, List.length_append, List.length_cons]
        omega
      rw [hlen] at hclean ⊢
      obtain ⟨hplain, ts, fresh', hstop, hmore⟩ :=
        tokensFrom_abutting r hx s' (pos + (c :: b).length) false
          fun t ht => hclean t (List.mem_cons_of_mem _ ht)
      refine ⟨?_, ⟨kind, c :: b, pos⟩ :: ts, fresh', ?_, fun y r' hy => ?_⟩
      · by_cases hs : s' = []
        · subst hs
          rw [List.append_nil]
          exact endsPlain_of_lexeme hx hlex
        · exact hplain.append (a := c :: b) hs
      · intro t ht
        rcases List.mem_cons.1 ht with rfl | ht
        · exact Nat.le_add_right _ _
        · exact hstop t ht
      · have hlex' := (akin_append s' r r' hx hy).lexeme hlex
        have htoken := tokensFrom_token pos fresh hc hlex'
        rw [List.cons_append, List.append_assoc, htoken, hmore y r' hy, List.cons_append]
termination_by s.length

end Flowsmith.Source
