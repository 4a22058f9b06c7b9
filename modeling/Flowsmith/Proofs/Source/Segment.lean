import Flowsmith.Proofs.Source.Lexeme

/-!
# Tokens of the parts of a text

The tokens of a text are found again in every longer text that does not continue its last token, and
in every part of it that cuts through no token.

* `tokensFrom_append` : the tokens of a longer text;
* `sorted_tokensFrom` : tokens follow one another;
* `tokensFrom_drop`, `tokensFrom_take` : the tokens from an offset on, and up to one.
-/

namespace Flowsmith.Source

open Utf8 (isTail decode decode?)

/-! ## Sizes -/

theorem length_takeWhile_le (p : UInt8 → Bool) (s : Bytes) : (s.takeWhile p).length ≤ s.length :=
  (List.takeWhile_sublist p).length_le

theorem commentSize_le (s : Bytes) : commentSize s ≤ s.length := by
  fun_induction commentSize s with
  | case1 => simp
  | case2 => simp
  | case3 => simp
  | case4 a b s _ ih => simp only [List.length_cons] at ih ⊢; omega

theorem quotedSize_le (quote : UInt8) (s : Bytes) : quotedSize quote s ≤ s.length := by
  fun_induction quotedSize quote s <;> simp only [List.length_cons, List.length_nil] at * <;> omega

theorem verbatimSize_le (s : Bytes) : verbatimSize s ≤ s.length := by
  fun_induction verbatimSize s <;> simp only [List.length_cons, List.length_nil] at * <;> omega

theorem decode_size_le (c : UInt8) (s : Bytes) : (decode (c :: s)).2 ≤ s.length + 1 := by
  unfold decode
  cases h : decode? (c :: s) with
  | none => simp
  | some p =>
    obtain ⟨v, k⟩ := p
    exact (Utf8.decode?_take h).1

theorem wordSize_le (s : Bytes) : wordSize s ≤ s.length := by
  match s with
  | [] => simp [wordSize_nil]
  | c :: s =>
    rw [wordSize_cons]
    split
    · have hle := wordSize_le (s.drop ((decode (c :: s)).2 - 1))
      have hk := decode_size_le c s
      have hpos := Utf8.decode_size_pos (c :: s)
      rw [List.length_drop] at hle
      rw [List.length_cons]
      omega
    · exact Nat.zero_le _
termination_by s.length
decreasing_by simp only [List.length_drop, List.length_cons]; omega

theorem stringSize?_le {c : UInt8} {s : Bytes} {k : Nat} (h : stringSize? c s = some k) :
    k ≤ s.length := by
  obtain ⟨p, v, r, hp, rfl⟩ := exists_opener h
  rw [stringSize?_opener hp] at h
  have hrest : stringRest v r ≤ r.length := by
    cases v with
    | true => exact verbatimSize_le r
    | false => exact quotedSize_le _ r
  cases h
  rw [List.length_append]
  omega

/-- A token lies within the text. -/
theorem lexeme_size_le (fresh : Bool) (c : UInt8) (s : Bytes) :
    (lexeme fresh c s).2 ≤ s.length := by
  unfold lexeme
  have hline : lineSize s ≤ s.length := length_takeWhile_le _ s
  split
  · exact hline
  · split
    · exact hline
    · split
      · rename_i h
        have hle := commentSize_le s.tail
        obtain ⟨s, rfl⟩ := List.head?_eq_some_iff.1 h.2
        exact Nat.succ_le_succ hle
      · split
        · rename_i k hk
          exact stringSize?_le hk
        · split
          · exact quotedSize_le _ s
          · split
            · exact length_takeWhile_le _ s
            · split
              · have hw := wordSize_le s
                split
                · exact Nat.zero_le _
                · rename_i k hk
                  rw [hk] at hw
                  exact hw
              · split
                · have hw := wordSize_le (c :: s)
                  rw [List.length_cons] at hw
                  exact Nat.sub_le_iff_le_add.2 hw
                · split
                  · rename_i h
                    obtain ⟨s, rfl⟩ := List.head?_eq_some_iff.1 h.2
                    simp
                  · have hk := decode_size_le c s
                    exact Nat.sub_le_iff_le_add.2 hk

/-! ## Steps of the scanner -/

theorem tokensFrom_nil (pos : Nat) (fresh : Bool) : tokensFrom pos fresh [] = [] := by
  rw [tokensFrom]

theorem tokensFrom_newline (pos : Nat) (fresh : Bool) (s : Bytes) :
    tokensFrom pos fresh (Bytes.newline :: s) = tokensFrom (pos + 1) true s := by
  rw [tokensFrom, if_pos rfl]

theorem tokensFrom_gap {c : UInt8} (pos : Nat) (fresh : Bool) (s : Bytes) (h : isGap c = true) :
    tokensFrom pos fresh (c :: s) = tokensFrom (pos + 1) fresh s := by
  have hc : c ≠ Bytes.newline := by
    rintro rfl
    revert h
    decide
  rw [tokensFrom, if_neg hc, if_pos h]

def isBlankByte (c : UInt8) : Bool := c == Bytes.newline || isGap c

theorem tokensFrom_token {c : UInt8} {b r : Bytes} {kind : TokenKind} (pos : Nat) (fresh : Bool)
    (hc : isBlankByte c = false) (h : lexeme fresh c (b ++ r) = (kind, b.length)) :
    tokensFrom pos fresh (c :: (b ++ r))
      = ⟨kind, c :: b, pos⟩ :: tokensFrom (pos + (c :: b).length) false r := by
  simp only [isBlankByte, Bool.or_eq_false_iff, beq_eq_false_iff_ne] at hc
  rw [tokensFrom, if_neg hc.1, if_neg (by simp [hc.2])]
  simp only [h, List.take_left', List.drop_left']

theorem tokensFrom_cases (pos : Nat) (fresh : Bool) (c : UInt8) (s : Bytes) :
    (isBlankByte c = true ∧
      tokensFrom pos fresh (c :: s) = tokensFrom (pos + 1) (fresh || c == Bytes.newline) s) ∨
    (isBlankByte c = false ∧ ∃ kind b r, s = b ++ r ∧ lexeme fresh c (b ++ r) = (kind, b.length) ∧
      tokensFrom pos fresh (c :: s)
        = ⟨kind, c :: b, pos⟩ :: tokensFrom (pos + (c :: b).length) false r) := by
  cases hc : isBlankByte c with
  | true =>
    refine Or.inl ⟨rfl, ?_⟩
    simp only [isBlankByte, Bool.or_eq_true, beq_iff_eq] at hc
    rcases hc with rfl | hg
    · rw [tokensFrom_newline]
      simp
    · have hn : (c == Bytes.newline) = false := by
        rw [beq_eq_false_iff_ne]
        rintro rfl
        revert hg
        decide
      rw [tokensFrom_gap _ _ _ hg, hn, Bool.or_false]
  | false =>
    have hsize : lexeme fresh c (s.take (lexeme fresh c s).2 ++ s.drop (lexeme fresh c s).2)
        = ((lexeme fresh c s).1, (s.take (lexeme fresh c s).2).length) := by
      rw [List.take_append_drop, List.length_take, Nat.min_eq_left (lexeme_size_le fresh c s)]
    have htoken := tokensFrom_token pos fresh hc hsize
    rw [List.take_append_drop] at htoken
    exact Or.inr ⟨rfl, _, _, _, (List.take_append_drop _ s).symm, hsize, htoken⟩

/-! ## Tokens of a longer and of a shorter text -/

theorem Tame.extend {x : UInt8} (s r : Bytes) (h : isStop x = true) : Tame s (s ++ x :: r) := by
  induction s with
  | nil => exact .stop [] r h
  | cons y s ih => exact .byte y ih

/-- A token that is the last one of a text and takes the rest of its line. -/
def endsWithTrivia (ts : List Token) : Bool := ts.getLast?.any (·.isTrivia)

/-- The tokens of a text are those of a longer one when the text is followed by a byte that ends
tokens, joins none of them and is a line feed after a comment or preprocessor line. -/
theorem tokensFrom_append {x : UInt8} (r : Bytes) (hx : isStop x = true) (s : Bytes) :
    ∀ (pos : Nat) (fresh : Bool), (∀ t ∈ tokensFrom pos fresh s, textEnds t.text = true) →
      (∀ t ∈ tokensFrom pos fresh s, joins t.kind t.text x = false) →
      (endsWithTrivia (tokensFrom pos fresh s) = true → x = Bytes.newline) →
      ∃ fresh', tokensFrom pos fresh (s ++ x :: r)
        = tokensFrom pos fresh s ++ tokensFrom (pos + s.length) fresh' (x :: r) := by
  match s with
  | [] =>
    intro pos fresh _ _ _
    exact ⟨fresh, by rw [tokensFrom_nil]; rfl⟩
  | c :: s =>
    intro pos fresh hends hjoin hlast
    rcases tokensFrom_cases pos fresh c s with ⟨hc, heq⟩ | ⟨hc, kind, b, rest, rfl, hlex, heq⟩
    · rw [heq] at hends hjoin hlast
      obtain ⟨fresh', ih⟩ := tokensFrom_append r hx s (pos + 1) _ hends hjoin hlast
      refine ⟨fresh', ?_⟩
      rcases tokensFrom_cases pos fresh c (s ++ x :: r) with ⟨_, heq'⟩ | ⟨hc', _⟩
      · rw [List.cons_append, heq', heq, ih, List.length_cons]
        congr 2
        omega
      · rw [hc] at hc'
        cases hc'
    · rw [heq] at hends hjoin hlast
      have hlex' : lexeme fresh c (b ++ (rest ++ x :: r)) = (kind, b.length) := by
        refine lexeme_of_tame (Tame.extend rest r hx) (hends _ List.mem_cons_self) ?_ ?_ hlex
        · intro y hy hjoins
          cases rest with
          | nil =>
            cases hy
            rw [hjoin _ List.mem_cons_self] at hjoins
            cases hjoins
          | cons z rest => exact hy
        · intro hkind y hy
          cases rest with
          | nil =>
            cases hy
            refine Or.inl (hlast ?_)
            rw [tokensFrom_nil]
            cases kind <;> simp [isLine] at hkind <;> rfl
          | cons z rest => exact Or.inr hy
      obtain ⟨fresh', ih⟩ := tokensFrom_append r hx rest (pos + (c :: b).length) false
        (fun t ht => hends t (List.mem_cons_of_mem _ ht))
        (fun t ht => hjoin t (List.mem_cons_of_mem _ ht)) (fun h => hlast (by
          unfold endsWithTrivia at h ⊢
          cases hts : tokensFrom (pos + (c :: b).length) false rest with
          | nil => rw [hts] at h; cases h
          | cons t ts => rw [hts] at h; rwa [List.getLast?_cons_cons]))
      refine ⟨fresh', ?_⟩
      have htoken := tokensFrom_token pos fresh hc hlex'
      rw [List.cons_append, List.append_assoc, htoken, heq, ih, List.cons_append]
      congr 3
      simp only [List.length_cons, List.length_append]
      omega
termination_by s.length

/-! ## Where the tokens lie -/

theorem le_start_of_mem {s : Bytes} {pos : Nat} {fresh : Bool} {t : Token}
    (h : t ∈ tokensFrom pos fresh s) : pos ≤ t.start ∧ t.start < t.stop := by
  match s with
  | [] => rw [tokensFrom_nil] at h; cases h
  | c :: s =>
    rcases tokensFrom_cases pos fresh c s with ⟨_, heq⟩ | ⟨_, kind, b, r, rfl, _, heq⟩
    · rw [heq] at h
      have ih := le_start_of_mem h
      omega
    · rw [heq] at h
      rcases List.mem_cons.1 h with rfl | h
      · simp [Token.stop]
      · have ih := le_start_of_mem h
        omega
termination_by s.length

theorem sorted_tokensFrom (s : Bytes) (pos : Nat) (fresh : Bool) :
    (tokensFrom pos fresh s).Pairwise fun a b => a.stop ≤ b.start := by
  match s with
  | [] => rw [tokensFrom_nil]; exact List.Pairwise.nil
  | c :: s =>
    rcases tokensFrom_cases pos fresh c s with ⟨_, heq⟩ | ⟨_, kind, b, r, rfl, _, heq⟩
    · rw [heq]
      exact sorted_tokensFrom s _ _
    · rw [heq]
      refine List.Pairwise.cons (fun t ht => ?_) (sorted_tokensFrom r _ _)
      exact (le_start_of_mem ht).1
termination_by s.length

def Clean (ts : List Token) (x : Nat) : Prop := ∀ t ∈ ts, t.stop ≤ x ∨ x ≤ t.start

def Token.within (x y : Nat) (t : Token) : Bool := decide (x ≤ t.start) && decide (t.stop ≤ y)

/-- The tokens from an offset on are those of the text that begins there. -/
theorem tokensFrom_drop (s : Bytes) (pos : Nat) (fresh : Bool) (x : Nat) (hx : pos ≤ x)
    (hclean : Clean (tokensFrom pos fresh s) x) :
    ∃ fresh', tokensFrom x fresh' (s.drop (x - pos))
      = (tokensFrom pos fresh s).filter fun t => decide (x ≤ t.start) := by
  match s with
  | [] => exact ⟨fresh, by simp [tokensFrom_nil]⟩
  | c :: s =>
    by_cases hpos : x = pos
    · refine ⟨fresh, ?_⟩
      rw [hpos, Nat.sub_self, List.drop_zero]
      refine (List.filter_eq_self.2 fun t ht => ?_).symm
      exact decide_eq_true (le_start_of_mem ht).1
    · rcases tokensFrom_cases pos fresh c s with ⟨_, heq⟩ | ⟨_, kind, b, r, rfl, _, heq⟩
      · rw [heq] at hclean ⊢
        obtain ⟨fresh', ih⟩ := tokensFrom_drop s (pos + 1) _ x (by omega) hclean
        refine ⟨fresh', ?_⟩
        rw [← ih, show x - pos = x - (pos + 1) + 1 by omega, List.drop_succ_cons]
      · rw [heq] at hclean ⊢
        have hstop : pos + (c :: b).length ≤ x := by
          rcases hclean _ List.mem_cons_self with h | h
          · exact h
          · exact absurd (Nat.le_antisymm h hx) hpos
        obtain ⟨fresh', ih⟩ := tokensFrom_drop r (pos + (c :: b).length) false x hstop
          fun t ht => hclean t (List.mem_cons_of_mem _ ht)
        refine ⟨fresh', ?_⟩
        rw [List.filter_cons_of_neg (by simp; omega), ← ih]
        congr 1
        rw [← List.cons_append, show x - pos = (c :: b).length + (x - (pos + (c :: b).length)) by omega,
          List.drop_append, List.drop_eq_nil_of_le (by omega)]
        simp
termination_by s.length

theorem tokensFrom_take (s : Bytes) (pos : Nat) (fresh : Bool) (y : Nat)
    (hclean : Clean (tokensFrom pos fresh s) y)
    (hends : ∀ t ∈ tokensFrom pos fresh s, t.stop ≤ y → textEnds t.text = true) :
    tokensFrom pos fresh (s.take (y - pos))
      = (tokensFrom pos fresh s).filter fun t => decide (t.stop ≤ y) := by
  match s with
  | [] => simp [tokensFrom_nil]
  | c :: s =>
    by_cases hpos : y ≤ pos
    · rw [Nat.sub_eq_zero_of_le hpos, List.take_zero, tokensFrom_nil]
      refine (List.filter_eq_nil_iff.2 fun t ht => ?_).symm
      have := le_start_of_mem ht
      simp only [decide_eq_true_eq]
      omega
    · have hsucc : y - pos = y - (pos + 1) + 1 := by omega
      rcases tokensFrom_cases pos fresh c s with ⟨hc, heq⟩ | ⟨hc, kind, b, r, rfl, hlex, heq⟩
      · rw [heq] at hclean hends ⊢
        have ih := tokensFrom_take s (pos + 1) _ y hclean hends
        rw [hsucc, List.take_succ_cons]
        rcases tokensFrom_cases pos fresh c (s.take (y - (pos + 1))) with ⟨_, heq'⟩ | ⟨hc', _⟩
        · rw [heq', ih]
        · rw [hc] at hc'
          cases hc'
      · rw [heq] at hclean hends ⊢
        have hstop : pos + (c :: b).length ≤ y := by
          rcases hclean _ List.mem_cons_self with h | h
          · exact h
          · exact absurd h hpos
        have hlex' : lexeme fresh c (b ++ r.take (y - (pos + (c :: b).length))) = (kind, b.length) := by
          have hhead : ∀ x, (r.take (y - (pos + (c :: b).length))).head? = some x →
              r.head? = some x := by
            intro x hx
            cases r with
            | nil => rw [List.take_nil] at hx; cases hx
            | cons z r =>
              cases hn : y - (pos + (c :: b).length) with
              | zero => rw [hn] at hx; cases hx
              | succ n => rw [hn] at hx; exact hx
          exact lexeme_of_tame (Tame.take _ r) (hends _ List.mem_cons_self hstop)
            (fun x hx _ => hhead x hx) (fun _ x hx => Or.inr (hhead x hx)) hlex
        have ih := tokensFrom_take r (pos + (c :: b).length) false y
          (fun t ht => hclean t (List.mem_cons_of_mem _ ht))
          (fun t ht => hends t (List.mem_cons_of_mem _ ht))
        have hcut : (c :: (b ++ r)).take (y - pos)
            = c :: (b ++ r.take (y - (pos + (c :: b).length))) := by
          rw [← List.cons_append, ← List.cons_append,
            show y - pos = (c :: b).length + (y - (pos + (c :: b).length)) by omega,
            List.take_length_add_append]
        rw [hcut, tokensFrom_token pos fresh hc hlex', ih, List.filter_cons_of_pos]
        exact decide_eq_true hstop
termination_by s.length

theorem sorted_total {ts : List Token} (hs : ts.Pairwise fun a b => a.stop ≤ b.start) {t u : Token}
    (ht : t ∈ ts) (hu : u ∈ ts) (hne : t ≠ u) : t.stop ≤ u.start ∨ u.stop ≤ t.start := by
  induction hs with
  | nil => cases ht
  | @cons a ts hall _ ih =>
    rcases List.mem_cons.1 ht with rfl | ht'
    · rcases List.mem_cons.1 hu with rfl | hu'
      · exact absurd rfl hne
      · exact Or.inl (hall u hu')
    · rcases List.mem_cons.1 hu with rfl | hu'
      · exact Or.inr (hall t ht')
      · exact ih ht' hu'

/-- A token begins and ends outside of all others. -/
theorem clean_of_mem {s : Bytes} {pos : Nat} {fresh : Bool} {t : Token}
    (ht : t ∈ tokensFrom pos fresh s) :
    Clean (tokensFrom pos fresh s) t.start ∧ Clean (tokensFrom pos fresh s) t.stop := by
  have hlt := le_start_of_mem ht
  constructor
  all_goals
    intro u hu
    have hlt' := le_start_of_mem hu
    by_cases hne : u = t
    · subst hne
      omega
    · have := sorted_total (sorted_tokensFrom s pos fresh) hu ht hne
      omega

/-- **The tokens of a part.** The part between two offsets that cut no token has the tokens that lie
between them. -/
theorem tokensFrom_slice {s : Bytes} {pos : Nat} {fresh : Bool} {x y : Nat} (hpos : pos ≤ x)
    (hxy : x ≤ y) (hx : Clean (tokensFrom pos fresh s) x) (hy : Clean (tokensFrom pos fresh s) y)
    (hends : ∀ t ∈ tokensFrom pos fresh s, x ≤ t.start → t.stop ≤ y → textEnds t.text = true) :
    ∃ fresh', tokensFrom x fresh' (s.slice (x - pos) (y - pos))
      = (tokensFrom pos fresh s).filter (Token.within x y) := by
  obtain ⟨fresh', hdrop⟩ := tokensFrom_drop s pos fresh x hpos hx
  refine ⟨fresh', ?_⟩
  have htake := tokensFrom_take (s.drop (x - pos)) x fresh' y
  rw [hdrop] at htake
  rw [Bytes.slice, show y - pos - (x - pos) = y - x by omega, htake]
  · rw [List.filter_filter]
    congr 1
    funext t
    simp [Token.within, Bool.and_comm]
  · intro t ht
    exact hy t (List.mem_filter.1 ht).1
  · intro t ht hstop
    obtain ⟨hmem, hstart⟩ := List.mem_filter.1 ht
    exact hends t hmem (by simpa using hstart) hstop

theorem commentSize_pos (c : UInt8) (s : Bytes) : 0 < commentSize (c :: s) := by
  cases s with
  | nil => simp [commentSize]
  | cons d s =>
    rw [commentSize]
    split <;> omega

theorem commentEnds_of_size (b r : Bytes) (hr : r ≠ []) (h : commentSize (b ++ r) = b.length) :
    commentEnds b = true := by
  obtain ⟨y, r, rfl⟩ := List.exists_cons_of_ne_nil hr
  fun_induction commentEnds b with
  | case1 =>
    have := commentSize_pos y r
    rw [List.nil_append] at h
    simp only [List.length_nil] at h
    omega
  | case2 x =>
    have := commentSize_pos y r
    simp only [List.cons_append, List.nil_append, List.length_cons, List.length_nil] at h
    rw [commentSize] at h
    split at h <;> omega
  | case3 a b s hab => rfl
  | case4 a b s hab ih =>
    simp only [List.cons_append, List.length_cons] at h ih
    rw [commentSize, if_neg hab] at h
    exact ih (by omega)

/-- A comment after which there is another token is closed. -/
theorem textEnds_of_followed {s : Bytes} {pos : Nat} {fresh : Bool} {t u : Token}
    (ht : t ∈ tokensFrom pos fresh s) (hu : u ∈ tokensFrom pos fresh s) (h : t.stop ≤ u.start)
    (hends : literalEnds t.text = true) : textEnds t.text = true := by
  match s with
  | [] => rw [tokensFrom_nil] at ht; cases ht
  | c :: s =>
    rcases tokensFrom_cases pos fresh c s with ⟨_, heq⟩ | ⟨_, kind, b, r, rfl, hlex, heq⟩
    · rw [heq] at ht hu
      exact textEnds_of_followed ht hu h hends
    · rw [heq] at ht hu
      rcases List.mem_cons.1 hu with rfl | hu
      · have hlt : t.start < t.stop ∧ pos ≤ t.start := by
          have := heq ▸ ht
          have := le_start_of_mem this
          omega
        simp only at h
        omega
      · rcases List.mem_cons.1 ht with rfl | ht
        · unfold textEnds
          rw [hends, Bool.true_and, Bool.or_eq_true]
          by_cases hopen : (c :: b).take 2 = ("/*" : Bytes)
          · refine Or.inr ?_
            obtain ⟨rfl, hb⟩ := List.cons.inj hopen
            cases b with
            | nil => cases hb
            | cons d b =>
              obtain ⟨rfl, -⟩ := List.cons.inj hb
              have hr : r ≠ [] := by
                rintro rfl
                rw [tokensFrom_nil] at hu
                cases hu
              have hsize : commentSize (b ++ r) + 1 = b.length + 1 := (Prod.mk.inj hlex).2
              exact commentEnds_of_size b r hr (by omega)
          · exact Or.inl (bne_iff_ne.2 hopen)
        · exact textEnds_of_followed ht hu h hends
termination_by s.length

/-- A byte that is a mark whatever follows it; the number sign, where it begins no line. -/
def isPlainMark (c : UInt8) : Bool :=
  c < 0x80 && !isBlankByte c && !isWordPart c.toNat &&
    !(['/', '"', '\'', '@', '$', '='].map Char.toUInt8).contains c

theorem isWordPart_of_isDigitByte {c : UInt8} (h : Bytes.isDigitByte c = true) :
    isWordPart c.toNat = true := by
  simp only [Bytes.isDigitByte, Bool.and_eq_true, decide_eq_true_eq] at h
  have hlo : 0x30 ≤ c.toNat := UInt8.le_iff_toNat_le.1 h.1
  have hhi : c.toNat ≤ 0x39 := UInt8.le_iff_toNat_le.1 h.2
  have hdigit : Text.isDigit c.toNat = true := by
    unfold Text.isDigit Text.digits
    rw [Text.inRanges]
    simp [Nat.not_lt.2 hlo, hhi]
  simp [isWordPart, hdigit]

theorem lexeme_plainMark {fresh : Bool} {c : UInt8} (s : Bytes) (h : isPlainMark c = true)
    (hc : c = '#'.toUInt8 → fresh = false) : lexeme fresh c s = (.mark, 0) := by
  simp only [isPlainMark, Bool.and_eq_true, decide_eq_true_eq, Bool.not_eq_true', List.map_cons,
    List.map_nil, List.contains_eq_mem, List.mem_cons, List.not_mem_nil, or_false,
    decide_eq_false_iff_not, not_or] at h
  obtain ⟨⟨⟨hlt, -⟩, hword⟩, hslash, hquote, hapos, hat, hdollar, hequal⟩ := h
  have hdigit : ¬ Bytes.isDigitByte c = true := fun hd =>
    Bool.false_ne_true (hword.symm.trans (isWordPart_of_isDigitByte hd))
  have hstring : stringSize? c s = none := by
    rw [stringSize?_eq_none_iff]
    exact ⟨hquote, fun h => absurd h hat, fun h => absurd h hdollar⟩
  have hbare : Bare fresh c s := ⟨fun hh => Bool.false_ne_true ((hc hh.1).symm.trans hh.2),
    fun hh => hslash hh.1, fun hh => hslash hh.1, hstring, hapos, hdigit⟩
  refine (Lexed.rune hbare hat ?_ (fun hh => hequal hh.1) ?_).lexeme_eq <;> rw [decode_of_lt s hlt]
  simp [isWordStart_eq_false hword]

/-- Whether only blanks precede a text on its line matters for a number sign alone. -/
theorem tokensFrom_fresh (s : Bytes) (pos : Nat) (fresh : Bool)
    (h : ∀ t, (tokensFrom pos fresh s).head? = some t → t.is "#" = false) :
    tokensFrom pos fresh s = tokensFrom pos true s := by
  match s with
  | [] => rw [tokensFrom_nil, tokensFrom_nil]
  | c :: s =>
    cases fresh with
    | true => rfl
    | false =>
      rcases tokensFrom_cases pos false c s with ⟨hc, heq⟩ | ⟨hc, kind, b, r, rfl, hlex, heq⟩
      · rcases tokensFrom_cases pos true c s with ⟨_, heq'⟩ | ⟨hc', _⟩
        · rw [heq, heq']
          rw [heq] at h
          cases hn : c == Bytes.newline with
          | true => rfl
          | false =>
            rw [hn] at h
            exact tokensFrom_fresh s (pos + 1) false h
        · rw [hc] at hc'
          cases hc'
      · have hsharp : c ≠ '#'.toUInt8 := by
          rintro rfl
          have hmark : (kind, b.length) = (TokenKind.mark, 0) := by
            rw [← hlex]
            exact lexeme_plainMark _ (by decide) fun _ => rfl
          obtain ⟨rfl, hb⟩ := Prod.mk.inj hmark
          obtain rfl := List.eq_nil_of_length_eq_zero hb
          cases h _ (by rw [heq]; rfl)
        have hlex' : lexeme true c (b ++ r) = (kind, b.length) := by
          rw [lexeme_fresh fun hh => absurd hh hsharp, hlex]
        rw [heq, tokensFrom_token pos true hc hlex']
termination_by s.length

end Flowsmith.Source
