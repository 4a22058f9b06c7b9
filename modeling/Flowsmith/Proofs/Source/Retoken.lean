import Flowsmith.Proofs.Source.Closed

/-!
# Tokens of texts that differ in their blanks

* `lexeme_of_respaced` : a token in both texts;
* `Alike`, `Thin` : tokens that no declaration tells apart;
* `tokensFrom_respaced` : the tokens of both texts.
-/

namespace Flowsmith.Source

open Utf8 (isTail decode decode?)

/-! ## Tokens of texts that differ in their blanks -/

theorem Respaced.word_or_mark {lines fresh : Bool} {c : UInt8} {b r t : Bytes} {kind : TokenKind}
    (h : Respaced lines (b ++ r) t) (hlex : lexeme fresh c (b ++ r) = (kind, b.length))
    (hc : isBlankByte c = false) (hkind : kind = .word ∨ kind = .mark) :
    ∃ r', t = b ++ r' ∧ Respaced lines r r' := by
  have take : ∀ {b₁ r₁ r₁' : Bytes}, b ++ r = b₁ ++ r₁ → t = b₁ ++ r₁' → b₁.length = b.length →
      Respaced lines r₁ r₁' → ∃ r', t = b ++ r' ∧ Respaced lines r r' := by
    intro b₁ r₁ r₁' happ ht hlen hr
    obtain ⟨rfl, rfl⟩ := List.append_inj happ hlen.symm
    exact ⟨r₁', ht, hr⟩
  cases lexed_of_lexeme hlex with
  | verbatim _ _ _ hk | sign _ _ _ hk =>
    obtain ⟨b₁, r₁, r₁', happ, ht, hr, hsize⟩ := wordSize_of_respaced h
    exact take happ ht (hsize.symm.trans hk) hr
  | word hstart hk =>
    have hnl : c ≠ Bytes.newline := by
      rintro rfl
      cases hc
    obtain ⟨b₁, r₁, r₁', happ, ht, hr, hsize⟩ := wordSize_of_respaced (h.byte hnl)
    rw [hk] at hsize
    cases b₁ with
    | nil => cases hsize
    | cons d b₁ =>
      obtain ⟨rfl, happ₁⟩ := List.cons.inj happ
      exact take happ₁ (List.cons.inj ht).2 (Nat.succ.inj hsize).symm hr
  | arrow _ hs hk =>
    obtain ⟨b', rfl⟩ := exists_cons_of_head hs (by rintro rfl; cases hk)
    obtain rfl := List.eq_nil_of_length_eq_zero (Nat.succ.inj hk)
    exact h.uncons (by decide)
  | rune _ _ _ _ hk =>
    obtain ⟨b₁, r₁, r₁', happ, ht, hr, hsize, -⟩ := decode_of_respaced h c
    rw [hk, Nat.add_sub_cancel] at hsize
    exact take happ ht hsize.symm hr
  | _ => simp at hkind

theorem Respaced.append_left {lines : Bool} {p s t : Bytes} (hp : ∀ c ∈ p, isBlankPart c = false)
    (h : Respaced lines (p ++ s) t) : ∃ t', t = p ++ t' ∧ Respaced lines s t' := by
  induction p generalizing t with
  | nil => exact ⟨t, rfl, h⟩
  | cons c p ih =>
    obtain ⟨t, rfl, h₁⟩ := h.uncons (hp c List.mem_cons_self)
    obtain ⟨t, rfl, h₂⟩ := ih (fun x hx => hp x (List.mem_cons_of_mem _ hx)) h₁
    exact ⟨t, rfl, h₂⟩

theorem isBlankPart_of_opener {p : Bytes} {v : Bool} (h : (p, v) ∈ stringOpeners) :
    ∀ c ∈ p, isBlankPart c = false := by
  have hall : ∀ o ∈ stringOpeners, ∀ c ∈ o.1, isBlankPart c = false := by decide +kernel
  exact hall _ h

/-- The rest of a string literal is closed in both texts. -/
theorem Respaced.stringRest {lines v : Bool} {b r t : Bytes} (h : Respaced lines (b ++ r) t)
    (hends : stringEnds v b = true) (hsize : stringRest v (b ++ r) = b.length) :
    ∃ b' r', t = b' ++ r' ∧ stringEnds v b' = true ∧ stringRest v (b' ++ r') = b'.length ∧
      Respaced lines r r' := by
  cases v with
  | true =>
    obtain ⟨hb, hquote⟩ := closedVerbatim_of_size hends hsize
    obtain ⟨b', r', rfl, hb', hr⟩ := h.verbatim hb
    exact ⟨b', r', rfl, hb'.ends, hb'.size (hr.tame.not_quote hquote), hr⟩
  | false =>
    have hends' : quotedEnds '"'.toUInt8 b = true := hends
    have hsize' : quotedSize '"'.toUInt8 (b ++ r) = b.length := hsize
    rw [quotedSize_append _ _ hends'] at hsize'
    obtain ⟨b', r', rfl, hb', hr⟩ := h.quoted (by decide) ⟨hends', hsize'⟩
    refine ⟨b', r', rfl, hb'.1, ?_, hr⟩
    change quotedSize '"'.toUInt8 (b' ++ r') = b'.length
    rw [quotedSize_append _ _ hb'.1, hb'.2]

theorem Respaced.stringSize? {lines : Bool} {c : UInt8} {b r t : Bytes}
    (h : Respaced lines (b ++ r) t) (hends : literalEnds (c :: b) = true)
    (hs : stringSize? c (b ++ r) = some b.length) :
    ∃ b' r', t = b' ++ r' ∧ literalEnds (c :: b') = true ∧
      Source.stringSize? c (b' ++ r') = some b'.length ∧ Respaced lines r r' := by
  obtain ⟨p, v, b', hp, rfl, hrest⟩ := string_parts hs
  rw [← List.cons_append, literalEnds_opener hp] at hends
  rw [List.append_assoc] at h
  obtain ⟨t, rfl, h₁⟩ := h.append_left fun x hx =>
    isBlankPart_of_opener hp x (List.mem_cons_of_mem _ hx)
  obtain ⟨b₁, r', rfl, hends₁, hsize₁, hr⟩ := h₁.stringRest hends hrest
  refine ⟨p ++ b₁, r', by simp, ?_, stringSize?_of_parts hp hsize₁, hr⟩
  rw [← List.cons_append, literalEnds_opener hp, hends₁]

theorem beginsPlain_of_isDigitByte {c : UInt8} (h : Bytes.isDigitByte c = true) :
    beginsPlain c = true := by
  have hne : ∀ d : UInt8, Bytes.isDigitByte d = false → c ≠ d := by
    rintro d hd rfl
    rw [h] at hd
    cases hd
  simp only [beginsPlain, List.map_cons, List.map_nil, Bool.not_eq_true', List.contains_eq_mem,
    List.mem_cons, List.not_mem_nil, or_false, decide_eq_false_iff_not, not_or]
  exact ⟨hne _ (by decide), hne _ (by decide), hne _ (by decide), hne _ (by decide),
    hne _ (by decide)⟩

/-- The flags that say whether only blanks precede a token on its line, in two texts that differ in
their blanks: between lines they are the same; otherwise the second text is one line, into which
comments and preprocessor lines are not put. -/
def Flags (lines fresh fresh' : Bool) : Prop := if lines then fresh' = fresh else fresh' = false

theorem Flags.of_false {lines fresh fresh' : Bool} (h : Flags lines fresh fresh') :
    fresh = false → fresh' = false := by
  rintro rfl
  cases lines with
  | true => exact h
  | false => exact h

/-- A token that is no preprocessor line is the same where fewer blanks precede it. -/
theorem lexeme_of_flags {fresh fresh' : Bool} {c : UInt8} {s : Bytes} {kind : TokenKind} {k : Nat}
    (hflags : fresh = false → fresh' = false) (hkind : kind ≠ .directive)
    (hlex : lexeme fresh c s = (kind, k)) : lexeme fresh' c s = (kind, k) := by
  have hfresh : c = '#'.toUInt8 → fresh' = fresh := by
    rintro rfl
    cases fresh with
    | true =>
      rw [(Lexed.directive rfl rfl rfl).lexeme_eq] at hlex
      exact absurd (Prod.mk.inj hlex).1.symm hkind
    | false => exact hflags rfl
  rw [lexeme_fresh hfresh, hlex]

/-- A comment that runs to the end of its line, or a preprocessor line, in both texts. -/
theorem Respaced.lineToken {b r t : Bytes} (h : Respaced true (b ++ r) t)
    (hsize : lineSize (b ++ r) = b.length) :
    ∃ b' r', t = b' ++ r' ∧ lineSize (b' ++ r') = b'.length ∧ Resumes true r r' := by
  obtain ⟨b₁, r₁, b', r', happ, rfl, hb₁, hb', hr⟩ := lineSize_of_respaced h
  obtain ⟨rfl, rfl⟩ := List.append_inj happ (hsize.symm.trans hb₁)
  exact ⟨b', r', rfl, hb', hr⟩

/-- A comment that runs to the end of its line, behind its first slash. -/
theorem Respaced.noteToken {b r t : Bytes} (h : Respaced true (b ++ r) t)
    (hslash : (b ++ r).head? = some '/'.toUInt8) (hsize : lineSize (b ++ r) = b.length) :
    ∃ b' r', t = '/'.toUInt8 :: b' ++ r' ∧ lineSize ('/'.toUInt8 :: b' ++ r') = ('/'.toUInt8 :: b').length ∧
      Resumes true r r' := by
  have hne : b ≠ [] := by
    rintro rfl
    exact absurd (((length_takeWhile_append [] r).1 hsize).2 _ hslash) (by decide)
  obtain ⟨b, rfl⟩ := exists_cons_of_head hslash hne
  obtain ⟨t, rfl, h₁⟩ := h.uncons (by decide)
  rw [List.cons_append, lineSize_cons _ (by decide), List.length_cons, Nat.add_right_cancel_iff] at hsize
  obtain ⟨b', r', rfl, hb', hr⟩ := h₁.lineToken hsize
  exact ⟨b', r', rfl, by rw [List.cons_append, lineSize_cons _ (by decide), hb', List.length_cons], hr⟩

/-- **A token of texts that differ in their blanks.** A closed token is a closed token of the same
kind in both, with the same text when it is a word or a mark. -/
theorem lexeme_of_respaced {lines fresh fresh' : Bool} {c : UInt8} {b r t : Bytes} {kind : TokenKind}
    (h : Respaced lines (b ++ r) t) (hc : isBlankByte c = false) (hends : textEnds (c :: b) = true)
    (hflags : Flags lines fresh fresh')
    (hline : lines = false → kind ≠ .comment ∧ kind ≠ .directive)
    (hlex : lexeme fresh c (b ++ r) = (kind, b.length)) :
    ∃ b' r', t = b' ++ r' ∧ lexeme fresh' c (b' ++ r') = (kind, b'.length) ∧
      textEnds (c :: b') = true ∧ (kind = .word ∨ kind = .mark → b' = b) ∧ Resumes lines r r' := by
  by_cases hwm : kind = .word ∨ kind = .mark
  · obtain ⟨r', rfl, hr⟩ := h.word_or_mark hlex hc hwm
    refine ⟨b, r', rfl, ?_, hends, fun _ => rfl, hr.resumes⟩
    refine lexeme_of_flags hflags.of_false (by rcases hwm with rfl | rfl <;> decide) ?_
    refine lexeme_of_tame hr.tame hends (fun x hx hjoin => hr.head? hx ?_) (fun hk => ?_) hlex
    · simp only [joins, Bool.or_eq_true, Bool.and_eq_true, beq_iff_eq] at hjoin
      rcases hjoin with ⟨-, rfl⟩ | ⟨-, rfl⟩ <;> decide
    · rcases hwm with rfl | rfl <;> simp [isLine] at hk
  have hends' := hends
  unfold textEnds at hends'
  rw [Bool.and_eq_true] at hends'
  have hother : ∀ b' : Bytes, kind = .word ∨ kind = .mark → b' = b := fun _ hh => absurd hh hwm
  cases lexed_of_lexeme hlex with
  | directive hc hfresh hk =>
    cases lines with
    | false => exact absurd rfl (hline rfl).2
    | true =>
      subst hc
      obtain ⟨b', r', rfl, hb', hr⟩ := h.lineToken hk
      exact ⟨b', r', rfl, (Lexed.directive rfl (Eq.trans hflags hfresh) hb').lexeme_eq,
        textEnds_of_beginsPlain _ (by decide), hother b', hr⟩
  | line hc hs hk =>
    cases lines with
    | false => exact absurd rfl (hline rfl).1
    | true =>
      subst hc
      obtain ⟨b', r', rfl, hb', hr⟩ := h.noteToken hs hk
      exact ⟨_, r', rfl, (Lexed.line rfl rfl hb').lexeme_eq, rfl, hother _, hr⟩
  | comment hc hs hk =>
    subst hc
    obtain ⟨b, rfl⟩ := exists_cons_of_head hs (by rintro rfl; cases hk)
    have hclosed : commentEnds b = true := hends'.2
    rw [List.cons_append, List.tail_cons, commentSize_append _ _ hclosed, List.length_cons,
      Nat.add_right_cancel_iff] at hk
    obtain ⟨t, rfl, h₁⟩ := h.uncons (by decide)
    obtain ⟨b', r', rfl, hb', hr⟩ := h₁.comment (closedComment_of_ends hclosed hk)
    refine ⟨'*'.toUInt8 :: b', r', rfl, ?_, hb'.ends.1, hother _, hr.resumes⟩
    rw [List.cons_append, lexeme_comment, commentSize_append _ _ hb'.ends.1, hb'.ends.2, List.length_cons]
  | string hk =>
    obtain ⟨b', r', rfl, hb', hs', hr⟩ := h.stringSize? hends'.1 hk
    refine ⟨b', r', rfl, lexeme_string hs', ?_, hother b', hr.resumes⟩
    unfold textEnds
    rw [hb', Bool.true_and, Bool.or_eq_true]
    exact Or.inl (bne_iff_ne.2 fun hh => (ne_of_stringSize? hs').1 (List.cons.inj hh).1)
  | character hc hk =>
    subst hc
    have hclosed : quotedEnds '\''.toUInt8 b = true := hends'.1
    rw [quotedSize_append _ _ hclosed] at hk
    obtain ⟨b', r', rfl, hb', hr⟩ := h.quoted (by decide) ⟨hclosed, hk⟩
    refine ⟨b', r', rfl, ?_, Bool.and_eq_true_iff.2 ⟨hb'.1, rfl⟩, hother b', hr.resumes⟩
    rw [lexeme_character, quotedSize_append _ _ hb'.1, hb'.2]
  | number hc hk =>
    obtain ⟨b₁, r₁, b', r', happ, rfl, hb₁, hb', hr⟩ := numberSize_of_respaced h
    obtain ⟨rfl, rfl⟩ := List.append_inj happ (hk.symm.trans hb₁)
    exact ⟨b', r', rfl, (Lexed.number hc hb').lexeme_eq,
      textEnds_of_beginsPlain _ (beginsPlain_of_isDigitByte hc), hother b', hr⟩
  | _ => simp at hwm

/-! ## All tokens of texts that differ in their blanks -/

/-- Two tokens that no declaration tells apart. -/
def Alike (t t' : Token) : Prop :=
  t'.kind = t.kind ∧ (t.kind = .word ∨ t.kind = .mark → t'.text = t.text)

/-- Tokens of the one text are those of the other, less marks that stand for blanks. -/
inductive Thin : List Token → List Token → Prop where
  | nil : Thin [] []
  | keep {t t' : Token} {ts ts' : List Token} (h : Alike t t') (hts : Thin ts ts') :
      Thin (t :: ts) (t' :: ts')
  | drop {t : Token} {ts ts' : List Token} (h : t.isJunk = true) (hts : Thin ts ts') :
      Thin (t :: ts) ts'

theorem Thin.drops {junk ts ts' : List Token} (hj : ∀ t ∈ junk, t.isJunk = true) (h : Thin ts ts') :
    Thin (junk ++ ts) ts' := by
  induction junk with
  | nil => exact h
  | cons t junk ih =>
    exact .drop (hj t List.mem_cons_self) (ih fun x hx => hj x (List.mem_cons_of_mem _ hx))

theorem thin_loose {u : Bytes} (hu : Loose u) (pos pos' : Nat) (fresh fresh' : Bool) :
    Thin (tokensFrom pos fresh u) (tokensFrom pos' fresh' []) ∧
      ∀ x ∈ tokensFrom pos' fresh' [], textEnds x.text = true := by
  obtain ⟨junk, f, hleft, hjunk⟩ := tokensFrom_loose hu [] pos fresh
  rw [List.append_nil, tokensFrom_nil] at hleft
  rw [hleft, tokensFrom_nil]
  exact ⟨Thin.nil.drops fun x hx => (hjunk x hx).1, by simp⟩

/-- The tokens after the blanks with which two such texts go on. -/
theorem tokensFrom_lead {lines : Bool} {u v : Bytes} (h : Lead lines u v) (s t : Bytes)
    (pos pos' : Nat) {fresh fresh' : Bool} (hflags : Flags lines fresh fresh') :
    ∃ junk f f', tokensFrom pos fresh (u ++ s) = junk ++ tokensFrom (pos + u.length) f s ∧
      tokensFrom pos' fresh' (v ++ t) = tokensFrom (pos' + v.length) f' t ∧
      (∀ x ∈ junk, x.isJunk = true) ∧ Flags lines f f' := by
  cases h with
  | none => exact ⟨[], fresh, fresh', rfl, rfl, by simp, hflags⟩
  | @lines u g g' hu hg hg' =>
    obtain ⟨junk, f, hleft, hjunk⟩ := tokensFrom_loose hu (Bytes.newline :: g ++ s) pos fresh
    refine ⟨junk, true, true, ?_, ?_, fun x hx => (hjunk x hx).1, rfl⟩
    · rw [List.append_assoc, hleft, List.cons_append, tokensFrom_newline, tokensFrom_gaps hg]
      congr 2
      simp only [List.length_append, List.length_cons]
      omega
    · rw [List.cons_append, tokensFrom_newline, tokensFrom_gaps hg', List.length_cons]
      congr 1
      omega
  | space hu hv =>
    obtain ⟨junk, f, hleft, hjunk⟩ := tokensFrom_loose hu s pos fresh
    refine ⟨junk, f, fresh', hleft, ?_, fun x hx => (hjunk x hx).1, hflags⟩
    rw [tokensFrom_gaps hv]

/-- **Tokens of texts that differ in their blanks.** When all tokens of the first text are closed, the
second text has the same tokens but for marks that stand for blanks, and all of them are closed. -/
theorem tokensFrom_respaced {lines : Bool} {s t : Bytes} (h : Respaced lines s t) (pos pos' : Nat)
    {fresh fresh' : Bool} (hflags : Flags lines fresh fresh')
    (hends : ∀ x ∈ tokensFrom pos fresh s,
      textEnds x.text = true ∧ (lines = false → x.isTrivia = false)) :
    Thin (tokensFrom pos fresh s) (tokensFrom pos' fresh' t) ∧
      ∀ x ∈ tokensFrom pos' fresh' t, textEnds x.text = true := by
  induction hn : s.length using Nat.strongRecOn generalizing s t pos pos' fresh fresh' with
  | _ n ih =>
    subst hn
    match s, t, h with
    | _, _, .nil =>
      rw [tokensFrom_nil, tokensFrom_nil]
      exact ⟨.nil, by simp⟩
    | _, _, .byte (c := c) (s := s) (t := t) hc h =>
      rcases tokensFrom_cases pos fresh c s with ⟨hblank, heq⟩ | ⟨hblank, kind, b, r, rfl, hlex, heq⟩
      · have hgap : isGap c = true := by simpa [isBlankByte, hc] using hblank
        rw [tokensFrom_gap _ _ _ hgap] at hends
        rw [tokensFrom_gap _ _ _ hgap, tokensFrom_gap _ _ _ hgap]
        exact ih s.length (Nat.lt_succ_self _) h _ _ hflags hends rfl
      · rw [heq] at hends ⊢
        obtain ⟨hend, hline⟩ := hends _ List.mem_cons_self
        obtain ⟨b', r', rfl, hlex', hend', htext, hrest⟩ := lexeme_of_respaced h hblank hend hflags
          (fun hl => by
            have := hline hl
            constructor <;> rintro rfl <;> cases this) hlex
        rw [tokensFrom_token pos' fresh' hblank hlex']
        have hstep : Thin (tokensFrom (pos + (c :: b).length) false r)
              (tokensFrom (pos' + (c :: b').length) false r') ∧
            ∀ x ∈ tokensFrom (pos' + (c :: b').length) false r', textEnds x.text = true := by
          have hafter := fun x hx => hends x (List.mem_cons_of_mem _ hx)
          cases hrest with
          | last hu => exact thin_loose hu _ _ _ _
          | @lead u v s₁ t₁ hlead h₁ =>
            obtain ⟨junk, f, f', hleft, hright, hjunk, hf⟩ := tokensFrom_lead hlead s₁ t₁
              (pos + (c :: b).length) (pos' + (c :: b').length)
              (show Flags lines false false by cases lines <;> rfl)
            rw [hleft] at hafter ⊢
            rw [hright]
            have hlen : s₁.length < (c :: (b ++ (u ++ s₁))).length := by
              simp only [List.length_cons, List.length_append]
              omega
            obtain ⟨hthin, hclosed⟩ := ih _ hlen h₁ (pos + (c :: b).length + u.length)
              (pos' + (c :: b').length + v.length) hf
              (fun x hx => hafter x (List.mem_append_right _ hx)) rfl
            exact ⟨hthin.drops hjunk, hclosed⟩
        refine ⟨.keep ⟨rfl, fun hk => by rw [htext hk]⟩ hstep.1, fun x hx => ?_⟩
        rcases List.mem_cons.1 hx with rfl | hx
        · exact hend'
        · exact hstep.2 x hx
    | _, _, .run (u := u) (v := v) (s := s) (t := t) hr h =>
      obtain ⟨junk, f, f', hleft, hright, hjunk, hf⟩ := tokensFrom_lead hr.lead s t pos pos' hflags
      rw [hleft] at hends ⊢
      rw [hright]
      have hlen : s.length < (u ++ s).length := by
        obtain ⟨x, u, y, v, rfl, -⟩ := hr.head
        simp only [List.cons_append, List.length_cons, List.length_append]
        omega
      obtain ⟨hthin, hclosed⟩ := ih _ hlen h (pos + u.length) (pos' + v.length) hf
        (fun x hx => hends x (List.mem_append_right _ hx)) rfl
      exact ⟨hthin.drops hjunk, hclosed⟩
    | _, _, .last hu => exact thin_loose hu.loose _ _ _ _

end Flowsmith.Source
