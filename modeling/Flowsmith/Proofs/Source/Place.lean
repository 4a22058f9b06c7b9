import Flowsmith.Proofs.Source.Retoken

/-!
# Text in its place

A text that stands between marks of a declaration, such as the body of a method, has the tokens it has
on its own, provided that none of them runs on into the mark that follows.

* `Token.runsOn` : a literal or comment that would take what follows it;
* `Settled` : a text that ends outside of literals, comments and preprocessor lines;
* `tokensFrom_settled` : the tokens of such a text in front of a closing mark.
-/

namespace Flowsmith.Source

/-- A literal or comment that is not closed, or that goes on to the end of its line. -/
def Token.runsOn (t : Token) : Bool :=
  !textEnds t.text || (t.kind == .comment && isLine t.kind t.text)

/-- A text, not at the beginning of a line, that ends outside of literals and comments. -/
def Finished (s : Bytes) : Prop :=
  ∀ t ∈ tokensFrom 0 false s, t.stop = s.length → t.runsOn = false

/-- A text, not at the beginning of a line, that ends outside of literals, comments and preprocessor
lines. -/
def Settled (s : Bytes) : Prop :=
  ∀ t ∈ tokensFrom 0 false s, t.stop = s.length → t.runsOn = false ∧ t.kind ≠ .directive

instance (s : Bytes) : Decidable (Finished s) := List.decidableBAll _ _

instance (s : Bytes) : Decidable (Settled s) := List.decidableBAll _ _

/-! ## Literals and comments that are not closed -/

theorem open_of_not_textEnds {c : UInt8} {b : Bytes} (h : textEnds (c :: b) = false) :
    (∃ p v b', (c :: p, v) ∈ stringOpeners ∧ b = p ++ b' ∧ stringEnds v b' = false) ∨
    (c = '\''.toUInt8 ∧ quotedEnds '\''.toUInt8 b = false) ∨
    ∃ b', c = '/'.toUInt8 ∧ b = '*'.toUInt8 :: b' ∧ commentEnds b' = false := by
  unfold textEnds at h
  rw [Bool.and_eq_false_iff, Bool.or_eq_false_iff] at h
  rcases h with h | ⟨htake, hends⟩
  · unfold literalEnds at h
    split at h
    · rename_i opener hfind
      have hmem := List.mem_of_find?_eq_some hfind
      have hpre := List.find?_some hfind
      obtain ⟨b', hb'⟩ := List.isPrefixOf_iff_prefix.1 hpre
      have hne : ∀ o ∈ stringOpeners, o.1 ≠ [] := by decide
      obtain ⟨d, p, hp⟩ := List.exists_cons_of_ne_nil (hne opener hmem)
      obtain ⟨o, v⟩ := opener
      subst hp
      rw [← hb', List.drop_left] at h
      obtain ⟨rfl, rfl⟩ := List.cons.inj hb'
      exact Or.inl ⟨p, v, b', hmem, rfl, h⟩
    · split at h
      · rename_i hhead
        obtain rfl : c = '\''.toUInt8 := by simpa using hhead
        exact Or.inr (Or.inl ⟨rfl, h⟩)
      · cases h
  · have htake : (c :: b).take 2 = ['/'.toUInt8, '*'.toUInt8] := by
      rw [bne_eq_false_iff_eq] at htake
      exact htake
    match b, htake, hends with
    | y :: b', htake, hends =>
      simp only [List.take_succ_cons, List.take_zero, List.cons.injEq, and_true] at htake
      obtain ⟨rfl, rfl⟩ := htake
      exact Or.inr (Or.inr ⟨b', rfl, rfl, hends⟩)

/-- A literal with escapes that is not closed is ended by a line feed. -/
theorem quotedSize_open {quote : UInt8} {b r : Bytes} (hr : r ≠ [])
    (hends : quotedEnds quote b = false) (hsize : quotedSize quote (b ++ r) = b.length) :
    r.head? = some Bytes.newline ∧
      ∀ r', r'.head? = some Bytes.newline → quotedSize quote (b ++ r') = b.length := by
  obtain ⟨x, r, rfl⟩ := List.exists_cons_of_ne_nil hr
  fun_induction quotedEnds quote b with
  | case1 =>
    rw [List.nil_append, List.length_nil] at hsize
    by_cases hescape : x = '\\'.toUInt8
    · subst hescape
      cases r <;> simp [quotedSize] at hsize
    · rw [quotedSize_cons _ hescape] at hsize
      split at hsize
      · cases hsize
      · rename_i hquote
        split at hsize
        · rename_i hx
          subst hx
          refine ⟨rfl, fun r' hr' => ?_⟩
          obtain ⟨r', rfl⟩ := List.head?_eq_some_iff.1 hr'
          rw [List.nil_append, quotedSize_cons _ hescape, if_neg hquote, if_pos rfl, List.length_nil]
        · cases hsize
  | case2 => simp [quotedSize] at hsize
  | case3 y b ih =>
    simp only [List.cons_append, quotedSize, if_true, List.length_cons] at hsize ⊢
    obtain ⟨hx, hmore⟩ := ih hends (by omega)
    exact ⟨hx, fun r' hr' => by rw [hmore r' hr']⟩
  | case4 => cases hends
  | case5 b hescape hquote =>
    rw [List.cons_append, quotedSize_cons _ hescape, if_neg hquote, if_pos rfl] at hsize
    cases hsize
  | case6 c b hescape hquote hline ih =>
    simp only [List.cons_append, quotedSize_cons _ hescape, if_neg hquote, if_neg hline,
      List.length_cons] at hsize ⊢
    obtain ⟨hx, hmore⟩ := ih hends (by omega)
    exact ⟨hx, fun r' hr' => by rw [hmore r' hr']⟩

/-- A literal in which quotes are written twice does not end before it is closed. -/
theorem verbatimEnds_of_size {b r : Bytes} (hr : r ≠ [])
    (hsize : verbatimSize (b ++ r) = b.length) : verbatimEnds b = true := by
  obtain ⟨y, r, rfl⟩ := List.exists_cons_of_ne_nil hr
  fun_induction verbatimEnds b with
  | case1 =>
    rw [List.nil_append, List.length_nil] at hsize
    by_cases hquote : y = '"'.toUInt8
    · subst hquote
      cases r with
      | nil => cases hsize
      | cons z r =>
        rw [verbatimSize] at hsize
        split at hsize
        · split at hsize <;> cases hsize
        · cases hsize
    · rw [verbatimSize_cons _ hquote] at hsize
      cases hsize
  | case2 => rfl
  | case3 b ih =>
    simp only [List.cons_append, verbatimSize, if_true, List.length_cons] at hsize
    exact ih (by omega)
  | case4 => rfl
  | case5 c b hc ih =>
    rw [List.cons_append, verbatimSize_cons _ hc, List.length_cons] at hsize
    exact ih (by omega)

/-! ## Tokens that are followed by something -/

theorem lexeme_followed {fresh : Bool} {c : UInt8} {b r r' : Bytes} {kind : TokenKind}
    (h : Tame r r') (hr : r ≠ []) (hhead : r'.head? = r.head?)
    (hb : lexeme fresh c (b ++ r) = (kind, b.length)) :
    lexeme fresh c (b ++ r') = (kind, b.length) := by
  cases hends : textEnds (c :: b) with
  | true =>
    exact lexeme_of_tame h hends (fun x hx _ => hhead ▸ hx) (fun _ x hx => Or.inr (hhead ▸ hx)) hb
  | false =>
    rcases open_of_not_textEnds hends with ⟨p, v, b', hmem, rfl, hopen⟩ | ⟨rfl, hopen⟩ |
      ⟨b', rfl, rfl, hopen⟩
    · rw [List.append_assoc, lexeme_string (stringSize?_opener hmem _)] at hb
      obtain ⟨rfl, hsize⟩ := Prod.mk.inj hb
      rw [List.length_append, Nat.add_comm, Nat.add_left_cancel_iff] at hsize
      rw [List.append_assoc, lexeme_string (stringSize?_opener hmem _), List.length_append, Nat.add_comm p.length]
      cases v with
      | true =>
        rw [stringEnds, if_pos rfl, verbatimEnds_of_size hr hsize] at hopen
        cases hopen
      | false =>
        obtain ⟨hline, hmore⟩ := quotedSize_open hr hopen hsize
        rw [stringRest, if_neg (by simp), hmore r' (hhead.trans hline)]
    · rw [lexeme_character] at hb ⊢
      obtain ⟨rfl, hsize⟩ := Prod.mk.inj hb
      obtain ⟨hline, hmore⟩ := quotedSize_open hr hopen hsize
      rw [hmore r' (hhead.trans hline)]
    · rw [List.cons_append, lexeme_comment] at hb
      have hsize := (Prod.mk.inj hb).2
      rw [List.length_cons] at hsize
      rw [commentEnds_of_size b' r hr (by omega)] at hopen
      cases hopen

/-- The marks that close a body, an initializer or a default. -/
def closingMarks : List UInt8 := ['\x7d'.toUInt8, ';'.toUInt8, ','.toUInt8, ')'.toUInt8]

theorem isStop_of_closing {x : UInt8} (h : x ∈ closingMarks) : isStop x = true := by
  have hall : ∀ x ∈ closingMarks, isStop x = true := by decide +kernel
  exact hall x h

/-- **Tokens of a text in its place.** In front of a closing mark a text has the tokens that it has on
its own, when the token at its end does not run on. -/
theorem tokensFrom_settled {x : UInt8} (r : Bytes) (hx : x ∈ closingMarks) (s : Bytes) :
    ∀ (pos : Nat) (fresh : Bool),
      (∀ t ∈ tokensFrom pos fresh s, t.stop = pos + s.length →
        t.runsOn = false ∧ t.kind ≠ .directive) →
      ∃ fresh', tokensFrom pos fresh (s ++ x :: r)
        = tokensFrom pos fresh s ++ tokensFrom (pos + s.length) fresh' (x :: r) := by
  match s with
  | [] =>
    intro pos fresh _
    exact ⟨fresh, by rw [tokensFrom_nil]; rfl⟩
  | c :: s =>
    intro pos fresh hlast
    rcases tokensFrom_cases pos fresh c s with ⟨hc, heq⟩ | ⟨hc, kind, b, rest, rfl, hlex, heq⟩
    · rw [heq, List.length_cons] at hlast
      obtain ⟨fresh', ih⟩ := tokensFrom_settled r hx s (pos + 1) _ fun t ht hstop =>
        hlast t ht (by omega)
      refine ⟨fresh', ?_⟩
      rcases tokensFrom_cases pos fresh c (s ++ x :: r) with ⟨_, heq'⟩ | ⟨hc', _⟩
      · rw [List.cons_append, heq', heq, ih, List.length_cons]
        congr 2
        omega
      · rw [hc] at hc'
        cases hc'
    · rw [heq] at hlast
      have htame : Tame rest (rest ++ x :: r) := Tame.extend rest r (isStop_of_closing hx)
      have hlex' : lexeme fresh c (b ++ (rest ++ x :: r)) = (kind, b.length) := by
        cases rest with
        | cons y rest => exact lexeme_followed htame (by simp) rfl hlex
        | nil =>
          -- the token at the end: it is closed and leaves the mark alone
          obtain ⟨hruns, hkind⟩ := hlast _ List.mem_cons_self (by simp [Token.stop])
          simp only [Token.runsOn, Bool.or_eq_false_iff, Bool.not_eq_false'] at hruns
          refine lexeme_of_tame htame hruns.1 ?_ ?_ hlex
          · intro y hy hjoins
            cases hy
            have hplain : ∀ x ∈ closingMarks, x ≠ '.'.toUInt8 ∧ x ≠ '>'.toUInt8 := by decide +kernel
            rw [joins_eq_false _ _ (hplain x hx).1 (hplain x hx).2] at hjoins
            cases hjoins
          · intro hline
            cases kind <;> simp_all [isLine]
      obtain ⟨fresh', ih⟩ := tokensFrom_settled r hx rest (pos + (c :: b).length) false
        fun t ht hstop => hlast t (List.mem_cons_of_mem _ ht) (by
          simp only [List.length_cons, List.length_append] at hstop ⊢
          omega)
      refine ⟨fresh', ?_⟩
      have htoken := tokensFrom_token pos fresh hc hlex'
      rw [List.cons_append, List.append_assoc, htoken, heq, ih, List.cons_append]
      congr 3
      simp only [List.length_cons, List.length_append]
      omega
termination_by s.length

end Flowsmith.Source
