import Flowsmith.Proofs.FlowClass.Carried
import Flowsmith.Proofs.Source.Chunk

/-!
# Tokens that keep their texts

* `plain_lexeme` : words, marks and numbers are made of bytes that begin no literal and no comment;
* `Token.isVerbatim`, `Held` : the literals that may hold line feeds, and tokens that a new layout leaves
  alone;
* `Tracked.token` : a token in a text and in the text it becomes.
-/

namespace Flowsmith.Source

open Utf8 (isTail decode decode?)

/-! ## Words, marks and numbers -/

/-- A byte that is no blank and begins neither a literal nor a comment. -/
def isPlainByte (c : UInt8) : Bool := !isBlankByte c && beginsPlain c

theorem isPlainByte_of_ge {c : UInt8} (h : 0x80 ≤ c) : isPlainByte c = true := by
  rw [isPlainByte, isBlankByte_of_ge h, beginsPlain_of_ge h]
  rfl

theorem isPlainByte_of_isTail {c : UInt8} (h : isTail c = true) : isPlainByte c = true := by
  simp only [isTail, Bool.and_eq_true, decide_eq_true_eq] at h
  exact isPlainByte_of_ge h.1

/-- A byte that continues a number, or a word when it is a code point of its own. -/
theorem isPlainByte_of_isNumberPart {c : UInt8} (h : (isWordPart c.toNat || c == '.'.toUInt8) = true) :
    isPlainByte c = true := by
  have hne : ∀ d ∈ ([0x20, 0x09, 0x0A, 0x0B, 0x0C, 0x0D, 0x22, 0x40, 0x24, 0x27, 0x2F] : Bytes), c ≠ d := by
    have hall : ∀ d ∈ ([0x20, 0x09, 0x0A, 0x0B, 0x0C, 0x0D, 0x22, 0x40, 0x24, 0x27, 0x2F] : Bytes),
        (isWordPart d.toNat || d == '.'.toUInt8) = false := by decide +kernel
    rintro d hd rfl
    rw [hall _ hd] at h
    cases h
  simp only [List.mem_cons, List.not_mem_nil, or_false, forall_eq_or_imp, forall_eq] at hne
  simp only [isPlainByte, isBlankByte, isGap, beginsPlain, List.map_cons, List.map_nil, Bool.and_eq_true,
    Bool.not_eq_true', Bool.or_eq_false_iff, beq_eq_false_iff_ne, List.contains_eq_mem, List.mem_cons,
    List.not_mem_nil, or_false, decide_eq_false_iff_not, not_or]
  obtain ⟨h1, h2, h3, h4, h5, h6, h7, h8, h9, h10, h11⟩ := hne
  exact ⟨⟨h3, ⟨⟨⟨h1, h2⟩, h6⟩, h5⟩, h4⟩, h7, h8, h9, h10, h11⟩

theorem take_tail_of_decode {c : UInt8} {s : Bytes} {k : Nat} (hk : (decode (c :: s)).2 = k + 1) :
    ∀ x ∈ s.take k, isPlainByte x = true := by
  intro x hx
  refine isPlainByte_of_isTail ?_
  cases hd : decode? (c :: s) with
  | none =>
    simp only [decode, hd, Option.getD_none] at hk
    obtain rfl : k = 0 := by simpa using hk.symm
    simp at hx
  | some p =>
    simp only [decode, hd, Option.getD_some] at hk
    refine isTail_of_decode? hd x ?_
    rw [hk, List.take_succ_cons]
    exact hx

theorem plain_head {c : UInt8} {s : Bytes} (h : isWordPart (decode (c :: s)).1 = true) :
    isPlainByte c = true := by
  by_cases hc : c < 0x80
  · rw [decode_of_lt s hc] at h
    exact isPlainByte_of_isNumberPart (by simp [h])
  · exact isPlainByte_of_ge (UInt8.not_lt.1 hc)

theorem plain_take_wordSize (s : Bytes) : ∀ x ∈ s.take (wordSize s), isPlainByte x = true := by
  match s with
  | [] => simp
  | c :: s =>
    obtain ⟨k, hk⟩ : ∃ k, (decode (c :: s)).2 = k + 1 :=
      Nat.exists_eq_succ_of_ne_zero (Nat.ne_of_gt (Utf8.decode_size_pos _))
    rw [wordSize_cons]
    cases hpart : isWordPart (decode (c :: s)).1 with
    | false => simp
    | true =>
      intro x hx
      rw [if_pos rfl, hk, Nat.add_sub_cancel, show k + 1 + wordSize (s.drop k)
        = k + wordSize (s.drop k) + 1 by omega,
        List.take_succ_cons, List.take_add] at hx
      rcases List.mem_cons.1 hx with rfl | hx
      · exact plain_head hpart
      · rcases List.mem_append.1 hx with hx | hx
        · exact take_tail_of_decode hk x hx
        · exact plain_take_wordSize (s.drop k) x hx
termination_by s.length

theorem plain_lexeme {fresh : Bool} {c : UInt8} {b r : Bytes} {kind : TokenKind}
    (hlex : lexeme fresh c (b ++ r) = (kind, b.length))
    (hkind : kind = .word ∨ kind = .mark ∨ kind = .number) : ∀ x ∈ b, isPlainByte x = true := by
  have take : ∀ {k : Nat}, k = b.length → (b ++ r).take k = b := by
    rintro k rfl
    exact List.take_left
  cases lexed_of_lexeme hlex with
  | number _ hk => exact fun x hx => isPlainByte_of_isNumberPart (((length_takeWhile_append b r).1 hk).1 x hx)
  | verbatim _ _ _ hk | sign _ _ _ hk =>
    have hall := plain_take_wordSize (b ++ r)
    rwa [take hk] at hall
  | word _ hk =>
    have hall := plain_take_wordSize (c :: (b ++ r))
    rw [hk, List.take_succ_cons, List.take_left] at hall
    exact fun x hx => hall x (List.mem_cons_of_mem _ hx)
  | arrow _ hs hk =>
    obtain ⟨b', rfl⟩ := exists_cons_of_head hs (by rintro rfl; cases hk)
    obtain rfl := List.eq_nil_of_length_eq_zero (Nat.succ.inj hk)
    exact List.forall_mem_singleton.2 rfl
  | rune _ _ _ _ hk =>
    have hall := take_tail_of_decode hk
    rwa [List.take_left] at hall
  | _ => simp at hkind

theorem textEnds_of_lexeme {fresh : Bool} {c : UInt8} {b r : Bytes} {kind : TokenKind}
    (hlex : lexeme fresh c (b ++ r) = (kind, b.length))
    (hkind : kind = .word ∨ kind = .mark ∨ kind = .number) : textEnds (c :: b) = true := by
  have hne : ∀ k, (kind, b.length) = (TokenKind.string, k) ∨ (kind, b.length) = (TokenKind.character, k) ∨
      (kind, b.length) = (TokenKind.comment, k) → False := by
    rintro k (h | h | h) <;> rcases hkind with rfl | rfl | rfl <;> cases h
  cases hends : textEnds (c :: b) with
  | true => rfl
  | false =>
    rcases open_of_not_textEnds hends with ⟨p, v, b', hmem, rfl, -⟩ | ⟨rfl, -⟩ | ⟨b', rfl, rfl, -⟩
    · rw [List.append_assoc, lexeme_string (stringSize?_opener hmem _)] at hlex
      exact (hne _ (.inl hlex.symm)).elim
    · rw [lexeme_character] at hlex
      exact (hne _ (.inr (.inl hlex.symm))).elim
    · rw [List.cons_append, lexeme_comment] at hlex
      exact (hne _ (.inr (.inr hlex.symm))).elim

/-! ## Literals that may hold line feeds -/

/-- Whether the token is a string literal in which quotes are written twice. -/
def Token.isVerbatim (t : Token) : Bool :=
  t.kind == .string && stringOpeners.any fun o => o.2 && o.1.isPrefixOf t.text

theorem isVerbatim_opener {p b : Bytes} {v : Bool} (h : (p, v) ∈ stringOpeners) (pos : Nat) :
    (Token.mk .string (p ++ b) pos).isVerbatim = v := by
  simp only [stringOpeners, List.mem_cons, Prod.mk.injEq, List.not_mem_nil, or_false] at h
  rcases h with ⟨rfl, rfl⟩ | ⟨rfl, rfl⟩ | ⟨rfl, rfl⟩ | ⟨rfl, rfl⟩ | ⟨rfl, rfl⟩ <;> rfl

end Flowsmith.Source

namespace Flowsmith.FlowClass

open Source

/-- The walk looks at a word, a mark or a number byte by byte. -/
theorem stride_of_lexeme {fresh : Bool} {c : UInt8} {s : Bytes} {kind : TokenKind} {k : Nat}
    (hlex : lexeme fresh c s = (kind, k)) (hkind : kind = .word ∨ kind = .mark ∨ kind = .number) :
    stride .code c s = (.code, 0) ∧ ¬ OpensNote .code c s := by
  have hne : ∀ j, (kind, k) = (TokenKind.string, j) ∨ (kind, k) = (TokenKind.character, j) ∨
      (kind, k) = (TokenKind.comment, j) → False := by
    rintro j (h | h | h) <;> rcases hkind with rfl | rfl | rfl <;> cases h
  have hstring : stringSize? c s = none := by
    cases h : stringSize? c s with
    | none => rfl
    | some j =>
      rw [lexeme_string h] at hlex
      exact (hne j (.inl hlex.symm)).elim
  obtain ⟨hquote, hat, hdollar⟩ := stringSize?_eq_none_iff.1 hstring
  have hchar : c ≠ '\''.toUInt8 := by
    rintro rfl
    rw [lexeme_character] at hlex
    exact hne _ (.inr (.inl hlex.symm))
  have hslash : ∀ d, d = '/'.toUInt8 ∨ d = '*'.toUInt8 → ¬ (c = '/'.toUInt8 ∧ s.head? = some d) := by
    rintro d hd ⟨rfl, hhead⟩
    have hcomment : ∃ j, lexeme fresh '/'.toUInt8 s = (.comment, j) := by
      rcases hd with rfl | rfl
      · exact ⟨_, (Lexed.line rfl hhead rfl).lexeme_eq⟩
      · exact ⟨_, (Lexed.comment rfl hhead rfl).lexeme_eq⟩
    obtain ⟨j, hj⟩ := hcomment
    rw [hj] at hlex
    exact hne j (.inr (.inr hlex.symm))
  refine ⟨?_, fun hh => hslash _ (.inl rfl) hh.2⟩
  rw [stride, if_neg (hslash _ (.inr rfl)), if_neg (fun hh => (hat hh.1).1 hh.2),
    if_neg (fun hh => (hdollar hh.1).2 hh.2), if_neg hquote, if_neg hchar]

theorem lineFed_of_not_mem {trims : Bool} {s : Bytes} (h : Bytes.newline ∉ s) : lineFed trims s = s := by
  induction s with
  | nil => exact lineFed_nil trims
  | cons c s ih =>
    simp only [List.mem_cons, not_or] at h
    rw [lineFed_cons, ih h.2]
    intro _ _ hhead
    exact h.2 (List.mem_of_mem_head? hhead)

/-! ## Tokens that a new layout leaves alone -/

/-- A token that a new layout leaves alone. The walk knows all openers of verbatim literals but one and
takes other literals to end with their lines; a preprocessor line that leaves a literal or a comment open
would hide what follows. A verbatim literal that is not closed ends in front of a line feed. Where lines
lose the blanks at their ends, a verbatim literal may have none at the end of its first line. -/
structure Held (trims : Bool) (t : Token) : Prop where
  opener : ¬ ("@$\"" : Bytes) <+: t.text
  line : t.kind = .string ∨ t.kind = .character → t.isVerbatim = false → Bytes.newline ∉ t.text
  ends : t.isVerbatim = true → t.text.getLast? ≠ some Bytes.newline
  directive : t.kind = .directive → nextMode .code t.text = .code
  closed : trims = true → textEnds t.text = true
  flush : trims = true → t.isVerbatim = true → isFlush t.text = true

/-- The texts of a token before and after: a preprocessor line may lose blanks at its end, a literal carriage
returns in front of line feeds. -/
def Keeps (trims : Bool) (kind : TokenKind) (text text' : Bytes) : Prop :=
  match kind with
  | .directive => ∃ z, IsGapText z ∧ text = text' ++ z ∧ (trims = false → z = [])
  | .string => text' = lineFed trims text
  | _ => text' = text

def Found (trims fresh : Bool) (kind : TokenKind) (c : UInt8) (b r : Bytes) (fs : List Bool) (t : Bytes) :
    Prop :=
  ∃ b' r' fs' may, t = c :: (b' ++ r') ∧ lexeme fresh c (b' ++ r') = (kind, b'.length) ∧
    (kind ≠ .comment → Keeps trims kind (c :: b) (c :: b')) ∧
    fs = List.replicate ((c :: b).count Bytes.newline) (Token.mk kind (c :: b) 0).isVerbatim ++ fs' ∧
    Tracked trims .code may r fs' r'

namespace Tracked

variable {trims fresh may : Bool} {m : Mode} {c : UInt8} {b r s t : Bytes} {fs : List Bool}
  {kind : TokenKind}

/-- Without blanks left out the new text begins as the old one does. -/
theorem head?_eq (h : Tracked false m may s fs t) : t.head? = s.head? := by
  cases s with
  | nil => rw [(h.eq_nil rfl).2]
  | cons c s =>
    rcases h.cons_cases with ⟨g, g', s', fs', t', rfl, -, -, rfl, -⟩ | ⟨b, s', t', m', -, rfl, -⟩ |
      ⟨b, z, s', t', -, rfl, -, rfl, -⟩ | ⟨z, s', htrims, -⟩ | ⟨s', htrims, -⟩ | ⟨htrims, -⟩
    · rfl
    · rfl
    · rfl
    · cases htrims
    · cases htrims
    · cases htrims

/-- A token that keeps its text is a token in front of what follows it in the new text. -/
theorem lexeme_same {r' : Bytes} (h : Tracked trims .code may r fs r')
    (hlex : lexeme fresh c (b ++ r) = (kind, b.length))
    (hclosed : trims = true → textEnds (c :: b) = true) :
    lexeme fresh c (b ++ r') = (kind, b.length) := by
  cases hends : textEnds (c :: b) with
  | true =>
    have hnewline : ∀ {x}, r'.head? = some x → x = Bytes.newline ∨ r.head? = some x := by
      intro x hx
      rcases h.head?_or with heq | hend
      · exact .inr (heq ▸ hx)
      · rcases hend with rfl | hend
        · cases hx
        · exact .inl (Option.some.inj (hx.symm.trans hend))
    refine lexeme_of_tame h.tame hends (fun x hx hjoins => ?_) (fun _ x hx => hnewline hx) hlex
    rcases hnewline hx with rfl | hr
    · rw [joins_eq_false _ _ (by decide) (by decide)] at hjoins
      cases hjoins
    · exact hr
  | false =>
    cases trims with
    | true =>
      rw [hclosed rfl] at hends
      cases hends
    | false =>
      cases r with
      | nil => rwa [(h.eq_nil rfl).2]
      | cons x r => exact lexeme_followed h.tame (by simp) h.head?_eq hlex

theorem found_same {r' : Bytes} (h : Tracked trims .code may r fs r')
    (hlex : lexeme fresh c (b ++ r) = (kind, b.length)) (hkind : kind ≠ .directive)
    (hclosed : trims = true → textEnds (c :: b) = true) (hn : Bytes.newline ∉ c :: b) :
    Found trims fresh kind c b r fs (c :: (b ++ r')) := by
  refine ⟨b, r', fs, may, rfl, h.lexeme_same hlex hclosed, fun _ => ?_, ?_, h⟩
  · cases kind with
    | directive => exact absurd rfl hkind
    | string => exact (lineFed_of_not_mem hn).symm
    | _ => rfl
  · rw [List.count_eq_zero_of_not_mem hn]
    rfl

theorem not_mem_of_plain {b : Bytes} (hc : isBlankByte c = false)
    (hb : ∀ x ∈ b, isPlainByte x = true) : Bytes.newline ∉ c :: b := by
  intro hn
  rcases List.mem_cons.1 hn with rfl | hn
  · cases hc
  · exact absurd (hb _ hn) (by decide)

theorem plainToken (h : Tracked trims .code may (c :: (b ++ r)) fs t) (hc : isBlankByte c = false)
    (hlex : lexeme fresh c (b ++ r) = (kind, b.length))
    (hkind : kind = .word ∨ kind = .mark ∨ kind = .number) : Found trims fresh kind c b r fs t := by
  obtain ⟨hstride, hnote⟩ := stride_of_lexeme hlex hkind
  have hplain := plain_lexeme hlex hkind
  obtain ⟨t', rfl, h'⟩ := h.plain hc hnote hstride
  obtain ⟨r', rfl, hr⟩ := h'.plains fun x hx => by
    simpa [isPlainByte] using hplain x hx
  exact hr.found_same hlex (by rcases hkind with rfl | rfl | rfl <;> decide)
    (fun _ => textEnds_of_lexeme hlex hkind) (not_mem_of_plain hc hplain)

theorem characterToken (h : Tracked trims .code may ('\''.toUInt8 :: (b ++ r)) fs t)
    (hlex : lexeme fresh '\''.toUInt8 (b ++ r) = (kind, b.length))
    (hheld : Held trims ⟨kind, '\''.toUInt8 :: b, 0⟩) : Found trims fresh kind '\''.toUInt8 b r fs t := by
  obtain ⟨rfl, hsize⟩ := Prod.mk.inj ((lexeme_character fresh (b ++ r)).symm.trans hlex)
  have hn : Bytes.newline ∉ '\''.toUInt8 :: b := hheld.line (.inr rfl) rfl
  obtain ⟨t', rfl, h'⟩ := h.plain (by decide) (fun hh => absurd hh.2.1 (by decide))
    (show FlowClass.stride .code '\''.toUInt8 (b ++ r) = (.character, 0) from rfl)
  obtain ⟨r', rfl, hr⟩ := h'.quoted (.inr ⟨rfl, rfl⟩) hsize (fun hh => hn (List.mem_cons_of_mem _ hh))
    fun htrims => (Bool.and_eq_true_iff.1 (hheld.closed htrims)).1
  exact hr.found_same hlex (by decide) hheld.closed hn

theorem opener {p : Bytes} {v : Bool} (hp : (c :: p, v) ∈ stringOpeners) (hdrop : c :: p ≠ "@$\"")
    (h : Tracked trims .code may (c :: (p ++ s)) fs t) :
    ∃ t', t = c :: (p ++ t') ∧ Tracked trims (if v then .verbatim else .string) may s fs t' := by
  have hnote : ∀ {c s}, c ≠ '/'.toUInt8 → ¬ OpensNote .code c s := fun hc hh => hc hh.2.1
  simp only [stringOpeners, List.mem_cons, Prod.mk.injEq, List.not_mem_nil, or_false] at hp
  rcases hp with ⟨hp, rfl⟩ | ⟨hp, rfl⟩ | ⟨hp, rfl⟩ | ⟨hp, rfl⟩ | ⟨hp, rfl⟩
  · obtain ⟨rfl, rfl⟩ := List.cons.inj hp
    exact h.plain (by decide) (hnote (by decide)) rfl
  · obtain ⟨rfl, rfl⟩ := List.cons.inj hp
    obtain ⟨e, s', t', m', hs, rfl, -, hstride, h'⟩ := h.uncons (by decide) (hnote (by decide))
    obtain ⟨rfl, hlength⟩ := Prod.mk.inj (hstride.symm.trans
      (show FlowClass.stride .code '@'.toUInt8 ('"'.toUInt8 :: s) = (.verbatim, 1) from rfl))
    obtain ⟨rfl, rfl⟩ := List.append_inj (show ['"'.toUInt8] ++ s = e ++ s' from hs) hlength.symm
    exact ⟨t', rfl, h'⟩
  · exact absurd hp hdrop
  · obtain ⟨rfl, rfl⟩ := List.cons.inj hp
    obtain ⟨t₁, rfl, h₁⟩ := h.plain (by decide) (hnote (by decide))
      (show FlowClass.stride .code '$'.toUInt8 ('"'.toUInt8 :: s) = (.code, 0) from rfl)
    obtain ⟨t₂, rfl, h₂⟩ := h₁.plain (by decide) (hnote (by decide))
      (show FlowClass.stride .code '"'.toUInt8 s = (.string, 0) from rfl)
    exact ⟨t₂, rfl, h₂⟩
  · obtain ⟨rfl, rfl⟩ := List.cons.inj hp
    obtain ⟨e, s', t', m', hs, rfl, -, hstride, h'⟩ := h.uncons (by decide) (hnote (by decide))
    obtain ⟨rfl, hlength⟩ := Prod.mk.inj (hstride.symm.trans
      (show FlowClass.stride .code '$'.toUInt8 ('@'.toUInt8 :: '"'.toUInt8 :: s) = (.verbatim, 2) from rfl))
    obtain ⟨rfl, rfl⟩ := List.append_inj (show ['@'.toUInt8, '"'.toUInt8] ++ s = e ++ s' from hs)
      hlength.symm
    exact ⟨t', rfl, h'⟩

theorem opener_bytes {p : Bytes} {v : Bool} (hp : (p, v) ∈ stringOpeners) :
    Bytes.newline ∉ p ∧ (0x0D : UInt8) ∉ p ∧ ∀ s, isFlush (p ++ s) = isFlush s := by
  simp only [stringOpeners, List.mem_cons, Prod.mk.injEq, List.not_mem_nil, or_false] at hp
  rcases hp with ⟨rfl, -⟩ | ⟨rfl, -⟩ | ⟨rfl, -⟩ | ⟨rfl, -⟩ | ⟨rfl, -⟩ <;>
    exact ⟨by decide, by decide, fun s => rfl⟩

theorem lineFed_append {p s : Bytes} (hp : (0x0D : UInt8) ∉ p) :
    lineFed trims (p ++ s) = p ++ lineFed trims s := by
  induction p with
  | nil => rfl
  | cons c p ih =>
    simp only [List.mem_cons, not_or] at hp
    rw [List.cons_append, lineFed_cons fun _ hc => absurd hc.symm hp.1, ih hp.2]
    rfl

theorem stringToken (h : Tracked trims .code may (c :: (b ++ r)) fs t)
    (hlex : lexeme fresh c (b ++ r) = (.string, b.length)) (hsize : stringSize? c (b ++ r) = some b.length)
    (hheld : Held trims ⟨.string, c :: b, 0⟩) : Found trims fresh .string c b r fs t := by
  obtain ⟨p, v, b, hp, rfl, hsize⟩ := string_parts hsize
  rw [List.append_assoc] at h
  have hdrop : c :: p ≠ "@$\"" := fun hdrop => hheld.opener ⟨b, by rw [← hdrop]; rfl⟩
  obtain ⟨hnp, hrp, hfp⟩ := opener_bytes hp
  obtain ⟨t, rfl, h'⟩ := h.opener hp hdrop
  have hclosed : trims = true → stringEnds v b = true := by
    intro htrims
    have hall := (Bool.and_eq_true_iff.1 (hheld.closed htrims)).1
    rwa [← List.cons_append, literalEnds_opener hp] at hall
  have hkind : (Token.mk .string (c :: p ++ b) 0).isVerbatim = v := isVerbatim_opener hp 0
  cases v with
  | false =>
    have hn : Bytes.newline ∉ c :: (p ++ b) := hheld.line (.inl rfl) hkind
    obtain ⟨r', rfl, hr⟩ := h'.quoted (.inl ⟨rfl, rfl⟩) hsize (fun hh => hn (by simp [hh])) hclosed
    rw [← List.append_assoc]
    exact hr.found_same hlex (by decide) hheld.closed hn
  | true =>
    have hcount : (c :: (p ++ b)).count Bytes.newline = b.count Bytes.newline := by
      rw [← List.cons_append, List.count_append, List.count_eq_zero_of_not_mem hnp, Nat.zero_add]
    cases hends : verbatimEnds b with
    | true =>
      obtain ⟨hb, hquote⟩ := closedVerbatim_of_size hends hsize
      obtain ⟨r', fs', may', rfl, rfl, hr⟩ := h'.verbatim hb hquote fun htrims _ => by
        rw [← hfp b]
        exact hheld.flush htrims hkind
      have hb' := closedVerbatim_lineFed trims hb
      refine ⟨p ++ lineFed trims b, r', fs', may', by simp, ?_, fun _ => ?_, ?_, hr⟩
      · rw [List.append_assoc, lexeme_string (stringSize?_opener hp _), List.length_append,
          Nat.add_comm p.length]
        exact congrArg (fun n => (TokenKind.string, n + p.length)) (hb'.size (hr.tame.not_quote hquote))
      · change c :: (p ++ lineFed trims b) = lineFed trims (c :: p ++ b)
        rw [lineFed_append hrp]
        rfl
      · rw [hcount, ← List.cons_append, hkind]
    | false =>
      obtain rfl : trims = false := by
        cases trims with
        | false => rfl
        | true => exact (Bool.false_ne_true (hends.symm.trans (hclosed rfl))).elim
      obtain rfl : r = [] := by
        by_contra hr
        rw [verbatimEnds_of_size hr hsize] at hends
        cases hends
      rw [List.append_nil] at h' hlex
      have hall : verbatimSize b = b.length := by simpa [stringRest] using hsize
      obtain ⟨rfl, rfl⟩ := openVerbatim hends hall h'
      refine ⟨p ++ t, [], [], may, by simp, by rwa [List.append_nil], fun _ => rfl, ?_, .nil⟩
      · rw [hcount, ← List.cons_append, hkind, List.append_nil]

/-! ## Comments and preprocessor lines -/

theorem lineSize_eq {l r : Bytes} (h : lineSize (l ++ r) = l.length) : Bytes.newline ∉ l ∧ AtEnd r := by
  obtain ⟨hl, hr⟩ := (length_takeWhile_append l r).1 h
  refine ⟨fun hn => absurd (hl _ hn) (by decide), ?_⟩
  cases r with
  | nil => exact .inl rfl
  | cons x r =>
    refine .inr (congrArg some ?_)
    have hx := hr x rfl
    simpa using hx

theorem lineSize_atEnd {l r : Bytes} (hl : Bytes.newline ∉ l) (hr : AtEnd r) :
    lineSize (l ++ r) = l.length := by
  refine lineSize_append hl fun x hx => ?_
  rcases hr with rfl | hr
  · cases hx
  · exact Option.some.inj (hx.symm.trans hr)

theorem lineToken (h : Tracked trims .code may (c :: (b ++ r)) fs t) (hc : isGap c = false)
    (hn : Bytes.newline ∉ c :: b) (hr : AtEnd r) (hmode : nextMode .code (c :: b) = .code) :
    ∃ b' z r', b = b' ++ z ∧ IsGapText z ∧ (trims = false → z = []) ∧ t = c :: (b' ++ r') ∧
      Bytes.newline ∉ b' ∧ AtEnd r' ∧ Tracked trims .code may r fs r' := by
  obtain ⟨l', z, r', hl, hz, hztrims, rfl, hr'⟩ := restOfLine (l := c :: b) h hn hr
  have hcode : Tracked trims .code may r fs r' := hr'.relax hr (by rw [← nextMode_eq, hmode]; rfl)
  cases l' with
  | nil =>
    obtain rfl : c :: b = z := hl
    rw [hz c List.mem_cons_self] at hc
    cases hc
  | cons d b' =>
    obtain ⟨rfl, rfl⟩ := List.cons.inj hl
    exact ⟨b', z, r', rfl, hz, hztrims, rfl, fun hh => hn (by simp [hh]), hcode.atEnd hr, hcode⟩

theorem directiveToken (h : Tracked trims .code may ('#'.toUInt8 :: (b ++ r)) fs t)
    (hsize : lineSize (b ++ r) = b.length) (hheld : Held trims ⟨.directive, '#'.toUInt8 :: b, 0⟩) :
    Found trims true .directive '#'.toUInt8 b r fs t := by
  obtain ⟨hb, hr⟩ := lineSize_eq hsize
  have hn : Bytes.newline ∉ '#'.toUInt8 :: b := by
    simp only [List.mem_cons, not_or]
    exact ⟨by decide, hb⟩
  obtain ⟨b', z, r', rfl, hz, hztrims, rfl, hb', hr', h'⟩ :=
    h.lineToken (by decide) hn hr (hheld.directive rfl)
  refine ⟨b', r', fs, may, rfl, (Lexed.directive rfl rfl (lineSize_atEnd hb' hr')).lexeme_eq,
    fun _ => ⟨z, hz, rfl, hztrims⟩, ?_, h'⟩
  rw [List.count_eq_zero_of_not_mem hn]
  rfl

theorem noteToken (h : Tracked trims .code may ('/'.toUInt8 :: (b ++ r)) fs t)
    (hslash : (b ++ r).head? = some '/'.toUInt8) (hsize : lineSize (b ++ r) = b.length) :
    Found trims fresh .comment '/'.toUInt8 b r fs t := by
  obtain ⟨hb, hr⟩ := lineSize_eq hsize
  have hn : Bytes.newline ∉ '/'.toUInt8 :: b := by
    simp only [List.mem_cons, not_or]
    exact ⟨by decide, hb⟩
  obtain ⟨b, rfl⟩ := exists_cons_of_head hslash (by
    rintro rfl
    exact absurd hslash ((apart_of_atEnd hr).head_ne (by decide)))
  obtain ⟨b', z, r', hbz, hz, hztrims, rfl, hb', hr', h'⟩ :=
    h.lineToken (by decide) hn hr (by rw [nextMode_eq, modeAfter_note]; rfl)
  have hslash' : (b' ++ r').head? = some '/'.toUInt8 := by
    cases b' with
    | cons d b' => rw [(List.cons.inj hbz).1]; rfl
    | nil =>
      obtain rfl : '/'.toUInt8 :: b = z := hbz
      exact absurd (hz _ List.mem_cons_self) (by decide)
  refine ⟨b', r', fs, may, rfl, (Lexed.line rfl hslash' (lineSize_atEnd hb' hr')).lexeme_eq,
    fun hh => absurd rfl hh, ?_, h'⟩
  rw [List.count_eq_zero_of_not_mem hn]
  rfl

theorem commentToken (h : Tracked trims .code may ('/'.toUInt8 :: '*'.toUInt8 :: (b ++ r)) fs t)
    (hsize : commentSize (b ++ r) = b.length)
    (hclosed : trims = true → commentEnds b = true) :
    Found trims fresh .comment '/'.toUInt8 ('*'.toUInt8 :: b) r fs t := by
  have hcount : ('/'.toUInt8 :: '*'.toUInt8 :: b).count Bytes.newline = b.count Bytes.newline := by
    rw [List.count_cons_of_ne (by decide), List.count_cons_of_ne (by decide)]
  obtain ⟨e, s', t', m', hs, rfl, -, hstride, h'⟩ := h.uncons (by decide)
    fun hh => absurd (Option.some.inj hh.2.2) (by decide)
  obtain ⟨rfl, hlength⟩ := Prod.mk.inj (hstride.symm.trans
    (show FlowClass.stride .code '/'.toUInt8 ('*'.toUInt8 :: (b ++ r)) = (.comment, 1) from rfl))
  obtain ⟨rfl, rfl⟩ := List.append_inj (show ['*'.toUInt8] ++ (b ++ r) = e ++ s' from hs) hlength.symm
  cases hends : commentEnds b with
  | true =>
    rw [commentSize_append _ _ hends] at hsize
    obtain ⟨b', r', fs', may', rfl, hb', rfl, hr⟩ := h'.comment (closedComment_of_ends hends hsize)
    refine ⟨'*'.toUInt8 :: b', r', fs', may', rfl, ?_, fun hh => absurd rfl hh, ?_, hr⟩
    · rw [List.cons_append, lexeme_comment, commentSize_append _ _ hb'.ends.1, hb'.ends.2]
      rfl
    · rw [hcount]
      rfl
  | false =>
    obtain rfl : trims = false := by
      cases trims with
      | false => rfl
      | true => exact (Bool.false_ne_true (hends.symm.trans (hclosed rfl))).elim
    obtain rfl : r = [] := by
      by_contra hr
      rw [commentEnds_of_size b r hr hsize] at hends
      cases hends
    rw [List.append_nil] at h'
    obtain ⟨ht, rfl⟩ := h'.openComment hends
    refine ⟨'*'.toUInt8 :: t', [], [], may, by simp, ?_, fun hh => absurd rfl hh, ?_, .nil⟩
    · rw [List.append_nil, lexeme_comment, commentSize_of_open ht]
      rfl
    · rw [hcount, List.append_nil]
      rfl

/-- **A token in a text and in the text it becomes.** -/
theorem token (h : Tracked trims .code may (c :: (b ++ r)) fs t) (hc : isBlankByte c = false)
    (hlex : lexeme fresh c (b ++ r) = (kind, b.length)) (hheld : Held trims ⟨kind, c :: b, 0⟩) :
    Found trims fresh kind c b r fs t := by
  cases lexed_of_lexeme hlex with
  | directive hsharp hfresh hk =>
    subst hsharp hfresh
    exact h.directiveToken hk hheld
  | line hslash hs hk =>
    subst hslash
    exact h.noteToken hs hk
  | comment hslash hs hk =>
    subst hslash
    obtain ⟨b, rfl⟩ := exists_cons_of_head hs (by rintro rfl; cases hk)
    exact h.commentToken (by simpa using hk) fun htrims => (Bool.and_eq_true_iff.1 (hheld.closed htrims)).2
  | string hk => exact h.stringToken hlex hk hheld
  | character hquote =>
    subst hquote
    exact h.characterToken hlex hheld
  | _ => exact h.plainToken hc hlex (by simp)

end Tracked

end Flowsmith.FlowClass
