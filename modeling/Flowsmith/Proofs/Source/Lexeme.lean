import Flowsmith.Source.Token

/-!
# Tokens and what follows them

A token is decided by its own bytes and by what it sees of the bytes after it. The same bytes are
the same token again wherever what follows them does not continue the token.

* `Tame r r'` : `r'` continues a token no more than `r` does;
* `literalEnds`, `textEnds` : whether a literal, or a literal or comment, is closed;
* `lexeme_of_tame` : a closed token in front of a tame continuation.
-/

namespace Flowsmith.Utf8

/-- What a text begins with does not change when the text is continued. -/
theorem decode?_append {s : Bytes} {p : Nat × Nat} (r : Bytes) (h : decode? s = some p) :
    decode? (s ++ r) = some p := by
  rcases s with _ | ⟨a, _ | ⟨b, _ | ⟨c, _ | ⟨d, s⟩⟩⟩⟩
  all_goals
    simp only [decode?, List.cons_append, List.nil_append] at h ⊢
    grind

/-- A sequence that is cut short is not completed by a byte that continues none. -/
theorem decode?_append_of_none {s r : Bytes} (hs : s ≠ []) (h : decode? s = none)
    (hr : ∀ x, r.head? = some x → isTail x = false) : decode? (s ++ r) = none := by
  cases r with
  | nil => rwa [List.append_nil]
  | cons x r =>
    have hx : isTail x = false := hr x rfl
    rcases s with _ | ⟨a, _ | ⟨b, _ | ⟨c, _ | ⟨d, s⟩⟩⟩⟩
    · exact absurd rfl hs
    all_goals
      simp only [decode?, List.cons_append, List.nil_append] at h ⊢
      grind [two?, three?, four?]

/-- The size of what a text begins with; that many bytes decide it. -/
theorem decode?_take {s : Bytes} {v k : Nat} (h : decode? s = some (v, k)) :
    k ≤ s.length ∧ decode? (s.take k) = some (v, k) := by
  rcases s with _ | ⟨a, _ | ⟨b, _ | ⟨c, _ | ⟨d, s⟩⟩⟩⟩
  · cases h
  all_goals
    simp only [decode?] at h
    repeat' split at h
    all_goals grind [decode?, Option.map_eq_some_iff]

end Flowsmith.Utf8

namespace Flowsmith.Source

open Utf8 (isTail decode decode?)

/-! ## What may follow a token -/

/-- A byte that ends every token but a comment, a preprocessor line and a literal that is not closed,
and those that it joins. -/
def isStop (x : UInt8) : Bool :=
  x < 0x80 && !isWordPart x.toNat && !(['"', '\'', '/', '*', '@', '$'].map Char.toUInt8).contains x

/-- Whether a byte that ends other tokens continues this one: a point in a number, the head of an
arrow. -/
def joins (kind : TokenKind) (text : Bytes) (x : UInt8) : Bool :=
  (kind == .number && x == '.'.toUInt8) || (text == ['='.toUInt8] && x == '>'.toUInt8)

theorem joins_eq_false (kind : TokenKind) (text : Bytes) {x : UInt8} (hdot : x ≠ '.'.toUInt8)
    (hangle : x ≠ '>'.toUInt8) : joins kind text x = false := by
  rw [joins, beq_false_of_ne hdot, beq_false_of_ne hangle, Bool.and_false, Bool.and_false]
  rfl

/-- The text `r'` continues a token no more than `r` does: they begin alike, until `r'` ends or goes
on with a byte that ends tokens. -/
inductive Tame : Bytes → Bytes → Prop where
  | done (r : Bytes) : Tame r []
  | stop (r : Bytes) {x : UInt8} (r' : Bytes) (h : isStop x = true) : Tame r (x :: r')
  | byte (y : UInt8) {r r' : Bytes} (h : Tame r r') : Tame (y :: r) (y :: r')

theorem Tame.take (n : Nat) (r : Bytes) : Tame r (r.take n) := by
  induction r generalizing n with
  | nil => rw [List.take_nil]; exact .done []
  | cons y r ih =>
    cases n with
    | zero => exact .done _
    | succ n => exact .byte y (ih n)

theorem lt_of_isStop {x : UInt8} (h : isStop x = true) : x < 0x80 := by
  simp only [isStop, Bool.and_eq_true, decide_eq_true_eq] at h
  exact h.1.1

theorem isTail_of_isStop {x : UInt8} (h : isStop x = true) : isTail x = false := by
  have hx := lt_of_isStop h
  simp only [isTail, Bool.and_eq_false_iff, decide_eq_false_iff_not]
  exact Or.inl (by exact UInt8.not_le.2 hx)

theorem not_isWordPart_of_isStop {x : UInt8} (h : isStop x = true) :
    isWordPart x.toNat = false := by
  simp only [isStop, Bool.and_eq_true, Bool.not_eq_true'] at h
  exact h.1.2

theorem decode_of_lt {x : UInt8} (r : Bytes) (h : x < 0x80) : decode (x :: r) = (x.toNat, 1) := by
  simp [decode, decode?, h]

/-- What is decoded in front of a tame continuation is decoded in front of the other one. -/
theorem decode?_of_tame {r r' : Bytes} (h : Tame r r') {a : Bytes} {p : Nat × Nat} (ha : a ≠ [])
    (hp : decode? (a ++ r') = some p) : decode? (a ++ r) = some p := by
  induction h generalizing a with
  | done r =>
    rw [List.append_nil] at hp
    exact Utf8.decode?_append r hp
  | stop r r' hx =>
    cases hd : decode? a with
    | none =>
      have hnone := Utf8.decode?_append_of_none ha hd (r := _ :: r') fun y hy => by
        cases hy
        exact isTail_of_isStop hx
      rw [hnone] at hp
      cases hp
    | some q =>
      rw [Utf8.decode?_append _ hd] at hp
      cases hp
      exact Utf8.decode?_append r hd
  | byte y _ ih =>
    have := ih (a := a ++ [y]) (by simp) (by simpa using hp)
    simpa using this

theorem decode_of_tame {r r' a : Bytes} (h : Tame r r') (ha : a ≠ [])
    (hk : (decode (a ++ r)).2 ≤ a.length) : decode (a ++ r') = decode (a ++ r) := by
  unfold decode at hk ⊢
  cases hd : decode? (a ++ r) with
  | none =>
    cases hd' : decode? (a ++ r') with
    | none => rfl
    | some p =>
      rw [decode?_of_tame h ha hd'] at hd
      cases hd
  | some p =>
    obtain ⟨v, k⟩ := p
    rw [hd] at hk
    have hk : k ≤ a.length := hk
    have htake := (Utf8.decode?_take hd).2
    rw [List.take_append_of_le_length hk] at htake
    have hwhole := Utf8.decode?_append (a.drop k) htake
    rw [List.take_append_drop] at hwhole
    rw [Utf8.decode?_append r' hwhole]

theorem isWordPart_replacement : isWordPart Utf8.replacement = false := by decide +kernel

theorem wordSize_nil : wordSize [] = 0 := by
  unfold wordSize
  rfl

theorem wordSize_cons (c : UInt8) (s : Bytes) : wordSize (c :: s) =
    if isWordPart (decode (c :: s)).1 then
      (decode (c :: s)).2 + wordSize (s.drop ((decode (c :: s)).2 - 1)) else 0 := by
  rw [wordSize]

theorem wordSize_eq_zero_of_tame {r r' : Bytes} (h : Tame r r') (hw : wordSize r = 0) :
    wordSize r' = 0 := by
  cases h with
  | done r => exact wordSize_nil
  | stop r r' hx =>
    rw [wordSize_cons, decode_of_lt _ (lt_of_isStop hx), not_isWordPart_of_isStop hx]
    rfl
  | @byte y r r' h =>
    rw [wordSize_cons] at hw ⊢
    have hpos := Utf8.decode_size_pos (y :: r)
    have hnot : isWordPart (decode (y :: r)).1 = false := by
      cases hp : isWordPart (decode (y :: r)).1 with
      | false => rfl
      | true =>
        rw [hp, if_pos rfl] at hw
        omega
    have hnot' : isWordPart (decode (y :: r')).1 = false := by
      cases hd : decode? (y :: r') with
      | none =>
        unfold decode
        rw [hd]
        exact isWordPart_replacement
      | some p =>
        have := decode?_of_tame h (a := [y]) (by simp) (by simpa using hd)
        unfold decode at hnot ⊢
        rw [hd]
        rw [List.singleton_append] at this
        rwa [this] at hnot
    rw [hnot']
    rfl

/-- A word ends in front of a tame continuation where it ended before. -/
theorem wordSize_of_tame {r r' : Bytes} (h : Tame r r') (b : Bytes)
    (hw : wordSize (b ++ r) = b.length) : wordSize (b ++ r') = b.length := by
  match b with
  | [] => exact wordSize_eq_zero_of_tame h hw
  | c :: b =>
    rw [List.cons_append, wordSize_cons] at hw ⊢
    have hpos := Utf8.decode_size_pos (c :: (b ++ r))
    cases hp : isWordPart (decode (c :: (b ++ r))).1 with
    | false =>
      rw [hp] at hw
      cases hw
    | true =>
      rw [hp, if_pos rfl, List.length_cons] at hw
      have hk : (decode (c :: (b ++ r))).2 - 1 ≤ b.length := by omega
      have hsame : decode (c :: (b ++ r')) = decode (c :: (b ++ r)) :=
        decode_of_tame h (a := c :: b) (by simp) (by simp only [List.cons_append, List.length_cons]; omega)
      rw [List.drop_append_of_le_length hk] at hw
      have hrest := wordSize_of_tame h (b.drop ((decode (c :: (b ++ r))).2 - 1))
        (by rw [List.length_drop]; omega)
      rw [hsame, hp, if_pos rfl, List.drop_append_of_le_length hk, hrest, List.length_drop,
        List.length_cons]
      omega
termination_by b.length

/-! ## Literals and comments that are closed -/

/-- Whether a literal with backslash escapes is closed on its line; the text begins after its opening
quote. -/
def quotedEnds (quote : UInt8) : Bytes → Bool
  | [] => false
  | c :: s =>
    if c = '\\'.toUInt8 then
      match s with
      | [] => false
      | _ :: s => quotedEnds quote s
    else if c = quote then true
    else if c = Bytes.newline then false
    else quotedEnds quote s

/-- Whether a literal in which a quote is written twice is closed. -/
def verbatimEnds : Bytes → Bool
  | [] => false
  | c :: s =>
    if c = '"'.toUInt8 then
      match s with
      | [] => true
      | d :: s => if d = '"'.toUInt8 then verbatimEnds s else true
    else verbatimEnds s

def commentEnds : Bytes → Bool
  | [] => false
  | [_] => false
  | a :: b :: s => if a = '*'.toUInt8 ∧ b = '/'.toUInt8 then true else commentEnds (b :: s)

/-- What string literals begin with, and whether a quote is written twice in them. -/
def stringOpeners : List (Bytes × Bool) :=
  [("\"", false), ("@\"", true), ("@$\"", true), ("$\"", false), ("$@\"", true)]

/-- The size of the rest of a string literal after its opener. -/
def stringRest (verbatim : Bool) (s : Bytes) : Nat :=
  if verbatim then verbatimSize s else quotedSize '"'.toUInt8 s

/-- Whether a string literal is closed; the text begins after its opener. -/
def stringEnds (verbatim : Bool) (s : Bytes) : Bool :=
  if verbatim then verbatimEnds s else quotedEnds '"'.toUInt8 s

def literalEnds (text : Bytes) : Bool :=
  match stringOpeners.find? (·.1.isPrefixOf text) with
  | some opener => stringEnds opener.2 (text.drop opener.1.length)
  | none => if text.head? = some '\''.toUInt8 then quotedEnds '\''.toUInt8 text.tail else true

def Token.isTerminated (t : Token) : Bool := literalEnds t.text

/-- Whether the text of a token is closed, be it a literal or a comment. -/
def textEnds (text : Bytes) : Bool :=
  literalEnds text && (text.take 2 != ("/*" : Bytes) || commentEnds (text.drop 2))

theorem quotedSize_cons {quote c : UInt8} (s : Bytes) (h : c ≠ '\\'.toUInt8) :
    quotedSize quote (c :: s)
      = if c = quote then 1 else if c = Bytes.newline then 0 else quotedSize quote s + 1 := by
  cases s <;> simp [quotedSize, h]

theorem verbatimSize_cons {c : UInt8} (s : Bytes) (h : c ≠ '"'.toUInt8) :
    verbatimSize (c :: s) = verbatimSize s + 1 := by
  cases s <;> simp [verbatimSize, h]

theorem quotedSize_append {quote : UInt8} (b r : Bytes) (h : quotedEnds quote b = true) :
    quotedSize quote (b ++ r) = quotedSize quote b := by
  fun_induction quotedEnds quote b with
  | case1 => cases h
  | case2 => cases h
  | case3 d s ih => simp [quotedSize, ih h]
  | case4 s hc => rw [List.cons_append, quotedSize_cons _ hc, quotedSize_cons _ hc, if_pos rfl, if_pos rfl]
  | case5 => cases h
  | case6 c s hc hq hn ih =>
    rw [List.cons_append, quotedSize_cons _ hc, quotedSize_cons _ hc, if_neg hq, if_neg hq, if_neg hn,
      if_neg hn, ih h]

theorem commentSize_append (b r : Bytes) (h : commentEnds b = true) :
    commentSize (b ++ r) = commentSize b := by
  fun_induction commentEnds b with
  | case1 => cases h
  | case2 => cases h
  | case3 a b s hab => simp [commentSize, hab]
  | case4 a b s hab ih =>
    simp only [List.cons_append] at ih ⊢
    rw [commentSize, commentSize, if_neg hab, if_neg hab, ih h]

/-- A verbatim literal is closed only where no other quote follows. -/
theorem verbatimSize_tame {r r' : Bytes} (b : Bytes) (h : verbatimEnds b = true)
    (hb : verbatimSize (b ++ r) = b.length) (hr : r.head? ≠ some '"'.toUInt8 →
      r'.head? ≠ some '"'.toUInt8) : verbatimSize (b ++ r') = b.length := by
  fun_induction verbatimEnds b with
  | case1 => cases h
  | case2 =>
    have hhead : r.head? ≠ some '"'.toUInt8 := by
      intro hq
      cases r with
      | nil => cases hq
      | cons x r =>
        cases hq
        simp [verbatimSize] at hb
    have hhead' := hr hhead
    cases r' with
    | nil => simp [verbatimSize]
    | cons x r' =>
      simp only [List.head?_cons, ne_eq, Option.some.injEq] at hhead'
      simp [verbatimSize, hhead']
  | case3 s ih =>
    simp only [List.cons_append, verbatimSize, if_true, List.length_cons, Nat.add_right_cancel_iff] at hb ⊢
    exact ih h hb
  | case4 d s hd =>
    simp only [List.cons_append, verbatimSize, if_true, List.length_cons, if_neg hd] at hb
    omega
  | case5 c s hc ih =>
    rw [List.cons_append, verbatimSize_cons _ hc, List.length_cons, Nat.add_right_cancel_iff] at hb ⊢
    exact ih h hb

theorem length_takeWhile_append {p : UInt8 → Bool} (b r : Bytes) :
    ((b ++ r).takeWhile p).length = b.length ↔
      (∀ x ∈ b, p x = true) ∧ ∀ x, r.head? = some x → p x = false := by
  induction b with
  | nil =>
    cases r with
    | nil => simp
    | cons x r =>
      cases hx : p x with
      | false => simp [hx]
      | true => simp [hx]
  | cons c b ih =>
    cases hc : p c with
    | false => simp [hc]
    | true => simp [hc, ih]

/-! ## Tokens in another context -/

theorem Tame.append {r r' : Bytes} (b : Bytes) (h : Tame r r') : Tame (b ++ r) (b ++ r') := by
  induction b with
  | nil => exact h
  | cons y b ih => exact .byte y ih

theorem Tame.head? {r r' : Bytes} (h : Tame r r') {x : UInt8} (hx : isStop x = false)
    (hr : r'.head? = some x) : r.head? = some x := by
  cases h with
  | done r => cases hr
  | stop r r' hy =>
    cases hr
    rw [hx] at hy
    cases hy
  | byte y h => exact hr

theorem Tame.take_two {r r' : Bytes} (h : Tame r r') {x y : UInt8} (hx : isStop x = false)
    (hy : isStop y = false) (hr : r'.take 2 = [x, y]) : r.take 2 = [x, y] := by
  cases h with
  | done r => cases hr
  | stop r r' hz =>
    simp only [List.take_succ_cons, List.cons.injEq] at hr
    rw [hr.1, hx] at hz
    cases hz
  | @byte z r r' h =>
    simp only [List.take_succ_cons, List.cons.injEq] at hr ⊢
    refine ⟨hr.1, ?_⟩
    have hhead : r'.head? = some y := by
      cases r' with
      | nil => cases hr.2
      | cons w r' =>
        simp only [List.take_succ_cons, List.take_zero, List.cons.injEq, and_true] at hr
        rw [hr.2]
        rfl
    cases r with
    | nil => cases h.head? hy hhead
    | cons w r =>
      have := h.head? hy hhead
      simp only [List.head?_cons, Option.some.injEq] at this
      simp [this]

theorem stringSize?_eq_none_iff {c : UInt8} {s : Bytes} : stringSize? c s = none ↔
    c ≠ '"'.toUInt8 ∧
    (c = '@'.toUInt8 → s.head? ≠ some '"'.toUInt8 ∧ s.take 2 ≠ ['$'.toUInt8, '"'.toUInt8]) ∧
    (c = '$'.toUInt8 → s.head? ≠ some '"'.toUInt8 ∧ s.take 2 ≠ ['@'.toUInt8, '"'.toUInt8]) := by
  unfold stringSize?
  by_cases hq : c = '"'.toUInt8
  · simp [hq]
  · rw [if_neg hq]
    by_cases ha : c = '@'.toUInt8
    · subst ha
      rcases s with _ | ⟨a, _ | ⟨b, s⟩⟩
      · simp +decide
      · by_cases h : a = '"'.toUInt8 <;> simp +decide [h]
      · by_cases h : a = '"'.toUInt8
        · simp [h]
        · by_cases h' : a = '$'.toUInt8 ∧ b = '"'.toUInt8 <;> simp +decide [h, h']
    · rw [if_neg ha]
      by_cases hd : c = '$'.toUInt8
      · subst hd
        rcases s with _ | ⟨a, _ | ⟨b, s⟩⟩
        · simp +decide
        · by_cases h : a = '"'.toUInt8 <;> simp +decide [h]
        · by_cases h : a = '"'.toUInt8
          · simp [h]
          · by_cases h' : a = '@'.toUInt8 ∧ b = '"'.toUInt8 <;> simp +decide [h, h']
      · simp [ha, hd, hq]

/-- No string literal begins in front of a tame continuation when none began before. -/
theorem stringSize?_of_tame_none {c : UInt8} {s s' : Bytes} (h : Tame s s')
    (hs : stringSize? c s = none) : stringSize? c s' = none := by
  rw [stringSize?_eq_none_iff] at hs ⊢
  have hquote : isStop '"'.toUInt8 = false := by decide
  refine ⟨hs.1, fun hc => ⟨fun hh => ?_, fun ht => ?_⟩, fun hc => ⟨fun hh => ?_, fun ht => ?_⟩⟩
  · exact (hs.2.1 hc).1 (h.head? hquote hh)
  · exact (hs.2.1 hc).2 (h.take_two (by decide) hquote ht)
  · exact (hs.2.2 hc).1 (h.head? hquote hh)
  · exact (hs.2.2 hc).2 (h.take_two (by decide) hquote ht)

theorem Tame.not_quote {r r' : Bytes} (h : Tame r r') (hr : r.head? ≠ some '"'.toUInt8) :
    r'.head? ≠ some '"'.toUInt8 := fun hq => hr (h.head? (by decide) hq)

theorem stringSize?_opener {c : UInt8} {p : Bytes} {v : Bool} (h : (c :: p, v) ∈ stringOpeners)
    (s : Bytes) : stringSize? c (p ++ s) = some (stringRest v s + p.length) := by
  simp only [stringOpeners, List.mem_cons, Prod.mk.injEq, List.not_mem_nil, or_false] at h
  rcases h with ⟨h, rfl⟩ | ⟨h, rfl⟩ | ⟨h, rfl⟩ | ⟨h, rfl⟩ | ⟨h, rfl⟩
  all_goals
    obtain ⟨rfl, rfl⟩ := List.cons.inj h
    rfl

theorem literalEnds_opener {t : Bytes} {v : Bool} (h : (t, v) ∈ stringOpeners) (s : Bytes) :
    literalEnds (t ++ s) = stringEnds v s := by
  simp only [stringOpeners, List.mem_cons, Prod.mk.injEq, List.not_mem_nil, or_false] at h
  rcases h with ⟨rfl, rfl⟩ | ⟨rfl, rfl⟩ | ⟨rfl, rfl⟩ | ⟨rfl, rfl⟩ | ⟨rfl, rfl⟩ <;> rfl

theorem exists_opener {c : UInt8} {s : Bytes} {k : Nat} (h : stringSize? c s = some k) :
    ∃ p v r, (c :: p, v) ∈ stringOpeners ∧ s = p ++ r := by
  have hsome : stringSize? c s ≠ none := by simp [h]
  rw [ne_eq, stringSize?_eq_none_iff] at hsome
  have head_eq : ∀ {x : UInt8}, s.head? = some x → s = [x] ++ s.tail := fun hx => by
    cases s <;> simp_all
  have take_eq : ∀ {x y : UInt8}, s.take 2 = [x, y] → s = [x, y] ++ s.drop 2 := fun hxy => by
    rw [← hxy, List.take_append_drop]
  by_cases hq : c = '"'.toUInt8
  · exact ⟨[], false, s, by subst hq; exact List.mem_cons_self, rfl⟩
  · by_cases ha : c = '@'.toUInt8
    · subst ha
      by_cases hh : s.head? = some '"'.toUInt8
      · exact ⟨_, true, _, by simp [stringOpeners]; decide, head_eq hh⟩
      · by_cases ht : s.take 2 = ['$'.toUInt8, '"'.toUInt8]
        · exact ⟨_, true, _, by simp [stringOpeners]; decide, take_eq ht⟩
        · exact absurd ⟨hq, fun _ => ⟨hh, ht⟩, fun h => absurd h (by decide)⟩ hsome
    · by_cases hd : c = '$'.toUInt8
      · subst hd
        by_cases hh : s.head? = some '"'.toUInt8
        · exact ⟨_, false, _, by simp [stringOpeners]; decide, head_eq hh⟩
        · by_cases ht : s.take 2 = ['@'.toUInt8, '"'.toUInt8]
          · exact ⟨_, true, _, by simp [stringOpeners]; decide, take_eq ht⟩
          · exact absurd ⟨hq, fun h => absurd h (by decide), fun _ => ⟨hh, ht⟩⟩ hsome
      · exact absurd ⟨hq, fun h => absurd h ha, fun h => absurd h hd⟩ hsome

theorem string_parts {c : UInt8} {b r : Bytes} (h : stringSize? c (b ++ r) = some b.length) :
    ∃ p v b', (c :: p, v) ∈ stringOpeners ∧ b = p ++ b' ∧ stringRest v (b' ++ r) = b'.length := by
  obtain ⟨p, v, s, hp, happ⟩ := exists_opener h
  rw [happ, stringSize?_opener hp, Option.some.injEq] at h
  obtain ⟨b', rfl⟩ : p <+: b :=
    List.prefix_of_prefix_length_le ⟨s, happ.symm⟩ (List.prefix_append b r) (by omega)
  rw [List.append_assoc] at happ
  obtain rfl := List.append_cancel_left happ
  rw [List.length_append, Nat.add_comm, Nat.add_left_cancel_iff] at h
  exact ⟨p, v, b', hp, rfl, h⟩

theorem stringSize?_of_parts {c : UInt8} {p b r : Bytes} {v : Bool} (hp : (c :: p, v) ∈ stringOpeners)
    (h : stringRest v (b ++ r) = b.length) : stringSize? c (p ++ b ++ r) = some (p ++ b).length := by
  rw [List.append_assoc, stringSize?_opener hp, h, List.length_append, Nat.add_comm]

theorem stringRest_of_tame {v : Bool} {b r r' : Bytes} (h : Tame r r')
    (hends : stringEnds v b = true) (hs : stringRest v (b ++ r) = b.length) :
    stringRest v (b ++ r') = b.length := by
  cases v with
  | true => exact verbatimSize_tame b hends hs h.not_quote
  | false =>
    simp only [stringRest, stringEnds, Bool.false_eq_true, if_false] at hends hs ⊢
    rw [quotedSize_append _ _ hends] at hs ⊢
    exact hs

/-- A string literal that is closed is the same in front of a tame continuation. -/
theorem stringSize?_of_tame {c : UInt8} {b r r' : Bytes} (h : Tame r r')
    (hends : literalEnds (c :: b) = true) (hs : stringSize? c (b ++ r) = some b.length) :
    stringSize? c (b ++ r') = some b.length := by
  obtain ⟨p, v, b', hp, rfl, hrest⟩ := string_parts hs
  rw [← List.cons_append, literalEnds_opener hp] at hends
  exact stringSize?_of_parts hp (stringRest_of_tame h hends hrest)

theorem numberSize_of_tame {b r r' : Bytes} (h : Tame r r') (hb : numberSize (b ++ r) = b.length)
    (hdot : r'.head? = some '.'.toUInt8 → r.head? = some '.'.toUInt8) :
    numberSize (b ++ r') = b.length := by
  unfold numberSize at hb ⊢
  rw [length_takeWhile_append] at hb ⊢
  refine ⟨hb.1, fun x hx => ?_⟩
  cases hstop : isStop x with
  | false => exact hb.2 x (h.head? hstop hx)
  | true =>
    by_cases hx' : x = '.'.toUInt8
    · subst hx'
      exact hb.2 _ (hdot hx)
    · simp [not_isWordPart_of_isStop hstop, hx']

theorem lineSize_of_newline {b r r' : Bytes} (hb : lineSize (b ++ r) = b.length)
    (hr : ∀ x, r'.head? = some x → x = Bytes.newline ∨ r.head? = some x) :
    lineSize (b ++ r') = b.length := by
  unfold lineSize at hb ⊢
  rw [length_takeWhile_append] at hb ⊢
  refine ⟨hb.1, fun x hx => ?_⟩
  rcases hr x hx with rfl | hx'
  · rfl
  · exact hb.2 x hx'

theorem isWordPart_of_isWordStart {n : Nat} (h : isWordStart n = true) : isWordPart n = true := by
  simp only [isWordStart, isWordPart, Bool.or_eq_true] at h ⊢
  exact Or.inl h

theorem isWordStart_eq_false {n : Nat} (h : isWordPart n = false) : isWordStart n = false :=
  eq_false_of_ne_true fun hs => Bool.false_ne_true (h.symm.trans (isWordPart_of_isWordStart hs))

theorem exists_cons_of_head {b r : Bytes} {x : UInt8} (h : (b ++ r).head? = some x) (hb : b ≠ []) :
    ∃ b', b = x :: b' := by
  obtain ⟨y, b', rfl⟩ := List.exists_cons_of_ne_nil hb
  cases h
  exact ⟨b', rfl⟩

/-! ## How a token is read -/

/-- No comment, preprocessor line, literal or number begins. -/
structure Bare (fresh : Bool) (c : UInt8) (s : Bytes) : Prop where
  sharp : ¬ (c = '#'.toUInt8 ∧ fresh = true)
  line : ¬ (c = '/'.toUInt8 ∧ s.head? = some '/'.toUInt8)
  comment : ¬ (c = '/'.toUInt8 ∧ s.head? = some '*'.toUInt8)
  string : stringSize? c s = none
  character : c ≠ '\''.toUInt8
  number : ¬ Bytes.isDigitByte c = true

/-- How the token that begins with `c` is read in front of `s`: its kind, and the number `k` of its other
bytes. -/
inductive Lexed (fresh : Bool) (c : UInt8) (s : Bytes) (k : Nat) : TokenKind → Prop where
  | directive (hc : c = '#'.toUInt8) (hfresh : fresh = true) (hk : lineSize s = k) :
    Lexed fresh c s k .directive
  | line (hc : c = '/'.toUInt8) (hs : s.head? = some '/'.toUInt8) (hk : lineSize s = k) :
    Lexed fresh c s k .comment
  | comment (hc : c = '/'.toUInt8) (hs : s.head? = some '*'.toUInt8) (hk : commentSize s.tail + 1 = k) :
    Lexed fresh c s k .comment
  | string (hk : stringSize? c s = some k) : Lexed fresh c s k .string
  | character (hc : c = '\''.toUInt8) (hk : quotedSize '\''.toUInt8 s = k) : Lexed fresh c s k .character
  | number (hc : Bytes.isDigitByte c = true) (hk : numberSize s = k) : Lexed fresh c s k .number
  | verbatim (hc : c = '@'.toUInt8) (hs : stringSize? c s = none) (hpos : k ≠ 0) (hk : wordSize s = k) :
    Lexed fresh c s k .word
  | sign (hc : c = '@'.toUInt8) (hs : stringSize? c s = none) (hzero : k = 0) (hk : wordSize s = k) :
    Lexed fresh c s k .mark
  | word (hstart : isWordStart (decode (c :: s)).1 = true) (hk : wordSize (c :: s) = k + 1) :
    Lexed fresh c s k .word
  | arrow (hc : c = '='.toUInt8) (hs : s.head? = some '>'.toUInt8) (hk : k = 1) : Lexed fresh c s k .mark
  | rune (hbare : Bare fresh c s) (hc : c ≠ '@'.toUInt8) (hstart : ¬ isWordStart (decode (c :: s)).1 = true)
    (harrow : ¬ (c = '='.toUInt8 ∧ s.head? = some '>'.toUInt8)) (hk : (decode (c :: s)).2 = k + 1) :
    Lexed fresh c s k .mark

section Lexed

variable {fresh : Bool} {c : UInt8} {s : Bytes} {k : Nat} {kind : TokenKind}

theorem ne_of_stringSize? (h : stringSize? c s = some k) : c ≠ '/'.toUInt8 ∧ c ≠ '#'.toUInt8 := by
  obtain ⟨p, v, r, hp, -⟩ := exists_opener h
  have hfirst : ∀ o ∈ stringOpeners, o.1.head? ≠ some '/'.toUInt8 ∧ o.1.head? ≠ some '#'.toUInt8 := by
    decide
  simpa using hfirst _ hp

/-- A byte other than the openers of literals, comments and preprocessor lines begins none of them. -/
theorem bare_of_ne (hne : ∀ d ∈ (['#', '/', '"', '@', '$', '\''].map Char.toUInt8), c ≠ d)
    (hnumber : Bytes.isDigitByte c = false) : Bare fresh c s where
  sharp h := hne _ (by decide) h.1
  line h := hne _ (by decide) h.1
  comment h := hne _ (by decide) h.1
  string := stringSize?_eq_none_iff.2
    ⟨hne _ (by decide), fun h => absurd h (hne _ (by decide)), fun h => absurd h (hne _ (by decide))⟩
  character := hne _ (by decide)
  number := by rw [hnumber]; exact Bool.false_ne_true

theorem ne_of_isWordStart {d : UInt8} (h : isWordStart (decode (c :: s)).1 = true) (hd : d < 0x80)
    (hstart : isWordStart d.toNat = false) : c ≠ d := by
  rintro rfl
  rw [decode_of_lt s hd] at h
  exact absurd (h.symm.trans hstart) (by decide)

theorem Bare.of_isWordStart (h : isWordStart (decode (c :: s)).1 = true) : Bare fresh c s := by
  refine bare_of_ne (fun d hd => ?_) ?_
  · have hall : ∀ d ∈ (['#', '/', '"', '@', '$', '\''].map Char.toUInt8), d < 0x80 ∧
        isWordStart d.toNat = false := by decide +kernel
    exact ne_of_isWordStart h (hall d hd).1 (hall d hd).2
  · refine eq_false_of_ne_true fun hdigit => ?_
    have hall := Bytes.forall_byte (fun c => !Bytes.isDigitByte c ||
      (decide (c < 0x80) && !isWordStart c.toNat)) (by decide) c
    simp only [hdigit, Bool.not_true, Bool.false_or, Bool.and_eq_true, decide_eq_true_eq,
      Bool.not_eq_true'] at hall
    exact ne_of_isWordStart h hall.1 hall.2 rfl

theorem lexeme_bare (h : Bare fresh c s) : lexeme fresh c s =
    if c = '@'.toUInt8 then
      match wordSize s with
      | 0 => (.mark, 0)
      | k + 1 => (.word, k + 1)
    else if isWordStart (decode (c :: s)).1 then (.word, wordSize (c :: s) - 1)
    else if c = '='.toUInt8 ∧ s.head? = some '>'.toUInt8 then (.mark, 1)
    else (.mark, (decode (c :: s)).2 - 1) := by
  rw [lexeme, if_neg h.sharp, if_neg h.line, if_neg h.comment, h.string]
  simp only
  rw [if_neg h.character]
  exact if_neg h.number

/-- A token is read by the first rule that applies. -/
theorem lexed_of_lexeme (h : lexeme fresh c s = (kind, k)) : Lexed fresh c s k kind := by
  by_cases hsharp : c = '#'.toUInt8 ∧ fresh = true
  · rw [lexeme, if_pos hsharp] at h
    cases h
    exact .directive hsharp.1 hsharp.2 rfl
  by_cases hline : c = '/'.toUInt8 ∧ s.head? = some '/'.toUInt8
  · rw [lexeme, if_neg hsharp, if_pos hline] at h
    cases h
    exact .line hline.1 hline.2 rfl
  by_cases hcomment : c = '/'.toUInt8 ∧ s.head? = some '*'.toUInt8
  · rw [lexeme, if_neg hsharp, if_neg hline, if_pos hcomment] at h
    cases h
    exact .comment hcomment.1 hcomment.2 rfl
  cases hstring : stringSize? c s with
  | some j =>
    rw [lexeme, if_neg hsharp, if_neg hline, if_neg hcomment, hstring] at h
    cases h
    exact .string hstring
  | none =>
    by_cases hcharacter : c = '\''.toUInt8
    · rw [lexeme, if_neg hsharp, if_neg hline, if_neg hcomment, hstring] at h
      simp only [if_pos hcharacter] at h
      cases h
      exact .character hcharacter rfl
    by_cases hnumber : Bytes.isDigitByte c = true
    · rw [lexeme, if_neg hsharp, if_neg hline, if_neg hcomment, hstring] at h
      simp only [if_neg hcharacter, if_pos hnumber] at h
      cases h
      exact .number hnumber rfl
    have hbare : Bare fresh c s := ⟨hsharp, hline, hcomment, hstring, hcharacter, hnumber⟩
    rw [lexeme_bare hbare] at h
    have hpos := Utf8.decode_size_pos (c :: s)
    split at h
    · rename_i hat
      split at h <;> rename_i hword <;> cases h
      · exact .sign hat hstring rfl hword
      · exact .verbatim hat hstring (Nat.succ_ne_zero _) hword
    · rename_i hat
      split at h
      · rename_i hstart
        have hword := wordSize_cons c s
        rw [if_pos (isWordPart_of_isWordStart hstart)] at hword
        cases h
        exact .word hstart (by omega)
      · rename_i hstart
        split at h <;> rename_i harrow <;> cases h
        · exact .arrow harrow.1 harrow.2 rfl
        · exact .rune hbare hat hstart harrow (by omega)

theorem Lexed.lexeme_eq (h : Lexed fresh c s k kind) : lexeme fresh c s = (kind, k) := by
  cases h with
  | directive hc hfresh hk => rw [lexeme, if_pos ⟨hc, hfresh⟩, hk]
  | line hc hs hk =>
    subst hc
    rw [lexeme, if_neg fun h => absurd h.1 (by decide), if_pos ⟨rfl, hs⟩, hk]
  | comment hc hs hk =>
    subst hc
    rw [lexeme, if_neg fun h => absurd h.1 (by decide),
      if_neg fun h => absurd (Option.some.inj (hs.symm.trans h.2)) (by decide), if_pos ⟨rfl, hs⟩, hk]
  | string hk =>
    have hne := ne_of_stringSize? hk
    rw [lexeme, if_neg fun h => hne.2 h.1, if_neg fun h => hne.1 h.1, if_neg fun h => hne.1 h.1, hk]
  | character hc hk =>
    subst hc
    have hstring : stringSize? '\''.toUInt8 s = none := stringSize?_eq_none_iff.2
      ⟨by decide, fun h => absurd h (by decide), fun h => absurd h (by decide)⟩
    rw [lexeme, if_neg fun h => absurd h.1 (by decide), if_neg fun h => absurd h.1 (by decide),
      if_neg fun h => absurd h.1 (by decide), hstring]
    simp only [if_true, hk]
  | number hc hk =>
    have hne : ∀ d : UInt8, Bytes.isDigitByte d = false → c ≠ d := by
      rintro d hd rfl
      exact absurd (hc.symm.trans hd) (by decide)
    have hstring : stringSize? c s = none := stringSize?_eq_none_iff.2
      ⟨hne _ (by decide), fun h => absurd h (hne _ (by decide)), fun h => absurd h (hne _ (by decide))⟩
    rw [lexeme, if_neg fun h => hne _ (by decide) h.1, if_neg fun h => hne _ (by decide) h.1,
      if_neg fun h => hne _ (by decide) h.1, hstring]
    simp only
    rw [if_neg (hne _ (by decide)), if_pos hc, hk]
  | verbatim hc hs hpos hk =>
    subst hc
    have hbare : Bare fresh '@'.toUInt8 s := ⟨fun h => absurd h.1 (by decide), fun h => absurd h.1 (by decide),
      fun h => absurd h.1 (by decide), hs, by decide, by decide⟩
    obtain ⟨j, rfl⟩ := Nat.exists_eq_succ_of_ne_zero hpos
    rw [lexeme_bare hbare, if_pos rfl, hk]
  | sign hc hs hzero hk =>
    subst hc hzero
    have hbare : Bare fresh '@'.toUInt8 s := ⟨fun h => absurd h.1 (by decide), fun h => absurd h.1 (by decide),
      fun h => absurd h.1 (by decide), hs, by decide, by decide⟩
    rw [lexeme_bare hbare, if_pos rfl, hk]
  | word hstart hk =>
    rw [lexeme_bare (Bare.of_isWordStart hstart), if_neg (ne_of_isWordStart hstart (by decide) (by decide)),
      if_pos hstart, hk, Nat.add_sub_cancel]
  | arrow hc hs hk =>
    subst hc
    have hbare : Bare fresh '='.toUInt8 s := bare_of_ne (by decide +kernel) (by decide)
    rw [lexeme_bare hbare, if_neg (by decide), decode_of_lt s (by decide), if_neg (by decide), if_pos ⟨rfl, hs⟩,
      hk]
  | rune hbare hc hstart harrow hk =>
    rw [lexeme_bare hbare, if_neg hc, if_neg hstart, if_neg harrow, hk, Nat.add_sub_cancel]

theorem lexeme_iff : lexeme fresh c s = (kind, k) ↔ Lexed fresh c s k kind :=
  ⟨lexed_of_lexeme, Lexed.lexeme_eq⟩

/-- Whether only blanks precede a token on its line matters for a number sign alone. -/
theorem lexeme_fresh {fresh' : Bool} (h : c = '#'.toUInt8 → fresh' = fresh) :
    lexeme fresh' c s = lexeme fresh c s := by
  by_cases hc : c = '#'.toUInt8
  · rw [h hc]
  · have hnot : ∀ f : Bool, ¬ (c = '#'.toUInt8 ∧ f = true) := fun _ hh => hc hh.1
    rw [lexeme, lexeme, if_neg (hnot fresh), if_neg (hnot fresh')]

theorem lexeme_string (h : stringSize? c s = some k) : lexeme fresh c s = (.string, k) :=
  (Lexed.string h).lexeme_eq

theorem lexeme_character (fresh : Bool) (s : Bytes) :
    lexeme fresh '\''.toUInt8 s = (.character, quotedSize '\''.toUInt8 s) :=
  (Lexed.character rfl rfl).lexeme_eq

theorem lexeme_comment (fresh : Bool) (s : Bytes) :
    lexeme fresh '/'.toUInt8 ('*'.toUInt8 :: s) = (.comment, commentSize s + 1) :=
  (Lexed.comment rfl rfl rfl).lexeme_eq

end Lexed

/-! ## Tokens in another context -/

def isLine (kind : TokenKind) (text : Bytes) : Bool :=
  kind == .directive || (kind == .comment && text.take 2 == ("//" : Bytes))

/-- **A token in another context.** A token that is closed stays what it is in front of a tame
continuation that does not join it; a token that goes on to the end of its line, when the continuation
begins with a line feed. -/
theorem lexeme_of_tame {fresh : Bool} {c : UInt8} {b r r' : Bytes} {kind : TokenKind}
    (h : Tame r r') (hends : textEnds (c :: b) = true)
    (hjoin : ∀ x, r'.head? = some x → joins kind (c :: b) x = true → r.head? = some x)
    (hline : isLine kind (c :: b) = true →
      ∀ x, r'.head? = some x → x = Bytes.newline ∨ r.head? = some x)
    (hb : lexeme fresh c (b ++ r) = (kind, b.length)) :
    lexeme fresh c (b ++ r') = (kind, b.length) := by
  have hall : Tame (b ++ r) (b ++ r') := h.append b
  unfold textEnds at hends
  rw [Bool.and_eq_true] at hends
  rw [lexeme_iff] at hb ⊢
  cases hb with
  | directive hc hfresh hk => exact .directive hc hfresh (lineSize_of_newline hk (hline rfl))
  | line hc hs hk =>
    have hne : b ≠ [] := by
      rintro rfl
      exact absurd (((length_takeWhile_append [] r).1 hk).2 _ hs) (by decide)
    obtain ⟨b', rfl⟩ := exists_cons_of_head hs hne
    subst hc
    exact .line rfl rfl (lineSize_of_newline hk (hline rfl))
  | comment hc hs hk =>
    obtain ⟨b', rfl⟩ := exists_cons_of_head hs (by rintro rfl; cases hk)
    subst hc
    have hclosed : commentEnds b' = true := hends.2
    rw [List.cons_append, List.tail_cons, commentSize_append _ _ hclosed] at hk
    exact .comment rfl rfl (by rw [List.cons_append, List.tail_cons, commentSize_append _ _ hclosed, hk])
  | string hk => exact .string (stringSize?_of_tame h hends.1 hk)
  | character hc hk =>
    subst hc
    have hclosed : quotedEnds '\''.toUInt8 b = true := hends.1
    rw [quotedSize_append _ _ hclosed] at hk
    exact .character rfl (by rw [quotedSize_append _ _ hclosed, hk])
  | number hc hk => exact .number hc (numberSize_of_tame h hk fun hx => hjoin _ hx rfl)
  | verbatim hc hs hpos hk => exact .verbatim hc (stringSize?_of_tame_none hall hs) hpos (wordSize_of_tame h b hk)
  | sign hc hs hzero hk => exact .sign hc (stringSize?_of_tame_none hall hs) hzero (wordSize_of_tame h b hk)
  | word hstart hk =>
    have hword := wordSize_cons c (b ++ r)
    rw [if_pos (isWordPart_of_isWordStart hstart)] at hword
    have hdecode : decode (c :: (b ++ r')) = decode (c :: (b ++ r)) :=
      decode_of_tame h (List.cons_ne_nil c b) (by rw [List.cons_append, List.length_cons]; omega)
    exact .word (hdecode ▸ hstart) (wordSize_of_tame h (c :: b) hk)
  | arrow hc hs hk =>
    obtain ⟨b', rfl⟩ := exists_cons_of_head hs (by rintro rfl; cases hk)
    exact .arrow hc rfl hk
  | rune hbare hc hstart harrow hk =>
    have hdecode : decode (c :: (b ++ r')) = decode (c :: (b ++ r)) :=
      decode_of_tame h (List.cons_ne_nil c b) (Nat.le_of_eq hk)
    refine .rune ⟨hbare.sharp, fun hh => hbare.line ⟨hh.1, hall.head? (by decide) hh.2⟩,
      fun hh => hbare.comment ⟨hh.1, hall.head? (by decide) hh.2⟩, stringSize?_of_tame_none hall hbare.string,
      hbare.character, hbare.number⟩ hc (hdecode ▸ hstart) ?_ (hdecode ▸ hk)
    -- a sign of equality stands alone in front of both
    rintro ⟨rfl, hgt⟩
    rw [decode_of_lt _ (by decide)] at hk
    obtain rfl := List.eq_nil_of_length_eq_zero (Nat.succ.inj hk).symm
    exact harrow ⟨rfl, hjoin _ hgt (by decide)⟩

end Flowsmith.Source
