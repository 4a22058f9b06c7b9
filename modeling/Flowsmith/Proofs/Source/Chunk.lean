import Flowsmith.Proofs.Source.Place
import Flowsmith.Proofs.Source.Turns

/-!
# Text in chunks

Text that is written is put together from words, marks, blanks, blocks and values, and each chunk has
its tokens at the offset where it comes to stand. Other than in `Reads`, the offsets are kept: what the
scanner cuts out between two tokens is the text of the chunks from one to the other.

* `render`, `place` : the text of chunks, and their tokens from an offset on;
* `Each P ps r` : `P` holds of every chunk with what follows it, and `r` follows the last one;
* `solid_render` : chunks that stand where they may have the tokens `place` says;
* `At src pos s` : the text `s` stands at an offset of a source, and `Spans` : tokens from end to end
  of it; `raw_of_spans` : what is cut out then;
* `collapse_render` : a text with single spaces only is left alone when blanks are collapsed.
-/

namespace Flowsmith.Source

open Utf8 (isTail decode decode?)

/-- A chunk of written text. -/
inductive Chunk where
  | word (w : Bytes)
  | mark (m : Bytes)
  | gap (g : Bytes)
  /-- A text between braces. -/
  | block (s : Bytes)
  /-- A text after an equals sign. -/
  | value (s : Bytes)

namespace Chunk

def text : Chunk → Bytes
  | word w => w
  | mark m => m
  | gap g => g
  | block s => Bytes.leftBrace ++ (s ++ Bytes.rightBrace)
  | value s => ("= " : Bytes) ++ s

def tokens (pos : Nat) : Chunk → List Token
  | word w => [⟨.word, w, pos⟩]
  | mark m => [⟨.mark, m, pos⟩]
  | gap _ => []
  | block s => ⟨.mark, Bytes.leftBrace, pos⟩ :: solid (tokensFrom (pos + 1) false s)
      ++ [⟨.mark, Bytes.rightBrace, pos + 1 + s.length⟩]
  | value s => ⟨.mark, "=", pos⟩ :: solid (tokensFrom (pos + 2) false s)

/-- A chunk that is read as its tokens in front of `r`. -/
def Stands (r : Bytes) : Chunk → Prop
  | word w => IsWord w ∧ Stops r
  | mark m => ∃ c, m = [c] ∧ isPlainMark c = true ∧ c ≠ '#'.toUInt8
  | gap g => ∀ c ∈ g, isBlankByte c = true
  | block s => Settled s
  | value s => Settled s ∧ ∃ x r', r = x :: r' ∧ x ∈ closingMarks

end Chunk

def render (ps : List Chunk) : Bytes := ps.flatMap Chunk.text

def place (pos : Nat) : List Chunk → List Token
  | [] => []
  | p :: ps => p.tokens pos ++ place (pos + p.text.length) ps

/-- Every chunk with what follows it; `r` follows the last one. -/
def Each (P : Bytes → Chunk → Prop) : List Chunk → Bytes → Prop
  | [], _ => True
  | p :: ps, r => P (render ps ++ r) p ∧ Each P ps r

@[simp] theorem render_nil : render [] = [] := rfl

@[simp] theorem render_cons (p : Chunk) (ps : List Chunk) : render (p :: ps) = p.text ++ render ps := rfl

@[simp] theorem render_append (ps qs : List Chunk) : render (ps ++ qs) = render ps ++ render qs :=
  List.flatMap_append

@[simp] theorem place_nil (pos : Nat) : place pos [] = [] := rfl

@[simp] theorem place_cons (pos : Nat) (p : Chunk) (ps : List Chunk) :
    place pos (p :: ps) = p.tokens pos ++ place (pos + p.text.length) ps := rfl

@[simp] theorem place_append (pos : Nat) (ps qs : List Chunk) :
    place pos (ps ++ qs) = place pos ps ++ place (pos + (render ps).length) qs := by
  induction ps generalizing pos with
  | nil => rfl
  | cons p ps ih =>
    rw [List.cons_append, place_cons, ih, place_cons, render_cons, List.length_append, List.append_assoc,
      Nat.add_assoc]

theorem each_append {P : Bytes → Chunk → Prop} (ps qs : List Chunk) (r : Bytes) :
    Each P (ps ++ qs) r ↔ Each P ps (render qs ++ r) ∧ Each P qs r := by
  induction ps with
  | nil => simp [Each]
  | cons p ps ih => simp only [List.cons_append, Each, ih, render_append, List.append_assoc, and_assoc]

/-! ## The tokens of chunks -/

theorem tokensFrom_blanks {g : Bytes} (hg : ∀ c ∈ g, isBlankByte c = true) (r : Bytes) (pos : Nat)
    (fresh : Bool) :
    ∃ fresh', tokensFrom pos fresh (g ++ r) = tokensFrom (pos + g.length) fresh' r := by
  induction g generalizing pos fresh with
  | nil => exact ⟨fresh, rfl⟩
  | cons c g ih =>
    rcases tokensFrom_cases pos fresh c (g ++ r) with ⟨-, heq⟩ | ⟨hc, -⟩
    · obtain ⟨fresh', hrest⟩ := ih (fun x hx => hg x (List.mem_cons_of_mem _ hx)) (pos + 1)
        (fresh || c == Bytes.newline)
      refine ⟨fresh', ?_⟩
      rw [List.cons_append, heq, hrest, List.length_cons]
      congr 1
      omega
    · rw [hg c List.mem_cons_self] at hc
      cases hc

theorem tokensFrom_mark {c : UInt8} (r : Bytes) (h : isPlainMark c = true) (hc : c ≠ '#'.toUInt8)
    (pos : Nat) (fresh : Bool) :
    tokensFrom pos fresh ([c] ++ r) = ⟨.mark, [c], pos⟩ :: tokensFrom (pos + 1) false r := by
  refine tokensFrom_token (b := []) pos fresh ?_ (lexeme_plainMark _ h fun h => absurd h hc)
  simp only [isPlainMark, Bool.and_eq_true, Bool.not_eq_true'] at h
  exact h.1.1.2

theorem Settled.tokensFrom {s : Bytes} (h : Settled s) {x : UInt8} (hx : x ∈ closingMarks) (r : Bytes)
    (pos : Nat) :
    ∃ fresh', Source.tokensFrom pos false (s ++ x :: r)
      = Source.tokensFrom pos false s ++ Source.tokensFrom (pos + s.length) fresh' (x :: r) := by
  refine tokensFrom_settled r hx s pos false fun t ht hstop => ?_
  have hshift := tokensFrom_shift s 0 pos false
  rw [Nat.zero_add] at hshift
  rw [hshift] at ht
  obtain ⟨t₀, ht₀, rfl⟩ := List.mem_map.1 ht
  refine h t₀ ht₀ ?_
  simp only [Token.stop, Token.shift] at hstop ⊢
  omega

theorem solid_mark {m : Bytes} {pos : Nat} (ts : List Token) :
    solid (⟨.mark, m, pos⟩ :: ts) = ⟨.mark, m, pos⟩ :: solid ts := rfl

theorem Chunk.Stands.tokens {p : Chunk} {r : Bytes} (h : p.Stands r) (pos : Nat) (fresh : Bool) :
    ∃ fresh', solid (tokensFrom pos fresh (p.text ++ r))
      = p.tokens pos ++ solid (tokensFrom (pos + p.text.length) fresh' r) := by
  cases p with
  | word w => exact ⟨false, by rw [Chunk.text, tokensFrom_word h.1 pos fresh h.2]; rfl⟩
  | mark m =>
    obtain ⟨c, rfl, hc, hsharp⟩ := h
    exact ⟨false, by rw [Chunk.text, tokensFrom_mark r hc hsharp]; rfl⟩
  | gap g =>
    obtain ⟨fresh', heq⟩ := tokensFrom_blanks h r pos fresh
    exact ⟨fresh', by rw [Chunk.text, heq]; rfl⟩
  | block s =>
    obtain ⟨fresh', heq⟩ := Settled.tokensFrom h (x := '\x7d'.toUInt8) (by decide) r (pos + 1)
    have hleft : tokensFrom pos fresh (Bytes.leftBrace ++ (s ++ '\x7d'.toUInt8 :: r))
        = ⟨.mark, Bytes.leftBrace, pos⟩ :: tokensFrom (pos + 1) false (s ++ '\x7d'.toUInt8 :: r) :=
      tokensFrom_mark _ (by decide) (by decide) pos fresh
    have hright : tokensFrom (pos + 1 + s.length) fresh' ('\x7d'.toUInt8 :: r)
        = ⟨.mark, Bytes.rightBrace, pos + 1 + s.length⟩ :: tokensFrom (pos + 1 + s.length + 1) false r :=
      tokensFrom_mark r (by decide) (by decide) _ fresh'
    refine ⟨false, ?_⟩
    have htext : Chunk.text (.block s) ++ r = Bytes.leftBrace ++ (s ++ '\x7d'.toUInt8 :: r) := by
      rw [Chunk.text, List.append_assoc, List.append_assoc]
      rfl
    have hlen : (Chunk.text (.block s)).length = 1 + s.length + 1 := by
      rw [Chunk.text, List.length_append, List.length_append]
      rfl
    rw [htext, hleft, heq, hright, solid_mark, solid_append, solid_mark, hlen, Chunk.tokens]
    simp [Nat.add_assoc]
  | value s =>
    obtain ⟨hs, x, r', rfl, hx⟩ := h
    obtain ⟨fresh', heq⟩ := hs.tokensFrom hx r' (pos + 2)
    have hlex : lexeme fresh '='.toUInt8 ([] ++ (0x20 :: (s ++ x :: r'))) = (.mark, ([] : Bytes).length) := by
      rw [lexeme_equals, if_neg (by simp; decide)]
      rfl
    refine ⟨fresh', ?_⟩
    have htext : Chunk.text (.value s) ++ x :: r' = '='.toUInt8 :: ([] ++ 0x20 :: (s ++ x :: r')) := by
      rw [Chunk.text, List.append_assoc]
      rfl
    have hlen : (Chunk.text (.value s)).length = 2 + s.length := by
      rw [Chunk.text, List.length_append]
      rfl
    have hstart : tokensFrom (pos + ['='.toUInt8].length) false (0x20 :: (s ++ x :: r'))
        = tokensFrom (pos + 2) false (s ++ x :: r') := tokensFrom_gap _ _ _ (by decide)
    rw [htext, tokensFrom_token pos fresh (by decide) hlex, hstart, heq, hlen, Chunk.tokens, solid_mark,
      solid_append]
    simp [Nat.add_assoc]
    rfl

/-- **Chunks are read as their tokens.** -/
theorem solid_render {ps : List Chunk} {r : Bytes} (h : Each (fun r p => p.Stands r) ps r) (pos : Nat)
    (fresh : Bool) :
    ∃ fresh', solid (tokensFrom pos fresh (render ps ++ r))
      = place pos ps ++ solid (tokensFrom (pos + (render ps).length) fresh' r) := by
  induction ps generalizing pos fresh with
  | nil => exact ⟨fresh, rfl⟩
  | cons p ps ih =>
    obtain ⟨f₁, h₁⟩ := h.1.tokens pos fresh
    obtain ⟨f₂, h₂⟩ := ih h.2 (pos + p.text.length) f₁
    refine ⟨f₂, ?_⟩
    rw [render_cons, List.append_assoc, h₁, h₂, place_cons, List.append_assoc, List.length_append,
      Nat.add_assoc]

/-! ## What is cut out of a source -/

/-- The text `s` stands at the offset `pos`. -/
def At (src : Bytes) (pos : Nat) (s : Bytes) : Prop := s <+: src.drop pos

theorem At.left {src a b : Bytes} {pos : Nat} (h : At src pos (a ++ b)) : At src pos a :=
  (List.prefix_append a b).trans h

theorem At.right {src a b : Bytes} {pos : Nat} (h : At src pos (a ++ b)) : At src (pos + a.length) b := by
  obtain ⟨r, hr⟩ := h
  refine ⟨r, ?_⟩
  rw [← List.drop_drop, ← hr, List.append_assoc, List.drop_left]

theorem At.slice {src s : Bytes} {pos : Nat} (h : At src pos s) :
    src.slice pos (pos + s.length) = s := by
  obtain ⟨r, hr⟩ := h
  rw [Bytes.slice, Nat.add_sub_cancel_left, ← hr, List.take_left]

/-- Tokens from the first to the last byte of a text of `n` bytes at `pos`. -/
def Spans (pos n : Nat) (ts : List Token) : Prop :=
  ∃ a b, ts.head? = some a ∧ a.start = pos ∧ ts.getLast? = some b ∧ b.stop = pos + n

theorem spans_iff {pos n : Nat} {ts : List Token} : Spans pos n ts ↔
    ts.head?.map (·.start) = some pos ∧ ts.getLast?.map (·.stop) = some (pos + n) := by
  simp only [Spans, Option.map_eq_some_iff]
  constructor
  · rintro ⟨a, b, ha, hstart, hb, hstop⟩
    exact ⟨⟨a, ha, hstart⟩, b, hb, hstop⟩
  · rintro ⟨⟨a, ha, hstart⟩, b, hb, hstop⟩
    exact ⟨a, b, ha, hstart, hb, hstop⟩

instance (pos n : Nat) (ts : List Token) : Decidable (Spans pos n ts) := decidable_of_iff _ spans_iff.symm

theorem raw_of_spans {src s : Bytes} {pos : Nat} {ts : List Token} (hs : At src pos s)
    (h : Spans pos s.length ts) : raw src.slice ts = s := by
  obtain ⟨a, b, ha, rfl, hb, hstop⟩ := h
  unfold raw
  rw [ha, hb]
  simp only
  rw [hstop, hs.slice]

def Closes (ps : List Chunk) : Prop :=
  ∃ qs p, ps = qs ++ [p] ∧ ∀ pos, ∃ b, (p.tokens pos).getLast? = some b ∧ b.stop = pos + p.text.length

theorem Closes.append {qs : List Chunk} (ps : List Chunk) (h : Closes qs) : Closes (ps ++ qs) := by
  obtain ⟨qs, p, rfl, hp⟩ := h
  exact ⟨ps ++ qs, p, (List.append_assoc _ _ _).symm, hp⟩

theorem closes_word (w : Bytes) : Closes [.word w] := ⟨[], _, rfl, fun _ => ⟨_, rfl, rfl⟩⟩

theorem closes_mark (m : Bytes) : Closes [.mark m] := ⟨[], _, rfl, fun _ => ⟨_, rfl, rfl⟩⟩

theorem closes_block (s : Bytes) : Closes [.block s] := by
  refine ⟨[], _, rfl, fun pos => ⟨⟨.mark, Bytes.rightBrace, pos + 1 + s.length⟩, List.getLast?_concat, ?_⟩⟩
  rw [Chunk.text, List.length_append, List.length_append, ← Nat.add_assoc, ← Nat.add_assoc]
  rfl

theorem spans_place {w : Bytes} {ps : List Chunk} (h : Closes (.word w :: ps)) (pos : Nat) :
    Spans pos (render (.word w :: ps)).length (place pos (.word w :: ps)) := by
  obtain ⟨qs, p, heq, hp⟩ := h
  obtain ⟨b, hb, hstop⟩ := hp (pos + (render qs).length)
  refine ⟨⟨.word, w, pos⟩, b, rfl, rfl, ?_, ?_⟩
  · rw [heq, place_append, place_cons, place_nil, List.append_nil, List.getLast?_append, hb]
    rfl
  · rw [hstop, heq]
    simp [Nat.add_assoc]

/-! ## Blanks of written text -/

/-- The bytes after the first one of a code point continue it. -/
theorem isTail_of_decode? {s : Bytes} {p : Nat × Nat} (h : decode? s = some p) :
    ∀ x ∈ (s.take p.2).tail, isTail x = true := by
  rcases s with _ | ⟨a, s⟩
  · cases h
  by_cases ha : a < 0x80
  · simp only [decode?, if_pos ha, Option.some.injEq] at h
    subst h
    simp
  rcases s with _ | ⟨b, s⟩
  · simp [decode?, ha] at h
  cases htwo : Utf8.two? a b with
  | some n =>
    simp only [decode?, if_neg ha, htwo, Option.some.injEq] at h
    subst h
    unfold Utf8.two? at htwo
    split at htwo
    · rename_i hif
      simp only [Bool.and_eq_true] at hif
      simpa using hif.2
    · cases htwo
  | none =>
    rcases s with _ | ⟨c, s⟩
    · simp [decode?, ha, htwo] at h
    cases hthree : Utf8.three? a b c with
    | some n =>
      simp only [decode?, if_neg ha, htwo, hthree, Option.some.injEq] at h
      subst h
      unfold Utf8.three? at hthree
      split at hthree
      · rename_i hif
        simp only [Bool.and_eq_true] at hif
        simpa using ⟨hif.1.1.1.2, hif.1.1.2⟩
      · cases hthree
    | none =>
      rcases s with _ | ⟨d, s⟩
      · simp [decode?, ha, htwo, hthree] at h
      simp only [decode?, if_neg ha, htwo, hthree, Option.map_eq_some_iff] at h
      obtain ⟨n, hfour, rfl⟩ := h
      unfold Utf8.four? at hfour
      split at hfour
      · rename_i hif
        simp only [Bool.and_eq_true] at hif
        simpa using ⟨hif.1.1.1.1.2, hif.1.1.1.2, hif.1.1.2⟩
      · cases hfour

theorem not_blank_of_wordSize {s : Bytes} (h : wordSize s = s.length) {a b e : Bytes} (hs : s = a ++ b)
    (he : e ∈ Text.blankEncodings) : ¬ e <+: b := by
  intro hpre
  have hne : e ≠ [] := by
    rintro rfl
    cases isBlankForm_of_mem he
  obtain ⟨x, e', rfl⟩ := List.exists_cons_of_ne_nil hne
  have hx : isTail x = false := by
    have hall : ∀ e ∈ Text.blankEncodings, e.head?.any isTail = false := by decide
    exact hall _ he
  match s, h, hs with
  | [], _, hs =>
    obtain ⟨-, rfl⟩ := List.append_eq_nil_iff.1 hs.symm
    cases List.prefix_nil.1 hpre
  | c :: rest, h, hs =>
    cases a with
    | nil =>
      -- a blank at the beginning is no part of a word
      obtain ⟨u, rfl⟩ := hpre
      have hzero := wordSize_blank (.unit he .nil) (by simp) u
      rw [List.append_nil] at hzero
      rw [hs, List.nil_append, hzero] at h
      cases h
    | cons c' a =>
      obtain ⟨rfl, hrest⟩ : c = c' ∧ rest = a ++ b := List.cons.inj hs
      have hpos := Utf8.decode_size_pos (c :: rest)
      have hsize := decode_size_le c rest
      rw [wordSize_cons] at h
      split at h
      · rename_i hpart
        have hle := wordSize_le (rest.drop ((decode (c :: rest)).2 - 1))
        rw [List.length_drop] at hle
        rw [List.length_cons] at h
        by_cases hinside : a.length + 1 < (decode (c :: rest)).2
        · -- inside of a code point there is no first byte
          have hdec : ∃ p, decode? (c :: rest) = some p ∧ decode (c :: rest) = p := by
            unfold decode at hpart ⊢
            cases hd : decode? (c :: rest) with
            | none =>
              rw [hd] at hpart
              rw [Option.getD_none, isWordPart_replacement] at hpart
              cases hpart
            | some p => exact ⟨p, rfl, rfl⟩
          obtain ⟨p, hp, heq⟩ := hdec
          rw [heq] at hinside
          have htail := isTail_of_decode? hp x (by
            obtain ⟨u, rfl⟩ := hpre
            obtain ⟨k, hk⟩ : ∃ k, p.2 = k + 1 := ⟨p.2 - 1, by omega⟩
            rw [hk, List.take_succ_cons, List.tail_cons, hrest]
            refine List.mem_take_iff_getElem.2 ⟨a.length, by simp; omega, by simp⟩)
          rw [hx] at htail
          cases htail
        · -- the rest is a shorter text of word parts
          refine not_blank_of_wordSize (s := rest.drop ((decode (c :: rest)).2 - 1))
            (a := a.drop ((decode (c :: rest)).2 - 1)) ?_ ?_ he hpre
          · rw [List.length_drop]
            omega
          · have hdrop : ∀ k ≤ a.length, rest.drop k = a.drop k ++ b := by
              intro k hk
              rw [hrest, List.drop_append_of_le_length hk]
            exact hdrop _ (by omega)
      · rw [List.length_cons] at h
        omega
termination_by s.length
decreasing_by
  simp only [List.length_drop, List.length_cons]
  omega

theorem wordSize_of_lexeme {fresh : Bool} {c : UInt8} {s : Bytes} {k : Nat}
    (h : lexeme fresh c s = (.word, k)) :
    c = '@'.toUInt8 ∧ wordSize s = k ∨ wordSize (c :: s) = k + 1 := by
  cases lexed_of_lexeme h with
  | verbatim hc _ _ hk => exact Or.inl ⟨hc, hk⟩
  | word _ hk => exact Or.inr hk

theorem IsWord.not_blank {w a b e : Bytes} (h : IsWord w) (hw : w = a ++ b)
    (he : e ∈ Text.blankEncodings) : ¬ e <+: b := by
  obtain ⟨c, s, rfl, hc, hlex⟩ := h.lexeme
  rw [List.append_nil] at hlex
  rcases wordSize_of_lexeme hlex with ⟨rfl, hsize⟩ | hsize
  · cases a with
    | nil =>
      rw [List.nil_append] at hw
      subst hw
      have hall : ∀ e ∈ Text.blankEncodings, e.head?.any (· == '@'.toUInt8) = false := by decide
      have hhead := hall e he
      intro hpre
      cases e with
      | nil => cases isBlankForm_of_mem he
      | cons x e =>
        obtain rfl := (List.cons_prefix_cons.1 hpre).1
        cases hhead
    | cons c' a =>
      exact not_blank_of_wordSize hsize (List.cons.inj hw).2 he
  · exact not_blank_of_wordSize (s := c :: s) hsize hw he

/-- A chunk that is not changed when the blanks of a text are collapsed; `r` follows it. -/
def Chunk.Neat (r : Bytes) : Chunk → Prop
  | word w => IsWord w ∧ Stops r
  | mark m => ∃ c, m = [c] ∧ isPlainMark c = true
  | gap g => g = [0x20] ∧ r ≠ [] ∧ Text.blankSize r = 0
  | _ => False

theorem blankSize_eq_zero {s : Bytes} (h : ∀ e ∈ Text.blankEncodings, ¬ e <+: s) :
    Text.blankSize s = 0 := by
  cases hsize : Text.blankSize s with
  | zero => rfl
  | succ k =>
    obtain ⟨e, he, hpre, -⟩ := blankSize_eq_succ hsize
    exact absurd hpre (h e he)

theorem blankSize_mark {c : UInt8} (r : Bytes) (h : isPlainMark c = true) :
    Text.blankSize (c :: r) = 0 := by
  refine blankSize_eq_zero fun e he hpre => ?_
  simp only [isPlainMark, Bool.and_eq_true, decide_eq_true_eq, Bool.not_eq_true'] at h
  have hform := isBlankForm_of_mem he
  rcases e with _ | ⟨x, _ | ⟨y, e⟩⟩
  · cases hform
  · obtain rfl := (List.cons_prefix_cons.1 hpre).1
    rw [isBlankForm, h.1.1.2] at hform
    cases hform
  · obtain rfl := (List.cons_prefix_cons.1 hpre).1
    simp only [isBlankForm, Bool.and_eq_true, decide_eq_true_eq] at hform
    exact absurd h.1.1.1 (UInt8.not_lt.2 hform.1.1.1.1)

theorem blankSize_word {w a b r : Bytes} (h : IsWord w) (hw : w = a ++ b) (hb : b ≠ [])
    (hr : Stops r) : Text.blankSize (b ++ r) = 0 := by
  refine blankSize_eq_zero fun e he hpre => h.not_blank hw he ?_
  rcases List.prefix_or_prefix_of_prefix hpre (List.prefix_append b r) with hle | ⟨r₁, rfl⟩
  · exact hle
  -- a blank does not reach into what follows the word
  cases r₁ with
  | nil => simp
  | cons x r₁ =>
    obtain ⟨y, b, rfl⟩ := List.exists_cons_of_ne_nil hb
    have htail : (Text.blankEncodings.all fun e => e.tail.all fun x => decide (0x80 ≤ x)) = true := rfl
    have hx := of_decide_eq_true (List.all_eq_true.1 (List.all_eq_true.1 htail _ he) x (by simp))
    obtain ⟨u, hu⟩ := hpre
    rw [List.append_assoc] at hu
    have hhead := congrArg List.head? (List.append_cancel_left hu)
    exact absurd (lt_of_isStop (hr x hhead.symm)) (UInt8.not_lt.2 hx)

/-- **A text with single spaces is collapsed already**, also after a word that has begun. -/
theorem joinWith_wordsFrom {ps : List Chunk} (h : Each (fun r p => p.Neat r) ps []) {word : Bytes}
    (hword : word ≠ [] ∨ render ps ≠ [] ∧ Text.blankSize (render ps) = 0) :
    Bytes.joinWith [0x20] (Bytes.wordsFrom word (render ps)) = word.reverse ++ render ps := by
  induction ps generalizing word with
  | nil =>
    rcases hword with hword | ⟨hne, -⟩
    · rw [render_nil, wordsFrom_nil, if_neg (by simpa using hword)]
      simp [Bytes.joinWith]
    · exact absurd rfl hne
  | cons p ps ih =>
    obtain ⟨hp, hps⟩ := h
    rw [List.append_nil] at hp
    rw [render_cons] at hword ⊢
    cases p with
    | word w =>
      obtain ⟨hw, hr⟩ := hp
      obtain ⟨c, b, rfl, -⟩ := hw.lexeme
      rw [Chunk.text, wordsFrom_unbroken word fun a b' hab hb' => blankSize_word hw hab hb' hr,
        ih hps (Or.inl (by simp))]
      simp
    | mark m =>
      obtain ⟨c, rfl, hc⟩ := hp
      rw [Chunk.text, List.singleton_append, wordsFrom_byte word (blankSize_mark _ hc),
        ih hps (Or.inl (by simp))]
      simp
    | gap g =>
      obtain ⟨rfl, hne, hblank⟩ := hp
      have hspace : Text.blankSize (0x20 :: render ps) = 0 + 1 := rfl
      rw [Chunk.text, List.singleton_append] at hword ⊢
      rcases hword with hword | ⟨-, hzero⟩
      · have hrest : Bytes.joinWith [0x20] (Bytes.wordsFrom [] (render ps)) = render ps :=
          ih hps (Or.inr ⟨hne, hblank⟩)
        have hsome : Bytes.wordsFrom [] (render ps) ≠ [] := by
          intro hnil
          rw [hnil] at hrest
          exact hne hrest.symm
        obtain ⟨v, ws, hws⟩ := List.exists_cons_of_ne_nil hsome
        rw [wordsFrom_blank word hspace, if_neg (by simpa using hword), List.drop_zero, hws,
          List.singleton_append, Bytes.joinWith, ← hws, hrest, List.append_assoc, List.singleton_append]
      · rw [hzero] at hspace
        cases hspace
    | block s => cases hp
    | value s => cases hp

theorem collapse_render {ps : List Chunk} (h : Each (fun r p => p.Neat r) ps []) (hne : render ps ≠ [])
    (hblank : Text.blankSize (render ps) = 0) : (render ps).collapse = render ps :=
  joinWith_wordsFrom h (Or.inr ⟨hne, hblank⟩)

end Flowsmith.Source
