import Flowsmith.Proofs.Source.Slice

/-!
# How written text reads

Written text is put together from words, marks, literals and blanks, and is read piece by piece. What
a piece reads as is said up to the places of its tokens.

* `Reads f s ts r f'` : in front of `r` the text `s` reads as `ts`; `f` and `f'` say whether only
  blanks precede `s` and `r` on their lines;
* `Lines s ts` : whole lines read as `ts`, whatever follows;
* `IsWord`, `IsDotted` : identifiers, and identifiers with dots between them.
-/

namespace Flowsmith.Source

open Utf8 (decode)
open Bytes (isLetterByte)

/-- In front of `r`, the text `s` reads as `ts`. -/
def Reads (fresh : Bool) (s : Bytes) (ts : List Token) (r : Bytes) (fresh' : Bool) : Prop :=
  ∀ pos, ∃ ts', tokensFrom pos fresh (s ++ r) = ts' ++ tokensFrom (pos + s.length) fresh' r ∧
    Thin ts ts'

/-- Whole lines read as `ts`, whatever follows. -/
def Lines (s : Bytes) (ts : List Token) : Prop := ∀ r, Reads true s ts r true

def Token.ofWord (text : Bytes) : Token := ⟨.word, text, 0⟩

def Token.ofMark (text : Bytes) : Token := ⟨.mark, text, 0⟩

/-! ## Putting pieces together -/

theorem Reads.append {f f' f'' : Bool} {s s' r : Bytes} {ts ts' : List Token}
    (h : Reads f s ts (s' ++ r) f') (h' : Reads f' s' ts' r f'') :
    Reads f (s ++ s') (ts ++ ts') r f'' := by
  intro pos
  obtain ⟨xs, hxs, hthin⟩ := h pos
  obtain ⟨ys, hys, hthin'⟩ := h' (pos + s.length)
  refine ⟨xs ++ ys, ?_, hthin.append hthin'⟩
  rw [List.append_assoc, hxs, hys, List.length_append, List.append_assoc, Nat.add_assoc]

theorem reads_nil (f : Bool) (r : Bytes) : Reads f [] [] r f := fun _ => ⟨[], rfl, .nil⟩

theorem reads_gap {g : Bytes} (hg : IsGapText g) (f : Bool) (r : Bytes) : Reads f g [] r f :=
  fun pos => ⟨[], tokensFrom_gaps hg r pos f, .nil⟩

theorem reads_newline (f : Bool) (r : Bytes) : Reads f [Bytes.newline] [] r true :=
  fun pos => ⟨[], tokensFrom_newline pos f r, .nil⟩

theorem reads_token {f : Bool} {c : UInt8} {b r : Bytes} {kind : TokenKind} (start : Nat)
    (hc : isBlankByte c = false) (h : lexeme f c (b ++ r) = (kind, b.length)) :
    Reads f (c :: b) [⟨kind, c :: b, start⟩] r false :=
  fun pos => ⟨[⟨kind, c :: b, pos⟩], tokensFrom_token pos f hc h, .keep ⟨rfl, fun _ => rfl⟩ .nil⟩

/-- A text that is read up to its line feed is a line. -/
theorem lines_of_reads {s : Bytes} {ts : List Token}
    (h : ∀ r, ∃ f, Reads true s ts (Bytes.newline :: r) f) : Lines (s ++ [Bytes.newline]) ts := by
  intro r
  obtain ⟨f, hs⟩ := h r
  have : Reads true (s ++ [Bytes.newline]) (ts ++ []) r true := hs.append (reads_newline f r)
  rwa [List.append_nil] at this

/-! ## Closed text -/

theorem Alike.trans {a b c : Token} (h : Alike a b) (h' : Alike b c) : Alike a c :=
  ⟨h'.1.trans h.1, fun ha => (h'.2 (h.1.symm ▸ ha)).trans (h.2 ha)⟩

theorem Alike.isJunk {a b : Token} (h : Alike a b) : b.isJunk = a.isJunk := by
  unfold Token.isJunk
  rw [h.1]
  cases hk : a.kind == .mark with
  | false => rfl
  | true => rw [h.2 (Or.inr (eq_of_beq hk))]

theorem Thin.trans {xs ys zs : List Token} (h : Thin xs ys) (h' : Thin ys zs) : Thin xs zs := by
  induction h generalizing zs with
  | nil => exact h'
  | @keep t t' ts ts' ht _ ih =>
    cases h' with
    | keep ht' h' => exact .keep (ht.trans ht') (ih h')
    | drop ht' h' => exact .drop (ht.isJunk ▸ ht') (ih h')
  | drop ht _ ih => exact .drop ht (ih h')

theorem Reads.thin {f f' : Bool} {s r : Bytes} {ts ts' : List Token} (h : Reads f s ts' r f')
    (hthin : Thin ts ts') : Reads f s ts r f' := fun pos => by
  obtain ⟨xs, hxs, hthin'⟩ := h pos
  exact ⟨xs, hxs, hthin.trans hthin'⟩

theorem thin_shift (k : Nat) (ts : List Token) : Thin ts (ts.map (Token.shift k)) := by
  induction ts with
  | nil => exact .nil
  | cons t ts ih => exact .keep ⟨rfl, fun _ => rfl⟩ ih

/-- A text whose tokens are all closed is read as on its own in front of a byte that ends tokens. -/
theorem reads_closed {f : Bool} {s r : Bytes} {x : UInt8} (hx : isStop x = true)
    (hends : ∀ t ∈ tokensFrom 0 f s, textEnds t.text = true)
    (hjoin : ∀ t ∈ tokensFrom 0 f s, joins t.kind t.text x = false)
    (htrivia : endsWithTrivia (tokensFrom 0 f s) = true → x = Bytes.newline) :
    ∃ f', Reads f s (tokensFrom 0 f s) (x :: r) f' := by
  obtain ⟨f', happ⟩ := tokensFrom_append r hx s 0 f hends hjoin htrivia
  refine ⟨f', fun pos => ⟨_, ?_, thin_shift pos _⟩⟩
  have hshift := tokensFrom_shift (s ++ x :: r) 0 pos f
  rw [Nat.zero_add] at hshift
  rw [hshift, happ, List.map_append, Nat.zero_add, Nat.add_comm pos, tokensFrom_shift]

theorem lines_closed {s : Bytes} (hends : ∀ t ∈ tokensFrom 0 true s, textEnds t.text = true) :
    Lines (s ++ [Bytes.newline]) (tokensFrom 0 true s) :=
  lines_of_reads fun _ => reads_closed (by decide) hends
    (fun _ _ => joins_eq_false _ _ (by decide) (by decide)) fun _ => rfl

/-! ## Marks -/

theorem reads_mark {c : UInt8} (f : Bool) (r : Bytes) (h : isPlainMark c = true)
    (hc : c ≠ '#'.toUInt8) : Reads f [c] [.ofMark [c]] r false := by
  refine reads_token 0 ?_ (lexeme_plainMark _ h fun h => absurd h hc)
  simp only [isPlainMark, Bool.and_eq_true, Bool.not_eq_true'] at h
  exact h.1.1.2

theorem lexeme_equals (f : Bool) (s : Bytes) : lexeme f '='.toUInt8 s
    = if s.head? = some '>'.toUInt8 then (.mark, 1) else (.mark, 0) := by
  split
  · exact (Lexed.arrow rfl ‹_› rfl).lexeme_eq
  · rename_i hs
    refine (Lexed.rune (bare_of_ne (by decide +kernel) (by decide)) (by decide) ?_ (fun h => hs h.2)
      ?_).lexeme_eq <;>
      rw [decode_of_lt s (by decide)]
    decide

theorem reads_equals {r : Bytes} (f : Bool) (h : r.head? ≠ some '>'.toUInt8) :
    Reads f ("=" : Bytes) [.ofMark "="] r false := by
  refine reads_token (c := '='.toUInt8) (b := []) 0 (by decide) ?_
  rw [List.nil_append, lexeme_equals, if_neg h]
  rfl

/-! ## Fixed text -/

def Token.spelling (t : Token) : TokenKind × Bytes := (t.kind, t.text)

theorem thin_of_spelling {xs ys : List Token} (h : xs.map Token.spelling = ys.map Token.spelling) :
    Thin xs ys := by
  induction xs generalizing ys with
  | nil =>
    obtain rfl := List.map_eq_nil_iff.1 h.symm
    exact .nil
  | cons x xs ih =>
    obtain ⟨y, ys, rfl, hy, hys⟩ := List.map_eq_cons_iff.1 h.symm
    exact .keep ⟨congrArg Prod.fst hy, fun _ => congrArg Prod.snd hy⟩ (ih hys.symm)

/-- How a byte is read that stands for itself: a blank, or a mark. -/
def unit? (c : UInt8) : Option (List Token) :=
  if isGap c then some []
  else if isPlainMark c && isStop c && c != '#'.toUInt8 then some [.ofMark [c]]
  else none

/-- The spelling of a text that reads the same in front of any other: it ends with a byte that stands
for itself, and all its tokens are closed. -/
def fixed? (f : Bool) (s : Bytes) : Option (List (TokenKind × Bytes)) := do
  let c ← s.getLast?
  let last ← unit? c
  let ts := tokensFrom 0 f s.dropLast
  if ts.all fun t => textEnds t.text && !joins t.kind t.text c && !t.isTrivia then
    return (ts ++ last).map Token.spelling
  else none

theorem reads_unit {c : UInt8} {ts : List Token} (h : unit? c = some ts) (f : Bool) (r : Bytes) :
    isStop c = true ∧ ∃ f', Reads f [c] ts r f' := by
  unfold unit? at h
  split at h
  · rename_i hgap
    cases h
    exact ⟨isStop_of_isBlankByte (isBlankByte_of_isGap hgap), f,
      reads_gap (by simpa [IsGapText] using hgap) f r⟩
  · split at h
    · rename_i hmark
      cases h
      rw [Bool.and_eq_true, Bool.and_eq_true, bne_iff_ne] at hmark
      exact ⟨hmark.1.2, false, reads_mark f r hmark.1.1 hmark.2⟩
    · cases h

theorem reads_fixed {s : Bytes} {ts : List Token} {f : Bool}
    (h : fixed? f s = some (ts.map Token.spelling)) (r : Bytes) : ∃ f', Reads f s ts r f' := by
  unfold fixed? at h
  obtain ⟨c, hc, h⟩ := Option.bind_eq_some_iff.1 h
  obtain ⟨last, hlast, h⟩ := Option.bind_eq_some_iff.1 h
  obtain ⟨a, rfl⟩ := List.getLast?_eq_some_iff.1 hc
  rw [List.dropLast_concat] at h
  dsimp only at h
  split at h
  case isFalse => cases h
  rename_i hguard
  rw [List.all_eq_true] at hguard
  have hall : ∀ t ∈ tokensFrom 0 f a, textEnds t.text = true ∧ joins t.kind t.text c = false ∧
      t.isTrivia = false := fun t ht => by simpa [and_assoc] using hguard t ht
  obtain ⟨f', hread⟩ := reads_closed (r := r) (reads_unit hlast f r).1 (fun t ht => (hall t ht).1)
    (fun t ht => (hall t ht).2.1) fun htrivia => by
      obtain ⟨t, ht, htt⟩ := (Option.any_eq_true _ _).1 htrivia
      rw [(hall t (List.mem_of_getLast? ht)).2.2] at htt
      cases htt
  obtain ⟨-, f'', hunit⟩ := reads_unit hlast f' r
  exact ⟨f'', (hread.append hunit).thin (thin_of_spelling (Option.some.inj h).symm)⟩

/-! ## Words -/

/-- An identifier: a text that reads as one word. -/
def IsWord (w : Bytes) : Prop := tokens w = [.ofWord w]

instance (w : Bytes) : Decidable (IsWord w) := inferInstanceAs (Decidable (_ = _))

theorem isWordStart_of_isLetterByte {x : UInt8} (h : isLetterByte x = true) :
    isWordStart x.toNat = true := by
  have hx := Bytes.forall_byte (fun c => !isLetterByte c || isWordStart c.toNat) rfl x
  simpa [h] using hx

theorem isWordPart_of_isLetterByte {x : UInt8} (h : isLetterByte x = true) :
    isWordPart x.toNat = true := isWordPart_of_isWordStart (isWordStart_of_isLetterByte h)

theorem lt_of_isLetterByte {x : UInt8} (h : isLetterByte x = true) : x < 0x80 := by
  have hx := Bytes.forall_byte (fun c => !isLetterByte c || decide (c < 0x80)) rfl x
  simpa [h] using hx

theorem isBlankByte_of_isLetterByte {x : UInt8} (h : isLetterByte x = true) :
    isBlankByte x = false := by
  have hx := Bytes.forall_byte (fun c => !isLetterByte c || !isBlankByte c) rfl x
  simpa [h] using hx

theorem lexeme_letter {c : UInt8} (hc : isLetterByte c = true) (fresh : Bool) (s : Bytes) :
    lexeme fresh c s = (.word, wordSize (c :: s) - 1) := by
  have hstart : isWordStart (Utf8.decode (c :: s)).1 = true := by
    rw [decode_of_lt s (lt_of_isLetterByte hc)]
    exact isWordStart_of_isLetterByte hc
  have hword := wordSize_cons c s
  rw [if_pos (isWordPart_of_isWordStart hstart)] at hword
  have hpos := Utf8.decode_size_pos (c :: s)
  exact (Lexed.word hstart (by omega)).lexeme_eq

theorem wordSize_letter_cons {c : UInt8} (hc : isLetterByte c = true) (s : Bytes) :
    wordSize (c :: s) = 1 + wordSize s := by
  rw [wordSize_cons, decode_of_lt s (lt_of_isLetterByte hc), if_pos (isWordPart_of_isLetterByte hc)]
  rfl

theorem wordSize_letters {w : Bytes} (hw : ∀ c ∈ w, isLetterByte c = true) (s : Bytes) :
    wordSize (w ++ s) = w.length + wordSize s := by
  induction w with
  | nil => rw [List.nil_append, List.length_nil, Nat.zero_add]
  | cons c w ih =>
    rw [List.cons_append, wordSize_letter_cons (hw c List.mem_cons_self),
      ih fun x hx => hw x (List.mem_cons_of_mem _ hx), List.length_cons]
    omega

def isLetters (w : Bytes) : Bool := !w.isEmpty && w.all isLetterByte

theorem isWord_of_letters {w : Bytes} (h : isLetters w = true) : IsWord w := by
  simp only [isLetters, Bool.and_eq_true, Bool.not_eq_true', List.isEmpty_eq_false_iff, List.all_eq_true] at h
  obtain ⟨hne, hletters⟩ := h
  obtain ⟨c, s, rfl⟩ := List.exists_cons_of_ne_nil hne
  have hc := hletters c List.mem_cons_self
  have hsize := wordSize_letters hletters []
  rw [List.append_nil, wordSize_nil] at hsize
  have hlex : lexeme true c (s ++ []) = (.word, s.length) := by
    rw [List.append_nil, lexeme_letter hc, hsize]
    rfl
  have htokens := tokensFrom_token 0 true (isBlankByte_of_isLetterByte hc) hlex
  rw [tokensFrom_nil, List.append_nil] at htokens
  exact htokens

theorem isWord_of_all {ws : List Bytes} (h : ws.all isLetters = true) : ∀ w ∈ ws, IsWord w :=
  fun w hw => isWord_of_letters (List.all_eq_true.1 h w hw)

/-- What may follow a word: nothing, or a byte that ends tokens. -/
def Stops (r : Bytes) : Prop := ∀ x, r.head? = some x → isStop x = true

theorem stops_cons {x : UInt8} (r : Bytes) (h : isStop x = true) : Stops (x :: r) := fun y hy => by
  rw [List.head?_cons, Option.some_inj] at hy
  exact hy ▸ h

theorem Stops.tame {r : Bytes} (h : Stops r) : Tame [] r := by
  cases r with
  | nil => exact .done []
  | cons x r => exact .stop [] r (h x rfl)

theorem IsWord.lexeme {w : Bytes} (h : IsWord w) :
    ∃ c b, w = c :: b ∧ isBlankByte c = false ∧ lexeme true c (b ++ []) = (.word, b.length) := by
  unfold IsWord tokens at h
  cases w with
  | nil => rw [tokensFrom_nil] at h; cases h
  | cons c s =>
    rcases tokensFrom_cases 0 true c s with ⟨hb, heq⟩ | ⟨hb, kind, b, r, rfl, hlex, heq⟩
    · rw [heq] at h
      have hstart := (le_start_of_mem (t := .ofWord (c :: s)) (by rw [h]; exact List.mem_cons_self)).1
      exact absurd hstart (by simp [Token.ofWord])
    · rw [heq] at h
      obtain ⟨htok, -⟩ := List.cons.inj h
      have hkind : kind = .word := congrArg Token.kind htok
      have hr : c :: b = c :: (b ++ r) := congrArg Token.text htok
      have hnil : r = [] := by simpa using hr
      subst hkind hnil
      exact ⟨c, b, by simp, hb, hlex⟩

theorem textEnds_of_word {f : Bool} {c : UInt8} {b r : Bytes}
    (h : lexeme f c (b ++ r) = (.word, b.length)) : textEnds (c :: b) = true := by
  have hbegin := beginsWord_of_lexeme h
  have hslash : c ≠ '/'.toUInt8 := by
    rintro rfl
    exact absurd hbegin (by decide)
  have hapos : c ≠ '\''.toUInt8 := by
    rintro rfl
    exact absurd hbegin (by decide)
  have hliteral : literalEnds (c :: b) = true := by
    unfold literalEnds
    split
    · -- a text that begins as a string literal is not read as a word
      rename_i o ho
      have hopens := List.find?_some ho
      obtain ⟨s, hs⟩ := List.isPrefixOf_iff_prefix.1 hopens
      have hmem := List.mem_of_find?_eq_some ho
      have hne : ∀ o ∈ stringOpeners, o.1 ≠ [] := by decide
      obtain ⟨p, v⟩ := o
      cases p with
      | nil => exact absurd rfl (hne _ hmem)
      | cons d p =>
        obtain ⟨rfl, htail⟩ := List.cons.inj hs
        have happ : p ++ s = b := htail
        subst happ
        have hstring := stringSize?_opener hmem (s ++ r)
        rw [← List.append_assoc] at hstring
        rw [lexeme_string hstring] at h
        exact absurd (congrArg Prod.fst h) (by simp)
    · rw [List.head?_cons, if_neg fun h => hapos (Option.some.inj h)]
  rw [textEnds, hliteral, Bool.true_and, Bool.or_eq_true, bne_iff_ne]
  exact Or.inl fun hopen => hslash (List.cons.inj hopen).1

theorem tokensFrom_word {w r : Bytes} (h : IsWord w) (pos : Nat) (f : Bool) (hr : Stops r) :
    tokensFrom pos f (w ++ r) = ⟨.word, w, pos⟩ :: tokensFrom (pos + w.length) false r := by
  obtain ⟨c, b, rfl, hb, hlex⟩ := h.lexeme
  refine tokensFrom_token pos f hb ?_
  refine lexeme_of_flags (fun h : true = false => by cases h) (by simp) ?_
  refine lexeme_of_tame hr.tame (textEnds_of_word hlex) (fun x _ hjoin => ?_)
    (fun h => by simp [isLine] at h) hlex
  have hbegin := beginsWord_of_lexeme hlex
  have hequals : c ≠ '='.toUInt8 := by
    rintro rfl
    exact absurd hbegin (by decide)
  simp [joins, hequals] at hjoin

theorem reads_word {w r : Bytes} (h : IsWord w) (f : Bool) (hr : Stops r) :
    Reads f w [.ofWord w] r false :=
  fun pos => ⟨[⟨.word, w, pos⟩], tokensFrom_word h pos f hr, .keep ⟨rfl, fun _ => rfl⟩ .nil⟩

/-! ## Dotted names -/

def dottedParts (s : Bytes) : List Bytes := s.splitOn '.'.toUInt8

def IsDotted (s : Bytes) : Prop := ∀ part ∈ dottedParts s, IsWord part

instance (s : Bytes) : Decidable (IsDotted s) := List.decidableBAll _ _

def dottedTokens (pos : Nat) : List Bytes → List Token
  | [] => []
  | [part] => [⟨.word, part, pos⟩]
  | part :: next :: parts =>
    ⟨.word, part, pos⟩ :: ⟨.mark, ".", pos + part.length⟩
      :: dottedTokens (pos + part.length + 1) (next :: parts)

theorem tokensFrom_parts {parts : List Bytes} {r : Bytes} (hne : parts ≠ [])
    (h : ∀ part ∈ parts, IsWord part) (hr : Stops r) (pos : Nat) (f : Bool) :
    tokensFrom pos f (Bytes.joinWith ['.'.toUInt8] parts ++ r)
      = dottedTokens pos parts
        ++ tokensFrom (pos + (Bytes.joinWith ['.'.toUInt8] parts).length) false r := by
  induction parts generalizing pos f with
  | nil => exact absurd rfl hne
  | cons part parts ih =>
    have hpart := h part List.mem_cons_self
    cases parts with
    | nil => exact tokensFrom_word hpart pos f hr
    | cons next parts =>
      have hdot : isPlainMark '.'.toUInt8 = true := by decide
      have hstop : isStop '.'.toUInt8 = true := by decide
      have hrest := ih (by simp) (fun p hp => h p (List.mem_cons_of_mem _ hp))
        (pos + part.length + 1) false
      simp only [Bytes.joinWith, List.append_assoc, dottedTokens, List.cons_append]
      rw [tokensFrom_word hpart pos f (stops_cons _ hstop),
        tokensFrom_token (b := []) _ _ (by decide) (lexeme_plainMark _ hdot fun h => absurd h (by decide)),
        List.nil_append, List.length_singleton, hrest]
      simp only [List.length_append, List.length_cons, Nat.add_assoc, Nat.add_comm 1]
      rfl

theorem tokensFrom_dotted {s r : Bytes} (h : IsDotted s) (hr : Stops r) (pos : Nat) (f : Bool) :
    tokensFrom pos f (s ++ r) = dottedTokens pos (dottedParts s) ++ tokensFrom (pos + s.length) false r := by
  have := tokensFrom_parts (Bytes.splitOn_ne_nil '.'.toUInt8 s) h hr pos f
  rwa [Bytes.joinWith_splitOn] at this

theorem thin_dottedTokens (parts : List Bytes) (pos pos' : Nat) :
    Thin (dottedTokens pos parts) (dottedTokens pos' parts) := by
  induction parts generalizing pos pos' with
  | nil => exact .nil
  | cons part parts ih =>
    cases parts with
    | nil => exact .keep ⟨rfl, fun _ => rfl⟩ .nil
    | cons next parts => exact .keep ⟨rfl, fun _ => rfl⟩ (.keep ⟨rfl, fun _ => rfl⟩ (ih _ _))

theorem reads_dotted {s r : Bytes} (h : IsDotted s) (f : Bool) (hr : Stops r) :
    Reads f s (dottedTokens 0 (dottedParts s)) r false :=
  fun pos => ⟨_, tokensFrom_dotted h hr pos f, thin_dottedTokens _ _ _⟩

end Flowsmith.Source
