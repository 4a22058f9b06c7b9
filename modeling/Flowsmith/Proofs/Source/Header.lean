import Flowsmith.Proofs.Source.Reheaded
import Flowsmith.Proofs.Source.Collapse

/-!
# The header of a class

The header of a class is the text from its first modifier to its keyword. What follows the keyword says
everything else about the class, but for the columns of its members.

* `Class.Plain` : only blanks stand between the modifiers and the keyword;
* `ClassAt.exists_spaced` : a plain header is a row of modifiers with blanks after each;
* `Class.content` : a class without its header and the columns of its members;
* `membersOf_content` : the texts of members in another place;
* `content_of_keyword` : the content of a class depends on what follows its keyword alone.
-/

namespace Flowsmith.Source

open Bytes (isLetterByte)

/-! ## Plain headers -/

/-- Only blanks stand between the modifiers of a class and its keyword: no comment and no preprocessor line
is there. -/
def Class.Plain (text : Bytes) (c : Class) : Prop :=
  ∀ t ∈ tokens text, t.isTrivia = true → t.start < c.start ∨ c.keywordStart ≤ t.start

instance (text : Bytes) (c : Class) : Decidable (c.Plain text) :=
  inferInstanceAs (Decidable (∀ t ∈ tokens text, t.isTrivia = true → t.start < c.start ∨ c.keywordStart ≤ t.start))

/-- A word of letters ends in front of what is no letter. -/
theorem not_letter_behind {c : UInt8} {b r : Bytes} {f : Bool} {kind : TokenKind}
    (hw : ∀ x ∈ c :: b, isLetterByte x = true) (hlex : lexeme f c (b ++ r) = (kind, b.length)) {y : UInt8}
    {s : Bytes} (hr : r = y :: s) : isLetterByte y = false := by
  subst hr
  rw [lexeme_letter (hw c List.mem_cons_self)] at hlex
  have hsize := (Prod.mk.inj hlex).2
  have hsum := wordSize_letters hw (y :: s)
  rw [List.cons_append] at hsum
  rw [hsum, List.length_cons] at hsize
  by_contra hy
  rw [Bool.not_eq_false] at hy
  rw [wordSize_letter_cons hy] at hsize
  omega

theorem letters_modifierWords : ∀ w ∈ modifierWords, ∀ c ∈ w, isLetterByte c = true := by
  have hall : ∀ w ∈ modifierWords, w.all isLetterByte = true := by decide
  exact fun w hw => List.all_eq_true.1 (hall w hw)

/-- **Modifiers in front of a keyword** with no comment between them are a row with blanks after each. -/
theorem exists_row {s : Bytes} {pos : Nat} {f : Bool} {H after : List Token} {keyword : Token}
    (h : solid (tokensFrom pos f s) = H ++ keyword :: after) (hH : ∀ t ∈ H, isModifier t = true)
    (hkey : keyword.text = classWord)
    (hplain : ∀ t ∈ tokensFrom pos f s, t.isTrivia = true → keyword.start ≤ t.start) :
    ∃ (g : Bytes) (ps : List SpacedWord) (r : Bytes), s = g ++ (render (spacedChunks ps) ++ (classWord ++ r)) ∧
      (∀ c ∈ g, isBlankByte c = true) ∧ H.map (·.text) = ps.map (·.word.1) ∧
      keyword.start = pos + (g.length + (render (spacedChunks ps)).length) := by
  match s with
  | [] =>
    rw [tokensFrom_nil] at h
    simp [solid] at h
  | c :: s =>
    rcases tokensFrom_cases pos f c s with ⟨hc, heq⟩ | ⟨hc, kind, b, r, rfl, hlex, heq⟩
    · rw [heq] at h hplain
      obtain ⟨g, ps, r, rfl, hg, hps, hstart⟩ := exists_row h hH hkey hplain
      refine ⟨c :: g, ps, r, rfl, ?_, hps, ?_⟩
      · intro x hx
        rcases List.mem_cons.1 hx with rfl | hx
        · exact hc
        · exact hg x hx
      · rw [hstart, List.length_cons]
        omega
    · rw [heq] at h hplain
      cases htrivia : (⟨kind, c :: b, pos⟩ : Token).isTrivia with
      | true =>
        -- a comment would stand in front of the keyword
        have hle : keyword.start ≤ pos := hplain ⟨kind, c :: b, pos⟩ List.mem_cons_self htrivia
        have hsolid : solid (⟨kind, c :: b, pos⟩ :: tokensFrom (pos + (c :: b).length) false r)
            = solid (tokensFrom (pos + (c :: b).length) false r) :=
          List.filter_cons_of_neg (by rw [htrivia]; decide)
        rw [hsolid] at h
        have hkmem : keyword ∈ tokensFrom (pos + (c :: b).length) false r :=
          (mem_solid.1 (by rw [h]; simp)).1
        have := (le_start_of_mem hkmem).1
        rw [List.length_cons] at this
        omega
      | false =>
        have hsolid : solid (⟨kind, c :: b, pos⟩ :: tokensFrom (pos + (c :: b).length) false r)
            = ⟨kind, c :: b, pos⟩ :: solid (tokensFrom (pos + (c :: b).length) false r) :=
          List.filter_cons_of_pos (by rw [htrivia]; rfl)
        rw [hsolid] at h
        cases H with
        | nil =>
          obtain ⟨rfl, -⟩ := List.cons.inj h
          have hword : c :: b = classWord := hkey
          refine ⟨[], [], r, ?_, by simp, rfl, rfl⟩
          rw [← List.cons_append, hword]
          rfl
        | cons t H =>
          obtain ⟨rfl, hmore⟩ := List.cons.inj h
          obtain ⟨g, ps, r', rfl, hg, hps, hstart⟩ := exists_row hmore
            (fun x hx => hH x (List.mem_cons_of_mem _ hx)) hkey
            (fun x hx => hplain x (List.mem_cons_of_mem _ hx))
          have hmod := hH _ List.mem_cons_self
          rw [isModifier, isWordOf, Bool.and_eq_true, List.contains_iff_mem] at hmod
          have hletters := letters_modifierWords _ hmod.2
          -- a word ends in front of a blank
          have hne : g ≠ [] := by
            rintro rfl
            obtain ⟨y, s, hy, hletter⟩ := exists_letter_spaced ps r'
            rw [not_letter_behind hletters hlex hy] at hletter
            cases hletter
          refine ⟨[], ⟨⟨c :: b, hmod.2⟩, g, hne, hg⟩ :: ps, r', ?_, by simp, ?_, ?_⟩
          · show c :: (b ++ (g ++ _)) = (c :: b ++ (g ++ render (spacedChunks ps))) ++ _
            simp
          · rw [List.map_cons, hps]
            rfl
          · show keyword.start = pos + (0 + (c :: b ++ (g ++ render (spacedChunks ps))).length)
            rw [hstart]
            simp only [List.length_append, List.length_cons]
            omega
termination_by s.length

/-- **A plain header** is a row of modifiers with blanks after each. -/
theorem ClassAt.exists_spaced {text pre head r : Bytes} {c : Class} {P : List Token}
    (h : ClassAt text c pre head r P) (hplain : c.Plain text) :
    ∃ ps : List SpacedWord, head = render (spacedChunks ps) ∧ c.modifiers = ps.map (·.word.1) := by
  obtain ⟨H, hsolid, hmods, hnames, hfirst⟩ := h.header
  obtain ⟨after, -, -, hread, -⟩ := h.read
  rw [hread, List.map_cons] at hsolid
  have hkeyword : (classToken.shift (pre.length + head.length)).start = c.keywordStart := by
    rw [h.keywordStart]
    exact Nat.zero_add _
  -- the first token of the header
  obtain ⟨u, R, hu, hustart⟩ : ∃ u R, H ++ classToken.shift (pre.length + head.length)
      :: after.map (Token.shift (pre.length + head.length)) = u :: R ∧ u.start = pre.length := by
    have hfirst := hfirst.trans h.start
    cases H with
    | nil => exact ⟨_, _, rfl, hkeyword.trans hfirst⟩
    | cons v H => exact ⟨v, _, rfl, hfirst⟩
  have hsolid' := hsolid
  rw [hu] at hsolid'
  obtain ⟨f, hdrop, hmem⟩ := tokens_drop hsolid'
  have htext : text.drop u.start = head ++ (classWord ++ r) := by
    rw [hustart, h.text_eq, List.drop_left]
  rw [htext] at hdrop hmem
  obtain ⟨g, ps, r', heq, hg, hps, hstart⟩ := exists_row (hdrop.trans hu.symm) hmods rfl fun t ht htrivia => by
    have hle := (le_start_of_mem ht).1
    rw [hkeyword]
    exact (hplain t (hmem t ht) htrivia).resolve_left (by rw [h.start]; omega)
  -- it begins with no blank
  obtain rfl : g = [] := by
    cases g with
    | nil => rfl
    | cons b g =>
      have hfirst : u ∈ tokensFrom u.start f (b :: (g ++ (render (spacedChunks ps) ++ (classWord ++ r')))) := by
        refine (mem_solid.1 ?_).1
        rw [← List.cons_append, ← heq, hdrop]
        exact List.mem_cons_self
      rcases tokensFrom_cases u.start f b (g ++ (render (spacedChunks ps) ++ (classWord ++ r'))) with
        ⟨-, hblank⟩ | ⟨hnot, -⟩
      · rw [hblank] at hfirst
        have := (le_start_of_mem hfirst).1
        omega
      · rw [hg b List.mem_cons_self] at hnot
        cases hnot
  rw [List.nil_append] at heq
  rw [hkeyword, hustart, h.keywordStart, List.length_nil, Nat.zero_add] at hstart
  refine ⟨ps, ?_, hnames.trans hps⟩
  exact (List.append_inj heq (by omega)).1

/-! ## What follows the keyword -/

def Member.unplaced (m : Member) : Member := { m with column := 0 }

/-- A class without its header and the columns of its members. -/
def Class.content (c : Class) : Class := c.through Member.unplaced

theorem unplaced_bind (x : Except Fault (List Member)) (m : Member) (text : Bytes) (column : Nat) :
    (x >>= fun ms => (return { m with text := text, column := column } :: ms : Except Fault (List Member))).map
        (List.map Member.unplaced)
      = (x.map (List.map Member.unplaced)).map ({ m with text := text, column := 0 } :: ·) := by
  cases x <;> rfl

section

variable {cut cut' : Nat → Nat → Bytes} {k : Nat} (hcut : ∀ x y, cut' (x + k) (y + k) = cut x y)
  {front : List Token} (hfront : ∀ t ∈ front, t.start < k)

include hcut hfront

/-- Comments in front of the text that is moved do not count. -/
theorem textStart_shift (trivia : List Token) (boundary first : Nat) :
    textStart cut' (front ++ trivia.map (Token.shift k)) (boundary + k) (first + k)
      = textStart cut trivia boundary first + k := by
  have hnone : front.find? (fun c => boundary + k ≤ c.start && c.stop ≤ first + k
      && (cut' (boundary + k) c.start).contains Bytes.newline) = none := by
    refine List.find?_eq_none.2 fun t ht => ?_
    have := hfront t ht
    simp only [Bool.and_eq_true, decide_eq_true_eq]
    omega
  have hsame : (fun c : Token => decide (boundary + k ≤ c.start) && decide (c.stop ≤ first + k)
      && (cut' (boundary + k) c.start).contains Bytes.newline) ∘ Token.shift k
      = fun c => decide (boundary ≤ c.start) && decide (c.stop ≤ first)
        && (cut boundary c.start).contains Bytes.newline := by
    funext c
    simp only [Function.comp, Token.shift_start, Token.shift_stop, hcut, Nat.add_le_add_iff_right]
  unfold textStart
  rw [List.find?_append, hnone, Option.none_or, List.find?_map, hsame]
  cases trivia.find? fun c => decide (boundary ≤ c.start) && decide (c.stop ≤ first)
      && (cut boundary c.start).contains Bytes.newline <;> rfl

/-- **Members in another place** keep their texts. -/
theorem membersOf_content (owner : Bytes) (trivia : List Token) (boundary : Nat) (ts : List Token) :
    (membersOf cut' owner (front ++ trivia.map (Token.shift k)) (boundary + k)
        (ts.map (Token.shift k))).map (List.map Member.unplaced)
      = (membersOf cut owner trivia boundary ts).map (List.map Member.unplaced) := by
  induction hn : ts.length using Nat.strongRecOn generalizing ts boundary with
  | _ n ih =>
    cases ts with
    | nil => rw [List.map_nil, membersOf, membersOf]
    | cons t rest =>
      have hlt := length_memberSplit_lt t rest
      have hsplit : memberSplit (t.shift k :: rest.map (Token.shift k))
          = ((memberSplit (t :: rest)).1.map (Token.shift k), (memberSplit (t :: rest)).2.map (Token.shift k)) :=
        memberSplitFrom_shift k 0 false false (t :: rest)
      have hstop : (((memberSplit (t :: rest)).1.map (Token.shift k)).getLast?.map (·.stop)).getD (t.stop + k)
          = ((memberSplit (t :: rest)).1.getLast?.map (·.stop)).getD t.stop + k := by
        rw [List.getLast?_map]
        cases (memberSplit (t :: rest)).1.getLast? with
        | none => rfl
        | some u => exact Token.shift_stop k u
      simp only [List.length_cons] at hn
      rw [List.map_cons, membersOf, membersOf, Token.shift_is]
      split
      · rw [Token.shift_stop]
        exact ih rest.length (by omega) _ rest rfl
      · simp only [hsplit, memberOf_shift hcut, Token.shift_start, Token.shift_stop, hstop,
          textStart_shift hcut hfront, hcut]
        cases memberOf cut owner (memberSplit (t :: rest)).1 with
        | error e => rfl
        | ok m =>
          have hmore := ih (memberSplit (t :: rest)).2.length (by omega)
            (((memberSplit (t :: rest)).1.getLast?.map (·.stop)).getD t.stop) _ rfl
          apply Eq.trans (unplaced_bind _ m _ _)
          rw [hmore]
          exact (unplaced_bind _ m _ _).symm

end

/-- **The content of a class** depends on what follows its keyword alone. -/
theorem content_of_keyword {a r : Bytes} {o : Outline} {c : Class} (h : outline (a ++ (classWord ++ r)) = .ok o)
    (hc : o.class? = some c) (hkeyword : c.keywordStart = a.length) :
    ∃ after, solid (tokens (classWord ++ r)) = classToken :: after ∧
      (classOf (classWord ++ r).slice ((tokens (classWord ++ r)).filter (·.isTrivia)) [] classToken after).map
        Class.content = .ok c.content := by
  have hmem : ∀ t ∈ solid (tokens (a ++ (classWord ++ r))), t ∈ tokens (a ++ (classWord ++ r)) :=
    fun t ht => (mem_solid.1 ht).1
  have hclass : ∀ t ∈ solid (tokens (a ++ (classWord ++ r))), t.is "class" = true → t.isWord = true :=
    fun t ht hkey => by
      simp only [Token.is, Bool.and_eq_true, beq_iff_eq] at hkey
      exact isWord_of_letter (hmem t ht) (by rw [hkey.2]; decide)
  obtain ⟨before, keyword, after, hsolid, hkey, hbegins, hread, -⟩ :=
    finds_of_outlineFrom (n := 0) h rfl hc hclass
  have hsolid : solid (tokens (a ++ (classWord ++ r))) = before ++ keyword :: after := hsolid
  have hstart : keyword.start = a.length := by rw [← hkeyword, (classOf_header hread).2.2]
  have htext : keyword.text = classWord := by
    simp only [Token.is, Bool.and_eq_true, beq_iff_eq] at hkey
    exact hkey.2
  obtain ⟨after₀, -, hread₀, -, rfl⟩ := exists_keyword hsolid (by rw [hstart, List.drop_left]) htext
    (beginsClass_iff.1 hbegins).1
  rw [hstart] at hread
  refine ⟨after₀, hread₀, ?_⟩
  -- the comments of the source are those in front of the keyword and those behind it
  have hletter : classWord ++ r = 'c'.toUInt8 :: (("lass" : Bytes) ++ r) := rfl
  have hclean : Clean (tokensFrom 0 true (a ++ (classWord ++ r))) (0 + a.length) := by
    rw [Nat.zero_add, ← hstart]
    exact (clean_of_mem (hmem keyword (by rw [hsolid]; simp))).1
  rw [hletter] at hclean
  obtain ⟨-, ts, f, hstop, hmore⟩ := tokensFrom_abutting _ (by decide) a 0 true hclean
  have hall : tokens (a ++ (classWord ++ r)) = ts ++ (tokens (classWord ++ r)).map (Token.shift a.length) := by
    rw [hletter, tokens, hmore _ _ (by decide), Nat.zero_add]
    exact congrArg _ (tokensFrom_letter (by decide) _ _ _)
  have hfront : ∀ t ∈ ts.filter (·.isTrivia), t.start < a.length := fun t ht => by
    have hts := (List.mem_filter.1 ht).1
    have htokens : t ∈ tokens (a ++ (classWord ++ r)) := by
      rw [hall]
      exact List.mem_append_left _ hts
    have hpos := (le_start_of_mem htokens).2
    have hle := hstop t hts
    omega
  have htrivia : (tokens (a ++ (classWord ++ r))).filter (·.isTrivia) = ts.filter (·.isTrivia)
      ++ ((tokens (classWord ++ r)).filter (·.isTrivia)).map (Token.shift a.length) := by
    rw [hall, List.filter_append, List.filter_map]
    rfl
  have hcut := slice_append_right a (classWord ++ r)
  have hsame := classOf_through hcut (membersOf_content hcut hfront · ((tokens (classWord ++ r)).filter
    (·.isTrivia))) [] (before.reverse ++ []) classToken keyword after₀
  rw [← htrivia, hread] at hsame
  exact hsame.symm

/-- Classes with the same text behind their keywords have the same content. -/
theorem content_eq {a a' r : Bytes} {o o' : Outline} {c c' : Class}
    (h : outline (a ++ (classWord ++ r)) = .ok o) (hc : o.class? = some c) (hkeyword : c.keywordStart = a.length)
    (h' : outline (a' ++ (classWord ++ r)) = .ok o') (hc' : o'.class? = some c')
    (hkeyword' : c'.keywordStart = a'.length) : c'.content = c.content := by
  obtain ⟨after, hafter, hread⟩ := content_of_keyword h hc hkeyword
  obtain ⟨after', hafter', hread'⟩ := content_of_keyword h' hc' hkeyword'
  rw [hafter] at hafter'
  obtain ⟨-, rfl⟩ := List.cons.inj hafter'
  rw [hread] at hread'
  exact (Except.ok.inj hread').symm

/-! ## The words of a header -/

theorem blankSize_of_isBlankByte {b : UInt8} (h : isBlankByte b = true) (s : Bytes) :
    Text.blankSize (b :: s) = 1 := by
  simp only [isBlankByte, isGap, Bool.or_eq_true, beq_iff_eq] at h
  rcases h with rfl | (((rfl | rfl) | rfl) | rfl) | rfl <;> rfl

theorem wordsFrom_blanks {g : Bytes} (hg : ∀ b ∈ g, isBlankByte b = true) (s : Bytes) :
    Bytes.wordsFrom [] (g ++ s) = Bytes.wordsFrom [] s := by
  induction g with
  | nil => rfl
  | cons b g ih =>
    rw [List.cons_append, wordsFrom_blank [] (blankSize_of_isBlankByte (hg b List.mem_cons_self) _),
      List.drop_zero, ih fun x hx => hg x (List.mem_cons_of_mem _ hx)]
    rfl

theorem wordsFrom_gap {word g s : Bytes} (hword : word ≠ []) (hne : g ≠ [])
    (hg : ∀ b ∈ g, isBlankByte b = true) :
    Bytes.wordsFrom word (g ++ s) = word.reverse :: Bytes.wordsFrom [] s := by
  obtain ⟨b, g, rfl⟩ := List.exists_cons_of_ne_nil hne
  rw [List.cons_append, wordsFrom_blank word (blankSize_of_isBlankByte (hg b List.mem_cons_self) _),
    if_neg (by simpa using hword), List.drop_zero,
    wordsFrom_blanks fun x hx => hg x (List.mem_cons_of_mem _ hx)]
  rfl

/-- **The words of a plain header** are its modifiers. -/
theorem words_spaced (ps : List SpacedWord) : (render (spacedChunks ps)).words = ps.map (·.word.1) := by
  unfold Bytes.words
  induction ps with
  | nil => exact wordsFrom_nil []
  | cons p ps ih =>
    have hword := isWord_modifierWords _ p.word.2
    have hne : p.word.1 ≠ [] := by
      intro hnil
      rw [hnil] at hword
      exact absurd hword (by decide +kernel)
    have hrender : render (spacedChunks (p :: ps)) = p.word.1 ++ (p.gap ++ render (spacedChunks ps)) := rfl
    rw [hrender, wordsFrom_unbroken [] fun a b' hab hb' => blankSize_word hword hab hb' (p.stops _),
      wordsFrom_gap (by simpa using hne) p.ne_nil p.blank, ih]
    simp

end Flowsmith.Source
