import Flowsmith.Proofs.Source.Reads
import Flowsmith.Proofs.Source.Nest

/-!
# Written code and its brackets

Code is text without comments; of what is written between braces only the brackets matter to the
text around it.

* `Turns stack stack' s r` : in front of `r`, the text `s` reads as code that finds the brackets
  `stack` open and leaves `stack'` open.
-/

namespace Flowsmith.Source

/-- In front of `r`, the text `s` reads as code that turns the open brackets `stack` into `stack'`. -/
def Turns (stack stack' : List Bytes) (s r : Bytes) : Prop :=
  ∀ f, ∃ ts f', Reads f s ts r f' ∧ (∀ t ∈ ts, t.isTrivia = false) ∧ unclosed stack ts = some stack'

variable {stack stack' stack'' : List Bytes}

theorem Turns.append {s s' r : Bytes} (h : Turns stack stack' s (s' ++ r))
    (h' : Turns stack' stack'' s' r) : Turns stack stack'' (s ++ s') r := by
  intro f
  obtain ⟨ts, f', hr, hsolid, hstack⟩ := h f
  obtain ⟨ts', f'', hr', hsolid', hstack'⟩ := h' f'
  refine ⟨ts ++ ts', f'', hr.append hr', fun t ht => ?_, ?_⟩
  · exact (List.mem_append.1 ht).elim (hsolid t) (hsolid' t)
  · rw [unclosed_append, hstack]
    exact hstack'

theorem turns_gap {g : Bytes} (stack : List Bytes) (hg : IsGapText g) (r : Bytes) :
    Turns stack stack g r :=
  fun f => ⟨[], f, reads_gap hg f r, by simp, rfl⟩

theorem turns_newline (stack : List Bytes) (r : Bytes) : Turns stack stack [Bytes.newline] r :=
  fun f => ⟨[], true, reads_newline f r, by simp, rfl⟩

theorem turns_token {s r : Bytes} {t : Token} (h : ∀ f, Reads f s [t] r false)
    (hsolid : t.isTrivia = false) (hstack : unclosed stack [t] = some stack') :
    Turns stack stack' s r :=
  fun f => ⟨[t], false, h f, by simpa using hsolid, hstack⟩

theorem turns_mark {c : UInt8} (r : Bytes) (h : isPlainMark c = true) (hc : c ≠ '#'.toUInt8)
    (hstack : unclosed stack [.ofMark [c]] = some stack') : Turns stack stack' [c] r :=
  turns_token (fun f => reads_mark f r h hc) rfl hstack

theorem turns_fixed {s : Bytes} (ts : List Token) (h : ∀ f, fixed? f s = some (ts.map Token.spelling))
    (hsolid : ∀ t ∈ ts, t.isTrivia = false) (hstack : unclosed stack ts = some stack') (r : Bytes) :
    Turns stack stack' s r := fun f => by
  obtain ⟨f', hread⟩ := reads_fixed (h f) r
  exact ⟨ts, f', hread, hsolid, hstack⟩

theorem isName_of_isWord {w : Bytes} (h : IsWord w) : (Token.ofWord w).isName = true := by
  have hmem : Token.ofWord w ∈ tokens w := by
    rw [show tokens w = _ from h]
    exact List.mem_cons_self
  exact isName_of_mem hmem rfl

theorem plain_of_isName {t : Token} (h : t.isName = true) : t.closer? = none ∧ closes t = false := by
  have hnot : ∀ w ∈ markTexts, t.is w = false := fun w hw => isName_not_is h hw
  constructor
  · simp [Token.closer?, hnot _ (show ("(" : Bytes) ∈ markTexts by decide),
      hnot _ (show ("[" : Bytes) ∈ markTexts by decide),
      hnot _ (show Bytes.leftBrace ∈ markTexts by decide)]
  · simp [closes, hnot _ (show (")" : Bytes) ∈ markTexts by decide),
      hnot _ (show ("]" : Bytes) ∈ markTexts by decide),
      hnot _ (show Bytes.rightBrace ∈ markTexts by decide)]

theorem turns_word {w r : Bytes} (stack : List Bytes) (h : IsWord w) (hr : Stops r) :
    Turns stack stack w r := by
  obtain ⟨hopen, hclose⟩ := plain_of_isName (isName_of_isWord h)
  exact turns_token (fun f => reads_word h f hr) rfl (unclosed_plain _ _ hopen hclose)

theorem mem_dottedTokens {parts : List Bytes} {pos : Nat} {t : Token} (ht : t ∈ dottedTokens pos parts) :
    (t.kind = .word ∧ t.text ∈ parts) ∨ t.kind = .mark ∧ t.text = "." := by
  induction parts generalizing pos with
  | nil => cases ht
  | cons part parts ih =>
    cases parts with
    | nil =>
      rw [List.mem_singleton.1 ht]
      exact Or.inl ⟨rfl, List.mem_cons_self⟩
    | cons next parts =>
      rcases List.mem_cons.1 ht with rfl | ht
      · exact Or.inl ⟨rfl, List.mem_cons_self⟩
      · rcases List.mem_cons.1 ht with rfl | ht
        · exact Or.inr ⟨rfl, rfl⟩
        · exact (ih ht).imp (fun h => ⟨h.1, List.mem_cons_of_mem _ h.2⟩) id

theorem isName_of_dottedWord {parts : List Bytes} (h : ∀ part ∈ parts, IsWord part) {pos : Nat}
    {t : Token} (ht : t ∈ dottedTokens pos parts) (hw : t.isWord = true) : t.isName = true := by
  rcases mem_dottedTokens ht with ⟨-, htext⟩ | ⟨hkind, -⟩
  · have hbegin := (Bool.and_eq_true_iff.1 (isName_of_isWord (h _ htext))).2
    rw [Token.isName, hw, Bool.true_and]
    exact hbegin
  · simp [Token.isWord, hkind] at hw

theorem isName_of_dotted {parts : List Bytes} (h : ∀ part ∈ parts, IsWord part) {pos : Nat} {t : Token}
    (ht : t ∈ dottedTokens pos parts) : t.isName = true ∨ t.is "." = true := by
  rcases mem_dottedTokens ht with ⟨hkind, -⟩ | ⟨hkind, htext⟩
  · exact Or.inl (isName_of_dottedWord h ht (by simp [Token.isWord, hkind]))
  · exact Or.inr (by simp [Token.is, hkind, htext])

theorem plain_dotted {parts : List Bytes} (h : ∀ part ∈ parts, IsWord part) {pos : Nat} {t : Token}
    (ht : t ∈ dottedTokens pos parts) : t.closer? = none ∧ closes t = false :=
  (isName_of_dotted h ht).elim plain_of_isName fun hdot => plain_of_is hdot (by decide)

theorem not_isTrivia_dotted {parts : List Bytes} {pos : Nat} {t : Token}
    (ht : t ∈ dottedTokens pos parts) : t.isTrivia = false := by
  rcases mem_dottedTokens ht with ⟨hkind, -⟩ | ⟨hkind, -⟩ <;> simp [Token.isTrivia, hkind]

theorem turns_dotted {s r : Bytes} (stack : List Bytes) (h : IsDotted s) (hr : Stops r) :
    Turns stack stack s r := fun f =>
  ⟨_, false, reads_dotted h f hr, fun _ ht => not_isTrivia_dotted ht,
    (nested_of_plain fun _ ht => plain_dotted h ht).unclosed stack⟩

end Flowsmith.Source
