import Flowsmith.Proofs.FlowClass.Reindent

/-!
# Statements under another indentation

The statements of a block keep their tokens when they are carried over. Line ends become line feeds, also in
verbatim literals, and blanks at the ends of lines are lost, also at the ends of preprocessor lines.

* `laid_indentTrimmed` : a line that loses the blanks at its two ends;
* `blockLines_carries` : what becomes of the statements of a block.
-/

namespace Flowsmith.FlowClass

open Source

/-- A line that loses its indentation and the blanks at its end, under another indentation. -/
theorem laid_indentTrimmed {pad : Bytes} (hpad : IsGapText pad) (n : Nat) (l : Bytes) {m : Mode}
    (hm : m ≠ .verbatim) : Laid true m l (indentLine pad (trimEndWhile isIndent (trimIndent n l))) := by
  obtain ⟨g, hline, hg⟩ := trimIndent_eq n l
  obtain ⟨z, htrim, hz⟩ := trimEndWhile_eq isIndent (trimIndent n l)
  have hall : g ++ trimEndWhile isIndent (trimIndent n l) ++ z = l := by
    rw [List.append_assoc, ← htrim, ← hline]
  unfold indentLine
  split
  · rename_i hblank
    refine .blank hm rfl ?_
    rw [← hall]
    exact (hg.blank.append (blank_of_isBlank hblank)).append (isGapText_of_isIndent hz).blank
  · have h : Laid true m (g ++ trimEndWhile isIndent (trimIndent n l) ++ z)
        (pad ++ trimEndWhile isIndent (trimIndent n l)) := .indented hm hg hpad hz (by simp)
    rwa [hall] at h

theorem codeOf_of_blank {u : Bytes} (hu : Blank u) (pos : Nat) (fresh : Bool) :
    codeOf true (tokensFrom pos fresh u) = [] := by
  obtain ⟨junk, f, heq, hjunk⟩ := tokensFrom_blank hu [] pos fresh
  rw [List.append_nil, tokensFrom_nil] at heq
  rw [heq, codeOf_blanks [] fun t ht => ⟨rfl, hjunk t ht⟩]
  rfl

theorem tokensFrom_lead {u : Bytes} (hu : u = [] ∨ ∃ u', u = u' ++ [Bytes.newline] ∧ Blank u') (s : Bytes) :
    ∃ junk, (∀ t ∈ junk, t.isBlankMark = true) ∧ tokens (u ++ s) = junk ++ tokensFrom u.length true s := by
  rcases hu with rfl | ⟨u', rfl, hu'⟩
  · exact ⟨[], by simp, rfl⟩
  · obtain ⟨junk, f, heq, hjunk⟩ := tokensFrom_blank hu' (Bytes.newline :: s) 0 true
    refine ⟨junk, hjunk, ?_⟩
    rw [tokens, List.append_assoc, List.singleton_append, heq, tokensFrom_newline, List.length_append,
      Nat.zero_add]
    rfl

/-- A layout that drops blanks at the ends of lines leaves these tokens alone. -/
theorem held_of_closed {body : Bytes} (hclosed : ∀ t ∈ tokens body, textEnds t.text = true)
    (hopener : ∀ t ∈ tokens body, ¬ ("@$\"" : Bytes) <+: t.text)
    (hline : ∀ t ∈ tokens body, t.kind = .string ∨ t.kind = .character → t.isVerbatim = false →
      Bytes.newline ∉ t.text)
    (hdirective : ∀ t ∈ tokens body, t.kind = .directive → nextMode .code t.text = .code)
    (hflush : ∀ t ∈ tokens body, t.isVerbatim = true → isFlush t.text = true) :
    ∀ t ∈ tokens body, Held true t := by
  intro t ht
  obtain ⟨a, c, b, r, fresh, -, htext, -, -, hlex⟩ := exists_lexeme_of_mem ht
  refine ⟨hopener t ht, hline t ht, fun hv => ?_, hdirective t ht, fun _ => hclosed t ht,
    fun _ => hflush t ht⟩
  have hends := (Bool.and_eq_true_iff.1 (hclosed t ht)).1
  rw [getLast?_verbatim htext hlex hv (.inl hends)]
  decide

/-- **The statements of a block under another indentation.** When all literals and comments are closed, no
string literal has the opener that the walk does not know, only verbatim literals hold line feeds, those end
their first lines in no blanks, and no preprocessor line leaves a literal or a comment open, the tokens are
the same but for comments and for marks that stand for blanks. String literals have line feeds where they had
carriage returns and line feeds, and preprocessor lines may lose blanks at their ends. -/
theorem blockLines_carries {body : Bytes} (hclosed : ∀ t ∈ tokens body, textEnds t.text = true)
    (hopener : ∀ t ∈ tokens body, ¬ ("@$\"" : Bytes) <+: t.text)
    (hline : ∀ t ∈ tokens body, t.kind = .string ∨ t.kind = .character → t.isVerbatim = false →
      Bytes.newline ∉ t.text)
    (hdirective : ∀ t ∈ tokens body, t.kind = .directive → nextMode .code t.text = .code)
    (hflush : ∀ t ∈ tokens body, t.isVerbatim = true → isFlush t.text = true) (n : Nat) :
    List.Forall₂ (KeepsToken true) (codeOf true (tokens body))
      (codeOf true (tokens (Bytes.joinWith [Bytes.newline] (blockLines body (Bytes.spaces n))))) := by
  have hheld := held_of_closed hclosed hopener hline hdirective hflush
  have hsplit := split_splitLines body
  obtain ⟨after, hafter, hblank⟩ := trimBlock_eq (splitLines body)
  have hnone : trimBlock (splitLines body) = [] → Blank body →
      List.Forall₂ (KeepsToken true) (codeOf true (tokens body))
        (codeOf true (tokens (Bytes.joinWith [Bytes.newline] (blockLines body (Bytes.spaces n))))) := by
    intro hnil hbody
    have hout : blockLines body (Bytes.spaces n) = [] := by
      unfold blockLines
      rw [hnil]
      rfl
    rw [hout, tokens, codeOf_of_blank hbody, show Bytes.joinWith [Bytes.newline] [] = [] from rfl, tokens,
      tokensFrom_nil]
    exact .nil
  rcases hsplit.dropWhile with hall | ⟨u, s, hbody, hs, hu⟩
  · refine hnone ?_ (hsplit.blank hall)
    unfold trimBlock
    rw [List.dropWhile_eq_nil_iff.2 hall]
    rfl
  · rw [hafter] at hs
    by_cases hnil : trimBlock (splitLines body) = []
    · refine hnone hnil ?_
      rw [hnil] at hs
      rw [hbody]
      refine Blank.append ?_ (hs.blank hblank)
      rcases hu with rfl | ⟨u', rfl, hu'⟩
      · exact .nil
      · exact hu'.append (blank_of_bytes (by decide +kernel))
    · obtain ⟨junk, hjunk, hlead⟩ := tokensFrom_lead hu s
      rw [← hbody] at hlead
      have hlaid : LaidLines true .code (trimBlock (splitLines body)) (blockLines body (Bytes.spaces n)) := by
        unfold blockLines flagLines verbatimLines
        exact laidLines_zip (fun l _ m hm => laid_indentTrimmed (isGapText_spaces n) _ l hm) fun l => rfl
      obtain ⟨fs, -, hagrees, -⟩ := agrees_of_laid hlaid hnil hs (by simp) (.inr ⟨rfl, hblank⟩)
        fun x hx => hheld x (by rw [hlead]; exact List.mem_append_right _ hx)
      rw [hlead, codeOf_blanks _ fun t ht => ⟨rfl, hjunk t ht⟩]
      exact hagrees

/-- Statements with carriage returns, a literal over lines and preprocessor lines. -/
def returning : Bytes :=
  "\r\n  #region it's \r\n  var s = $@\"a\r\n b\"\"\"; // c \r\n\r\n    F('\\'');\r\n  #endregion\r\n"

theorem blockLines_carries_returning : ((∀ t ∈ tokens returning, textEnds t.text = true) ∧
    (∀ t ∈ tokens returning, ¬ ("@$\"" : Bytes) <+: t.text) ∧
    (∀ t ∈ tokens returning, t.kind = .string ∨ t.kind = .character → t.isVerbatim = false →
      Bytes.newline ∉ t.text) ∧
    (∀ t ∈ tokens returning, t.kind = .directive → nextMode .code t.text = .code) ∧
    ∀ t ∈ tokens returning, t.isVerbatim = true → isFlush t.text = true) ∧
    List.Forall₂ (KeepsToken true) (codeOf true (tokens returning))
      (codeOf true (tokens (Bytes.joinWith [Bytes.newline] (blockLines returning (Bytes.spaces 8))))) ∧
    blockLines returning (Bytes.spaces 8)
      = ["        #region it's", "        var s = $@\"a", " b\"\"\"; // c ", "", "          F('\\'');",
        "        #endregion"] := by
  have h : (∀ t ∈ tokens returning, textEnds t.text = true) ∧
      (∀ t ∈ tokens returning, ¬ ("@$\"" : Bytes) <+: t.text) ∧
      (∀ t ∈ tokens returning, t.kind = .string ∨ t.kind = .character → t.isVerbatim = false →
        Bytes.newline ∉ t.text) ∧
      (∀ t ∈ tokens returning, t.kind = .directive → nextMode .code t.text = .code) ∧
      ∀ t ∈ tokens returning, t.isVerbatim = true → isFlush t.text = true := by
    rw [returning, Bytes.ofString_ofList]
    refine ⟨?_, ?_, ?_, ?_, ?_⟩ <;> decide +kernel
  refine ⟨h, blockLines_carries h.1 h.2.1 h.2.2.1 h.2.2.2.1 h.2.2.2.2 8, ?_⟩
  rw [returning]
  repeat rw [Bytes.ofString_ofList]
  decide +kernel

/-- A literal keeps its lines, but not the carriage returns at their ends. -/
def returnInside : Bytes := "var s = @\"a\r\nb\";"

theorem blockLines_returnInside : (∀ t ∈ tokens returnInside, textEnds t.text = true) ∧
    codeTokens (tokens (Bytes.joinWith [Bytes.newline] (blockLines returnInside (Bytes.spaces 8))))
      ≠ codeTokens (tokens returnInside) := by
  rw [returnInside, Bytes.ofString_ofList]
  constructor <;> decide +kernel

end Flowsmith.FlowClass
