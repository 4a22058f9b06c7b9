import Flowsmith.Proofs.FlowClass.Kept

/-!
# The walk and the scanner

A text whose lines are laid out anew has the tokens it had, and the lines that the walk takes to begin
inside verbatim literals are those that begin inside such tokens.

* `lineStarts` : where the lines of a text begin, the first one aside;
* `insideVerbatim` : whether an offset lies strictly inside a verbatim literal;
* `codeOf` : tokens without comments, and without marks that stand for blanks where blanks are left out;
* `Tracked.agrees` : tokens and lines of a text and of the text it becomes.
-/

namespace Flowsmith.FlowClass

open Source

/-! ## Where lines begin -/

/-- The offsets after the line feeds of a text that lies at an offset. -/
def lineStarts (pos : Nat) : Bytes → List Nat
  | [] => []
  | c :: s => if c = Bytes.newline then (pos + 1) :: lineStarts (pos + 1) s else lineStarts (pos + 1) s

theorem lineStarts_append (pos : Nat) (s r : Bytes) :
    lineStarts pos (s ++ r) = lineStarts pos s ++ lineStarts (pos + s.length) r := by
  induction s generalizing pos with
  | nil => rfl
  | cons c s ih =>
    rw [List.cons_append, lineStarts, lineStarts, ih, List.length_cons,
      show pos + 1 + s.length = pos + (s.length + 1) by omega]
    split <;> rfl

theorem lineStarts_of_not_mem (pos : Nat) {s : Bytes} (h : Bytes.newline ∉ s) : lineStarts pos s = [] := by
  induction s generalizing pos with
  | nil => rfl
  | cons c s ih =>
    simp only [List.mem_cons, not_or] at h
    rw [lineStarts, if_neg (Ne.symm h.1), ih _ h.2]

theorem length_lineStarts (pos : Nat) (s : Bytes) : (lineStarts pos s).length = s.count Bytes.newline := by
  induction s generalizing pos with
  | nil => rfl
  | cons c s ih =>
    rw [lineStarts]
    split
    · rename_i hc
      rw [List.length_cons, ih, hc, List.count_cons_self]
    · rename_i hc
      rw [ih, List.count_cons_of_ne hc]

/-- A line begins after a line feed of the text. -/
theorem mem_lineStarts {pos o : Nat} {s : Bytes} (h : o ∈ lineStarts pos s) :
    ∃ k, o = pos + k + 1 ∧ s[k]? = some Bytes.newline := by
  induction s generalizing pos with
  | nil => cases h
  | cons c s ih =>
    have hrest : o ∈ lineStarts (pos + 1) s → ∃ k, o = pos + k + 1 ∧ (c :: s)[k]? = some Bytes.newline := by
      intro h
      obtain ⟨k, rfl, hk⟩ := ih h
      exact ⟨k + 1, by omega, by simpa using hk⟩
    rw [lineStarts] at h
    split at h
    · rename_i hc
      rcases List.mem_cons.1 h with rfl | h
      · exact ⟨0, by omega, by simp [hc]⟩
      · exact hrest h
    · exact hrest h

/-! ## Lines that begin inside literals -/

/-- Whether an offset lies strictly inside a verbatim literal. -/
def insideVerbatim (ts : List Token) (o : Nat) : Bool :=
  ts.any fun t => t.isVerbatim && decide (t.start < o) && decide (o < t.stop)

theorem insideVerbatim_cons (t : Token) (ts : List Token) (o : Nat) :
    insideVerbatim (t :: ts) o
      = (t.isVerbatim && decide (t.start < o) && decide (o < t.stop) || insideVerbatim ts o) := by
  rw [insideVerbatim, List.any_cons]
  rfl

theorem insideVerbatim_eq_false {ts : List Token} {o : Nat} (h : ∀ t ∈ ts, o ≤ t.start) :
    insideVerbatim ts o = false := by
  rw [insideVerbatim, List.any_eq_false]
  intro t ht
  have hle := h t ht
  have hstart : decide (t.start < o) = false := by
    rw [decide_eq_false_iff_not]
    omega
  simp [hstart]

theorem insideVerbatim_append {ts ts' : List Token} (h : ∀ t ∈ ts, t.isVerbatim = false) (o : Nat) :
    insideVerbatim (ts ++ ts') o = insideVerbatim ts' o := by
  have hfalse : insideVerbatim ts o = false := by
    rw [insideVerbatim, List.any_eq_false]
    intro t ht
    simp [h t ht]
  rw [insideVerbatim, List.any_append]
  rw [insideVerbatim] at hfalse
  rw [hfalse, Bool.false_or]
  rfl

/-- The lines that begin inside the first token, and those that begin after it. -/
theorem inside_token {kind : TokenKind} {text r : Bytes} {pos : Nat}
    (hlast : (Token.mk kind text pos).isVerbatim = true → text.getLast? ≠ some Bytes.newline) :
    (lineStarts pos (text ++ r)).map
        (insideVerbatim (⟨kind, text, pos⟩ :: tokensFrom (pos + text.length) false r))
      = List.replicate (text.count Bytes.newline) (Token.mk kind text pos).isVerbatim
        ++ (lineStarts (pos + text.length) r).map
          (insideVerbatim (tokensFrom (pos + text.length) false r)) := by
  have hstart : ∀ t ∈ tokensFrom (pos + text.length) false r, pos + text.length ≤ t.start :=
    fun t ht => (le_start_of_mem ht).1
  rw [lineStarts_append, List.map_append]
  congr 1
  · rw [← length_lineStarts pos text, List.eq_replicate_iff]
    refine ⟨by rw [List.length_map], fun x hx => ?_⟩
    obtain ⟨o, ho, rfl⟩ := List.mem_map.1 hx
    obtain ⟨k, rfl, hk⟩ := mem_lineStarts ho
    have hlt : k < text.length := (List.getElem?_eq_some_iff.1 hk).1
    rw [insideVerbatim_cons, insideVerbatim_eq_false fun t ht => by have := hstart t ht; omega,
      Bool.or_false]
    cases hv : (Token.mk kind text pos).isVerbatim with
    | false => rfl
    | true =>
      have hinside : pos + k + 1 < pos + text.length := by
        by_contra hge
        refine hlast hv ?_
        rw [List.getLast?_eq_getElem?, show text.length - 1 = k by omega, hk]
      have hbefore : pos < pos + k + 1 := by omega
      rw [Bool.true_and, Bool.and_eq_true, decide_eq_true_eq, decide_eq_true_eq]
      exact ⟨hbefore, hinside⟩
  · refine List.map_congr_left fun o ho => ?_
    obtain ⟨k, rfl, -⟩ := mem_lineStarts ho
    rw [insideVerbatim_cons]
    have hstop : decide (pos + text.length + k + 1 < (Token.mk kind text pos).stop) = false := by
      have hafter : ¬ pos + text.length + k + 1 < pos + text.length := by omega
      exact decide_eq_false hafter
    rw [hstop, Bool.and_false, Bool.false_or]

/-! ## Tokens without comments -/

/-- Tokens without comments, and without marks that stand for blanks where blanks are left out. -/
def codeOf (trims : Bool) (ts : List Token) : List Token :=
  ts.filter fun t => t.kind != .comment && !(trims && t.isBlankMark)

def KeepsToken (trims : Bool) (t t' : Token) : Prop := t'.kind = t.kind ∧ Keeps trims t.kind t.text t'.text

theorem codeOf_blanks {trims : Bool} {junk : List Token} (ts : List Token)
    (h : ∀ t ∈ junk, trims = true ∧ t.isBlankMark = true) : codeOf trims (junk ++ ts) = codeOf trims ts := by
  rw [codeOf, List.filter_append, List.filter_eq_nil_iff.2, List.nil_append]
  · rfl
  · intro t ht
    simp [h t ht]

theorem codeOf_cons {trims : Bool} {t t' : Token} {ts ts' : List Token} (hkind : t'.kind = t.kind)
    (hkeeps : t.kind ≠ .comment → Keeps trims t.kind t.text t'.text)
    (h : List.Forall₂ (KeepsToken trims) (codeOf trims ts) (codeOf trims ts')) :
    List.Forall₂ (KeepsToken trims) (codeOf trims (t :: ts)) (codeOf trims (t' :: ts')) := by
  have hmark : t.kind ≠ .comment → t'.isBlankMark = t.isBlankMark := by
    intro hc
    have hk := hkeeps hc
    rw [Token.isBlankMark, Token.isBlankMark, hkind]
    cases ht : t.kind with
    | mark =>
      rw [ht] at hk
      rw [show t'.text = t.text from hk]
    | _ => rfl
  by_cases hc : t.kind = .comment
  · rw [codeOf, codeOf, List.filter_cons_of_neg (by simp [hc]),
      List.filter_cons_of_neg (by simp [hkind, hc])]
    exact h
  · cases hdrop : trims && t.isBlankMark with
    | true =>
      rw [codeOf, codeOf, List.filter_cons_of_neg (by simp [hdrop]),
        List.filter_cons_of_neg (by simp [hmark hc, hdrop])]
      exact h
    | false =>
      rw [codeOf, codeOf, List.filter_cons_of_pos (by simp [hc, hdrop]),
        List.filter_cons_of_pos (by simp [hkind, hmark hc, hc, hdrop])]
      exact .cons ⟨hkind, hkeeps hc⟩ h

/-! ## A text and the text it becomes -/

/-- The tokens of two texts are the same but for comments and blanks, and the flags say which lines of the
first one begin inside verbatim literals. -/
def Agrees (trims : Bool) (pos : Nat) (ts : List Token) (s : Bytes) (fs : List Bool) (ts' : List Token) :
    Prop :=
  List.Forall₂ (KeepsToken trims) (codeOf trims ts) (codeOf trims ts') ∧
    fs = (lineStarts pos s).map (insideVerbatim ts)

/-- Text without line feeds and without tokens matters to nothing. -/
theorem Agrees.skip {trims : Bool} {pos : Nat} {ts ts' : List Token} {w s : Bytes} {fs : List Bool}
    (hw : Bytes.newline ∉ w) (h : Agrees trims (pos + w.length) ts s fs ts') :
    Agrees trims pos ts (w ++ s) fs ts' := by
  refine ⟨h.1, ?_⟩
  rw [lineStarts_append, lineStarts_of_not_mem _ hw, List.nil_append]
  exact h.2

theorem not_isVerbatim_of_isBlankMark {t : Token} (h : t.isBlankMark = true) : t.isVerbatim = false := by
  have hkind : t.kind = .mark := by
    simp only [Token.isBlankMark, Bool.and_eq_true, beq_iff_eq] at h
    exact h.1
  simp [Token.isVerbatim, hkind]

theorem Agrees.lead {trims : Bool} {pos : Nat} {junk ts ts' : List Token} {g s : Bytes} {fs : List Bool}
    (hg : Bytes.newline ∉ g) (hjunk : ∀ t ∈ junk, trims = true ∧ t.isBlankMark = true)
    (h : Agrees trims (pos + g.length) ts s fs ts') : Agrees trims pos (junk ++ ts) (g ++ s) fs ts' := by
  have hverbatim : ∀ t ∈ junk, t.isVerbatim = false := fun t ht =>
    not_isVerbatim_of_isBlankMark (hjunk t ht).2
  refine Agrees.skip hg ⟨by rw [codeOf_blanks _ hjunk]; exact h.1, ?_⟩
  rw [h.2]
  refine List.map_congr_left fun o _ => ?_
  rw [insideVerbatim_append hverbatim]

theorem Agrees.feed {trims : Bool} {pos : Nat} {ts ts' : List Token} {s : Bytes} {fs : List Bool}
    (hstart : ∀ t ∈ ts, pos + 1 ≤ t.start) (h : Agrees trims (pos + 1) ts s fs ts') :
    Agrees trims pos ts (Bytes.newline :: s) (false :: fs) ts' := by
  refine ⟨h.1, ?_⟩
  rw [lineStarts, if_pos rfl, List.map_cons, insideVerbatim_eq_false hstart, ← h.2]

theorem margin_tokens {trims : Bool} {g s : Bytes} (h : Margin trims g s) (pos : Nat) :
    ∃ junk fresh, tokensFrom pos true (g ++ s) = junk ++ tokensFrom (pos + g.length) fresh s ∧
      (∀ t ∈ junk, trims = true ∧ t.isBlankMark = true) ∧ (fresh = true ∨ AtBreak s) := by
  rcases h with hg | ⟨rfl, hg, -, hbreak⟩
  · exact ⟨[], true, by rw [tokensFrom_gaps hg]; rfl, by simp, .inl rfl⟩
  · obtain ⟨junk, fresh, heq, hjunk⟩ := tokensFrom_blank hg s pos true
    exact ⟨junk, fresh, heq, fun t ht => ⟨rfl, hjunk t ht⟩, .inr hbreak⟩

theorem AtBreak.cons {c : UInt8} {s : Bytes} (h : AtBreak (c :: s)) (hc : c ≠ Bytes.newline) :
    c = 0x0D ∧ AtBreak s := by
  rcases h with (h | h) | ⟨s', h⟩
  · cases h
  · exact absurd (Option.some.inj h) hc
  · obtain ⟨rfl, rfl⟩ := List.cons.inj h
    exact ⟨rfl, .inl (.inr rfl)⟩

theorem agrees_blank {u : Bytes} (hu : Blank u) (pos pos' : Nat) (fresh fresh' : Bool) :
    Agrees true pos (tokensFrom pos fresh u) u
      (List.replicate (u.count Bytes.newline) (Mode.code == .verbatim)) (tokensFrom pos' fresh' []) := by
  obtain ⟨junk, f, heq, hjunk⟩ := tokensFrom_blank hu [] pos fresh
  rw [List.append_nil, tokensFrom_nil, List.append_nil] at heq
  rw [heq, tokensFrom_nil]
  refine ⟨?_, ?_⟩
  · have hcode : codeOf true (junk ++ []) = codeOf true [] := codeOf_blanks [] fun t ht => ⟨rfl, hjunk t ht⟩
    rw [List.append_nil] at hcode
    rw [hcode]
    exact .nil
  · rw [← length_lineStarts pos u, Eq.comm, List.eq_replicate_iff]
    refine ⟨by rw [List.length_map], fun x hx => ?_⟩
    obtain ⟨o, -, rfl⟩ := List.mem_map.1 hx
    have hnone : insideVerbatim (junk ++ []) o = insideVerbatim [] o :=
      insideVerbatim_append (fun t ht => not_isVerbatim_of_isBlankMark (hjunk t ht)) o
    rw [List.append_nil] at hnone
    exact hnone

/-- **The walk agrees with the scanner.** Where a layout leaves all tokens alone, the text that it gives has
the tokens of the text it is given, and the walk finds the lines that begin inside verbatim literals. -/
theorem Tracked.agrees {trims : Bool} {s : Bytes} {may : Bool} {fs : List Bool} {t : Bytes}
    {fresh fresh' : Bool} {pos : Nat} (pos' : Nat) (h : Tracked trims .code may s fs t)
    (hfresh : fresh = fresh' ∨ AtBreak s) (hheld : ∀ x ∈ tokensFrom pos fresh s, Held trims x) :
    Agrees trims pos (tokensFrom pos fresh s) s fs (tokensFrom pos' fresh' t) := by
  match s with
  | [] =>
    obtain ⟨rfl, rfl⟩ := h.eq_nil rfl
    rw [tokensFrom_nil, tokensFrom_nil]
    exact ⟨.nil, rfl⟩
  | c :: s =>
    rcases tokensFrom_cases pos fresh c s with ⟨hc, heq⟩ | ⟨hc, kind, b, r, rfl, hlex, heq⟩
    · rw [heq] at hheld ⊢
      rcases h.cons_cases with ⟨g, g', s', fs', t', rfl, rfl, rfl, rfl, -, hg, hg', h'⟩ |
        ⟨e, s', t', m', rfl, rfl, -, hline, -, hstride, h'⟩ | ⟨_, _, _, _, -, rfl, -⟩ |
        ⟨z, s', rfl, rfl, hindent, hz, rfl, hbreak, hend, h'⟩ | ⟨s', rfl, rfl, rfl, h'⟩ |
        ⟨rfl, hu, -, rfl, rfl⟩
      · -- the next line, under another indentation
        have hn := (Tracked.margin_parts hg).2
        obtain ⟨junk, f, hjunk, hblank, hf⟩ := margin_tokens hg (pos + 1)
        rw [show (fresh || Bytes.newline == Bytes.newline) = true by simp, hjunk] at hheld ⊢
        have ih := Tracked.agrees (pos' + 1 + g'.length) h' hf
          fun x hx => hheld x (List.mem_append_right _ hx)
        rw [tokensFrom_newline, tokensFrom_gaps hg']
        refine (ih.lead hn hblank).feed fun t ht => ?_
        rw [← hjunk] at ht
        exact (le_start_of_mem ht).1
      · -- a blank that stays
        have hne : c ≠ Bytes.newline := fun hc => hline (by simp [hc])
        have hgap : isGap c = true := by
          simp only [isBlankByte, Bool.or_eq_true, beq_iff_eq] at hc
          exact hc.resolve_left hne
        obtain ⟨rfl, hlength⟩ := Prod.mk.inj (hstride.symm.trans (stride_gap hgap _).1)
        obtain rfl := List.eq_nil_of_length_eq_zero hlength
        have hkeep : (fresh || c == Bytes.newline) = fresh := by simp [hne]
        rw [hkeep] at hheld ⊢
        rw [List.nil_append, List.nil_append, tokensFrom_gap _ _ _ hgap]
        exact (Tracked.agrees _ h' (hfresh.imp_right fun hb => (hb.cons hne).2) hheld).skip (w := [c])
          (by simpa using hne.symm)
      · cases hc
      · -- blanks at the end of the line
        have hne := ne_newline_of_isIndent hindent
        have hkeep : (fresh || c == Bytes.newline) = fresh := by simp [hne]
        rw [hkeep, tokensFrom_gaps (isGapText_of_isIndent hz)] at hheld ⊢
        refine Agrees.skip (w := c :: z) ?_ ?_
        · intro hn
          rcases List.mem_cons.1 hn with rfl | hn
          · exact hne rfl
          · exact ne_newline_of_isIndent (hz _ hn) rfl
        · rw [show pos + (c :: z).length = pos + 1 + z.length by rw [List.length_cons]; omega]
          exact Tracked.agrees _ h' (.inr hbreak) hheld
      · rw [show (fresh || (0x0D : UInt8) == Bytes.newline) = fresh by cases fresh <;> rfl] at hheld ⊢
        exact (Tracked.agrees _ h' (.inr (.inl (.inr rfl))) hheld).skip (w := [0x0D]) (by decide)
      · rw [← heq]
        exact agrees_blank hu pos pos' fresh fresh'
    · obtain rfl : fresh = fresh' := by
        refine hfresh.resolve_right fun hbreak => ?_
        obtain ⟨rfl, -⟩ := hbreak.cons (by rintro rfl; cases hc)
        cases hc
      rw [heq] at hheld ⊢
      have hfirst := hheld _ List.mem_cons_self
      obtain ⟨b', r', fs', may', rfl, hlex', hkeeps, rfl, h'⟩ := h.token hc hlex
        ⟨hfirst.opener, hfirst.line, hfirst.ends, hfirst.directive, hfirst.closed, hfirst.flush⟩
      have ih := Tracked.agrees (pos' + (c :: b').length) h' (.inl rfl)
        fun x hx => hheld x (List.mem_cons_of_mem _ hx)
      rw [tokensFrom_token pos' fresh hc hlex']
      refine ⟨codeOf_cons rfl hkeeps ih.1, ?_⟩
      rw [← List.cons_append, inside_token hfirst.ends, ← ih.2]
      rfl
termination_by s.length
decreasing_by
  all_goals
    subst_vars
    simp only [List.length_append, List.length_cons]
    omega

end Flowsmith.FlowClass
