import Flowsmith.FlowClass.Render
import Flowsmith.Proofs.Source.Reads
import Mathlib.Data.List.Forall2
import Mathlib.Data.List.TakeWhile

/-!
# Tokens of carried-over text

A layout changes the blanks of a text and nothing else, so the text keeps its tokens.

* `Split` : a text and its lines;
* `Relaid` : a line and the line it becomes;
* `lines_reindent` : a declaration under an indentation reads as it did;
* `lines_blockLines` : so does the body of a block.
-/

namespace Flowsmith.FlowClass

open Source (Token Blank IsGapText Respaced Lines tokensFrom textEnds isGap)

/-! ## Indentation -/

theorem isGap_of_isIndent {c : UInt8} (h : isIndent c = true) : isGap c = true := by
  simp only [isIndent, Bool.or_eq_true, beq_iff_eq] at h
  rcases h with rfl | rfl <;> decide

theorem isGapText_of_isIndent {s : Bytes} (h : ∀ c ∈ s, isIndent c = true) : IsGapText s :=
  fun c hc => isGap_of_isIndent (h c hc)

theorem isGapText_spaces (n : Nat) : IsGapText (Bytes.spaces n) := fun c hc => by
  rw [List.eq_of_mem_replicate hc]
  decide

theorem isGapText_append {g g' : Bytes} (h : IsGapText g) (h' : IsGapText g') : IsGapText (g ++ g') :=
  fun c hc => (List.mem_append.1 hc).elim (h c) (h' c)

/-! ## Lines -/

/-- What ends a line in front of its line feed: a carriage return, when there is one. -/
def LineEnd (l e : Bytes) : Prop := (e = [] ∧ l.getLast? ≠ some 0x0D) ∨ e = [0x0D]

theorem LineEnd.blank {l e : Bytes} (h : LineEnd l e) : Blank e := by
  rcases h with ⟨rfl, -⟩ | rfl
  · exact .nil
  · exact IsGapText.blank (g := [0x0D]) (by simp [IsGapText, isGap])

/-- A text and its lines, which end with a line feed or with a carriage return and a line feed. -/
inductive Split : Bytes → List Bytes → Prop where
  | last {l : Bytes} (hl : Bytes.newline ∉ l) : Split l [l]
  | line {l e s : Bytes} {ls : List Bytes} (hl : Bytes.newline ∉ l) (he : LineEnd l e)
      (h : Split s ls) : Split (l ++ e ++ Bytes.newline :: s) (l :: ls)

theorem Split.cons {c : UInt8} {s l : Bytes} {ls : List Bytes} (hc : c ≠ Bytes.newline)
    (hreturn : c = 0x0D → s.head? ≠ some Bytes.newline) (h : Split s (l :: ls)) :
    Split (c :: s) ((c :: l) :: ls) := by
  generalize hls : l :: ls = ls₀ at h
  cases h with
  | last hl =>
    obtain ⟨rfl, rfl⟩ := List.cons.inj hls
    exact .last (by simp [hl, hc.symm])
  | line hl he h =>
    obtain ⟨rfl, rfl⟩ := List.cons.inj hls
    refine .line (l := c :: l) (by simp [hl, hc.symm]) (he.imp_left fun hend => ⟨hend.1, ?_⟩) h
    obtain ⟨rfl, hlast⟩ := hend
    cases l with
    | nil => exact fun h => hreturn (Option.some.inj h) rfl
    | cons d l => rwa [List.getLast?_cons_cons]

theorem split_splitLines (s : Bytes) : Split s (splitLines s) := by
  unfold splitLines Bytes.lines
  fun_induction Bytes.replaceAll s "\r\n" "\n" with
  | case1 => exact .last (by simp)
  | case2 c rest h ih =>
    rw [Bool.and_eq_true, List.isPrefixOf_iff_prefix] at h
    obtain ⟨r, hr⟩ := h.1
    obtain ⟨rfl, rfl⟩ : c = 0x0D ∧ rest = Bytes.newline :: r := by
      have hr' : (0x0D : UInt8) :: Bytes.newline :: r = c :: rest := hr
      exact ⟨(List.cons.inj hr').1.symm, (List.cons.inj hr').2.symm⟩
    exact .line (l := []) (e := [0x0D]) (by simp) (Or.inr rfl) ih
  | case3 c rest hpair ih =>
    by_cases hc : c = Bytes.newline
    · subst hc
      rw [Bytes.splitOn, if_pos rfl]
      exact .line (l := []) (e := []) (by simp) (Or.inl ⟨rfl, by simp⟩) ih
    · rw [Bytes.splitOn, if_neg hc]
      split
      · rename_i hnil
        exact absurd hnil (Bytes.splitOn_ne_nil _ _)
      · rename_i part parts hparts
        rw [hparts] at ih
        refine ih.cons hc fun hreturn hhead => hpair ?_
        obtain ⟨r, rfl⟩ := List.head?_eq_some_iff.1 hhead
        rw [hreturn]
        rfl

/-- A line that gets another indentation and loses blanks at its end. -/
def Relaid (line out : Bytes) : Prop :=
  ∃ g x z g', line = g ++ x ++ z ∧ out = g' ++ x ∧ IsGapText g ∧ Blank z ∧ IsGapText g'

theorem relaid_self (line : Bytes) : Relaid line line :=
  ⟨[], line, [], [], by simp, rfl, by simp [IsGapText], .nil, by simp [IsGapText]⟩

theorem relaid_blank {line : Bytes} (h : Blank line) : Relaid line [] :=
  ⟨[], [], line, [], by simp, rfl, by simp [IsGapText], h, by simp [IsGapText]⟩

theorem relaid_indent {g x z g' : Bytes} (hg : IsGapText g) (hz : IsGapText z) (hg' : IsGapText g') :
    Relaid (g ++ x ++ z) (g' ++ x) :=
  ⟨g, x, z, g', rfl, rfl, hg, hz.blank, hg'⟩

theorem joinWith_cons {sep s : Bytes} {ss : List Bytes} (h : ss ≠ []) :
    Bytes.joinWith sep (s :: ss) = s ++ sep ++ Bytes.joinWith sep ss := by
  obtain ⟨t, ts, rfl⟩ := List.exists_cons_of_ne_nil h
  rfl

theorem rawLines_eq {ls : List Bytes} (h : ls ≠ []) :
    rawLines ls = Bytes.joinWith [Bytes.newline] ls ++ [Bytes.newline] := by
  induction ls with
  | nil => exact absurd rfl h
  | cons l ls ih =>
    by_cases hnil : ls = []
    · subst hnil
      simp [rawLines, Bytes.joinWith]
    · rw [joinWith_cons hnil, List.append_assoc, ← ih hnil]
      rfl

/-- Lines that get another indentation are the same text but for its blanks. -/
theorem respaced_of_split {s : Bytes} {ls outs : List Bytes} (hs : Split s ls)
    (hr : List.Forall₂ Relaid ls outs) :
    outs ≠ [] ∧ ∃ g g' s' t', s = g ++ s' ∧ Bytes.joinWith [Bytes.newline] outs = g' ++ t' ∧
      IsGapText g ∧ IsGapText g' ∧ Respaced true s' t' := by
  induction hs generalizing outs with
  | @last l hl =>
    cases hr with
    | cons hline hnil =>
      cases hnil
      obtain ⟨g, x, z, g', rfl, rfl, hg, hz, hg'⟩ := hline
      simp only [List.mem_append, not_or] at hl
      refine ⟨by simp, g, g', x ++ z, x, by simp, rfl, hg, hg', ?_⟩
      have := Respaced.bytes hl.1.2 (Respaced.last hz : Respaced true z [])
      rwa [List.append_nil] at this
  | @line l e s ls hl he hs ih =>
    cases hr with
    | @cons _ out _ outs hline hrest =>
      obtain ⟨g, x, z, g', rfl, rfl, hg, hz, hg'⟩ := hline
      obtain ⟨hne, g₁, g₁', s', t', rfl, hout, hg₁, hg₁', h⟩ := ih hrest
      simp only [List.mem_append, not_or] at hl
      have hu : Blank (z ++ e) := hz.append he.blank
      refine ⟨by simp, g, g', x ++ ((z ++ e ++ Bytes.newline :: g₁) ++ s'),
        x ++ (Bytes.newline :: g₁' ++ t'), by simp, ?_, hg, hg', .bytes hl.1.2 (.run (.lines hu hg₁ hg₁') h)⟩
      rw [joinWith_cons hne, hout]
      simp

/-- Lines that get another indentation read as they did; blanks that follow them may be left out. -/
theorem lines_relaid {s u : Bytes} {ls outs : List Bytes} (hs : Split s ls)
    (hr : List.Forall₂ Relaid ls outs) (hu : Blank u) (pos : Nat)
    (hends : ∀ x ∈ tokensFrom pos true (s ++ u), textEnds x.text = true) :
    Lines (rawLines outs) (tokensFrom pos true (s ++ u)) := by
  obtain ⟨hne, g, g', s', t', rfl, hout, hg, hg', h⟩ := respaced_of_split hs hr
  rw [rawLines_eq hne, hout]
  simp only [List.append_assoc] at hends ⊢
  rw [Source.tokensFrom_gaps hg] at hends ⊢
  obtain ⟨hthin, hclosed⟩ := Source.tokensFrom_respaced (h.append_blank hu) (pos + g.length) 0
    (show Source.Flags true true true from rfl) fun x hx => ⟨hends x hx, fun hl => by cases hl⟩
  intro r
  exact (Source.reads_gap hg' true _).append ((Source.lines_closed hclosed r).thin hthin)

/-! ## Declarations -/

theorem length_verbatimLinesFrom (mode : Mode) (ls : List Bytes) :
    (verbatimLinesFrom mode ls).length = ls.length := by
  induction ls generalizing mode with
  | nil => rfl
  | cons l ls ih => rw [verbatimLinesFrom, List.length_cons, List.length_cons, ih]

theorem forall₂_flagLines {f : Bytes × Bool → Bytes} (hf : ∀ l b, Relaid l (f (l, b)))
    (ls : List Bytes) (flags : List Bool) (h : flags.length = ls.length) :
    List.Forall₂ Relaid ls ((ls.zip flags).map f) := by
  induction ls generalizing flags with
  | nil => exact .nil
  | cons l ls ih =>
    cases flags with
    | nil => cases h
    | cons b flags => exact .cons (hf l b) (ih flags (Nat.succ.inj h))

theorem trimIndent_eq (n : Nat) (line : Bytes) :
    ∃ g, line = g ++ trimIndent n line ∧ IsGapText g := by
  refine ⟨line.take (min n (indentOf line)), (List.take_append_drop _ _).symm, ?_⟩
  refine isGapText_of_isIndent fun c hc => ?_
  have hsub : line.take (min n (indentOf line)) <+: line.takeWhile isIndent := by
    refine List.prefix_of_prefix_length_le (List.take_prefix _ _) (List.takeWhile_prefix _) ?_
    rw [List.length_take]
    exact Nat.le_trans (Nat.min_le_left _ _) (Nat.min_le_right _ _)
  exact List.mem_takeWhile_imp (hsub.subset hc)

theorem trimEndWhile_eq (p : UInt8 → Bool) (s : Bytes) :
    ∃ w, s = trimEndWhile p s ++ w ∧ ∀ c ∈ w, p c = true := by
  refine ⟨(s.reverse.takeWhile p).reverse, ?_, fun c hc => ?_⟩
  · rw [trimEndWhile, ← List.reverse_append, List.takeWhile_append_dropWhile, List.reverse_reverse]
  · exact List.mem_takeWhile_imp (List.mem_reverse.1 hc)

theorem relaid_indentLine {pad g x z : Bytes} (hpad : IsGapText pad) (hg : IsGapText g)
    (hz : IsGapText z) : Relaid (g ++ x ++ z) (indentLine pad x) := by
  unfold indentLine
  split
  · rename_i hblank
    exact relaid_blank ((hg.blank.append (Source.blank_of_isBlank hblank)).append hz.blank)
  · exact relaid_indent hg hz hpad

theorem relaid_trimIndent {pad : Bytes} (hpad : IsGapText pad) (n : Nat) (line : Bytes) :
    Relaid line (indentLine pad (trimIndent n line)) := by
  obtain ⟨g, hline, hg⟩ := trimIndent_eq n line
  have h := relaid_indentLine (x := trimIndent n line) (z := []) hpad hg (by simp [IsGapText])
  rwa [List.append_nil, ← hline] at h

theorem relaid_trimBoth {pad : Bytes} (hpad : IsGapText pad) (n : Nat) (line : Bytes) :
    Relaid line (indentLine pad (trimEndWhile isIndent (trimIndent n line))) := by
  obtain ⟨g, hline, hg⟩ := trimIndent_eq n line
  obtain ⟨z, htrim, hz⟩ := trimEndWhile_eq isIndent (trimIndent n line)
  have h := relaid_indentLine (x := trimEndWhile isIndent (trimIndent n line)) hpad hg
    (isGapText_of_isIndent hz)
  rwa [List.append_assoc, ← htrim, ← hline] at h

/-- **A declaration under an indentation reads as it did.** -/
theorem lines_reindent {text pad : Bytes} (column : Nat) (hpad : IsGapText pad) (pos : Nat)
    (hends : ∀ x ∈ tokensFrom pos true text, textEnds x.text = true) :
    Lines (rawLines (reindent text column pad)) (tokensFrom pos true text) := by
  obtain ⟨w, htext, hw⟩ := trimEndWhile_eq isTrailing text
  have hblank : Blank w := by
    have hbyte : ∀ c, isTrailing c = true → Source.isBlankByte c = true := by
      intro c hc
      simp only [isTrailing, Bool.or_eq_true, beq_iff_eq] at hc
      rcases hc with ((rfl | rfl) | rfl) | rfl <;> decide
    exact Source.blank_of_bytes fun c hc => hbyte c (hw c hc)
  have hsplit := split_splitLines (trimEndWhile isTrailing text)
  have hlines : List.Forall₂ Relaid (splitLines (trimEndWhile isTrailing text))
      (reindent text column pad) := by
    unfold reindent flagLines verbatimLines
    cases hls : splitLines (trimEndWhile isTrailing text) with
    | nil => exact .nil
    | cons l ls =>
      simp only [verbatimLinesFrom, List.zip_cons_cons]
      refine .cons ?_ (forall₂_flagLines (fun l b => ?_) ls _ (length_verbatimLinesFrom _ ls))
      · have hl := relaid_indent (g := l.takeWhile isIndent) (x := l.dropWhile isIndent) (z := [])
          (isGapText_of_isIndent fun c hc => List.mem_takeWhile_imp hc) (by simp [IsGapText]) hpad
        rwa [List.append_nil, List.takeWhile_append_dropWhile] at hl
      · cases b with
        | true => exact relaid_self l
        | false => exact relaid_trimIndent hpad _ l
  have hread := lines_relaid hsplit hlines hblank pos
  rw [← htext] at hread
  exact hread hends

/-! ## Blocks -/

theorem Split.blank {s : Bytes} {ls : List Bytes} (h : Split s ls)
    (hb : ∀ l ∈ ls, Bytes.isBlank l = true) : Blank s := by
  induction h with
  | last _ => exact Source.blank_of_isBlank (hb _ List.mem_cons_self)
  | @line l e s ls _ he _ ih =>
    have hl := Source.blank_of_isBlank (hb _ List.mem_cons_self)
    have hs := ih fun x hx => hb x (List.mem_cons_of_mem _ hx)
    have hend : Blank (e ++ [Bytes.newline]) :=
      he.blank.append (Source.blank_of_bytes (by decide +kernel))
    have := (hl.append hend).append hs
    simpa using this

/-- Blank lines at the beginning are blanks up to a line feed. -/
theorem Split.dropWhile {s : Bytes} {ls : List Bytes} (h : Split s ls) :
    (∀ l ∈ ls, Bytes.isBlank l = true) ∨
    ∃ u s', s = u ++ s' ∧ Split s' (ls.dropWhile Bytes.isBlank) ∧
      (u = [] ∨ ∃ u', u = u' ++ [Bytes.newline] ∧ Blank u') := by
  induction h with
  | @last l hl =>
    cases hb : Bytes.isBlank l with
    | true => exact Or.inl (by simpa using hb)
    | false =>
      refine Or.inr ⟨[], l, rfl, ?_, Or.inl rfl⟩
      rw [List.dropWhile_cons_of_neg (by simp [hb])]
      exact .last hl
  | @line l e s ls hl he hs ih =>
    cases hb : Bytes.isBlank l with
    | false =>
      refine Or.inr ⟨[], _, rfl, ?_, Or.inl rfl⟩
      rw [List.dropWhile_cons_of_neg (by simp [hb])]
      exact .line hl he hs
    | true =>
      rw [List.dropWhile_cons_of_pos hb]
      have hfirst : Blank (l ++ e) := (Source.blank_of_isBlank hb).append he.blank
      rcases ih with hall | ⟨u, s', rfl, hs', hu⟩
      · refine Or.inl fun x hx => ?_
        rcases List.mem_cons.1 hx with rfl | hx
        · exact hb
        · exact hall x hx
      · refine Or.inr ⟨l ++ e ++ Bytes.newline :: u, s', by simp, hs', Or.inr ?_⟩
        rcases hu with rfl | ⟨u', rfl, hu'⟩
        · exact ⟨l ++ e, rfl, hfirst⟩
        · refine ⟨l ++ e ++ [Bytes.newline] ++ u', by simp, ?_⟩
          exact (hfirst.append (Source.blank_of_bytes (by decide +kernel))).append hu'

theorem Split.append {s : Bytes} {ls ls' : List Bytes} (h : Split s (ls ++ ls')) (hne : ls ≠ [])
    (hb : ∀ l ∈ ls', Bytes.isBlank l = true) : ∃ s' u, s = s' ++ u ∧ Split s' ls ∧ Blank u := by
  induction ls generalizing s with
  | nil => exact absurd rfl hne
  | cons l ls ih =>
    generalize hls : l :: ls ++ ls' = ls₀ at h
    cases h with
    | @last l₀ hl =>
      obtain ⟨rfl, hnil⟩ := List.cons.inj hls
      obtain ⟨rfl, rfl⟩ := List.append_eq_nil_iff.1 hnil
      exact ⟨_, [], by simp, .last hl, .nil⟩
    | @line l₀ e s ls₁ hl he hs =>
      obtain ⟨rfl, rfl⟩ := List.cons.inj hls
      by_cases hnil : ls = []
      · subst hnil
        refine ⟨l, e ++ Bytes.newline :: s, by simp, .last hl, ?_⟩
        have hend : Blank (e ++ [Bytes.newline]) :=
          he.blank.append (Source.blank_of_bytes (by decide +kernel))
        have := hend.append (hs.blank hb)
        simpa using this
      · obtain ⟨s', u, rfl, hs', hu⟩ := ih hs hnil
        exact ⟨l ++ e ++ Bytes.newline :: s', u, by simp, .line hl he hs', hu⟩

theorem trimBlock_eq (ls : List Bytes) :
    ∃ after, ls.dropWhile Bytes.isBlank = trimBlock ls ++ after ∧
      ∀ l ∈ after, Bytes.isBlank l = true := by
  refine ⟨((ls.dropWhile Bytes.isBlank).reverse.takeWhile Bytes.isBlank).reverse, ?_, fun l hl => ?_⟩
  · rw [trimBlock, ← List.reverse_append, List.takeWhile_append_dropWhile, List.reverse_reverse]
  · exact List.mem_takeWhile_imp (List.mem_reverse.1 hl)

theorem rawLines_blockLines_of_blank {body : Bytes} (pad : Bytes)
    (h : trimBlock (splitLines body) = []) : rawLines (blockLines body pad) = [] := by
  unfold blockLines
  rw [h]
  rfl

theorem lines_blank {u : Bytes} (hu : Blank u) (pos : Nat) : Lines [] (tokensFrom pos true u) :=
  fun r => (Source.reads_nil true r).thin (by
    have := (Source.thin_loose hu.loose pos 0 true true).1
    rwa [Source.tokensFrom_nil] at this)

/-- **The body of a block under an indentation reads as it did.** -/
theorem lines_blockLines {body pad : Bytes} (hpad : IsGapText pad) (pos : Nat)
    (hends : ∀ x ∈ tokensFrom pos true body, textEnds x.text = true) :
    Lines (rawLines (blockLines body pad)) (tokensFrom pos true body) := by
  have hsplit := split_splitLines body
  obtain ⟨after, hafter, hblank⟩ := trimBlock_eq (splitLines body)
  rcases hsplit.dropWhile with hall | ⟨u, s, rfl, hs, hu⟩
  · have hnil : trimBlock (splitLines body) = [] := by
      unfold trimBlock
      rw [List.dropWhile_eq_nil_iff.2 hall]
      rfl
    rw [rawLines_blockLines_of_blank pad hnil]
    exact lines_blank (hsplit.blank hall) pos
  · rw [hafter] at hs
    by_cases hnil : trimBlock (splitLines (u ++ s)) = []
    · rw [rawLines_blockLines_of_blank pad hnil]
      rw [hnil] at hs
      have hlead : Blank u := by
        rcases hu with rfl | ⟨u', rfl, hu'⟩
        · exact .nil
        · exact hu'.append (Source.blank_of_bytes (by decide +kernel))
      exact lines_blank (hlead.append (hs.blank hblank)) pos
    · obtain ⟨s', w, rfl, hs', hw⟩ := hs.append hnil hblank
      have hlines : List.Forall₂ Relaid (trimBlock (splitLines (u ++ (s' ++ w))))
          (blockLines (u ++ (s' ++ w)) pad) := by
        unfold blockLines flagLines verbatimLines
        refine forall₂_flagLines (fun l b => ?_) _ _ (length_verbatimLinesFrom _ _)
        cases b with
        | true => exact relaid_self l
        | false => exact relaid_trimBoth hpad _ l
      obtain ⟨junk, hjunk, hlead⟩ : ∃ junk, (∀ t ∈ junk, t.isJunk = true) ∧
          tokensFrom pos true (u ++ (s' ++ w))
            = junk ++ tokensFrom (pos + u.length) true (s' ++ w) := by
        rcases hu with rfl | ⟨u', rfl, hu'⟩
        · exact ⟨[], by simp, rfl⟩
        · obtain ⟨junk, f, heq, hjunk⟩ := Source.tokensFrom_loose hu'.loose
            (Bytes.newline :: (s' ++ w)) pos true
          refine ⟨junk, fun t ht => (hjunk t ht).1, ?_⟩
          rw [List.append_assoc, List.singleton_append, heq, Source.tokensFrom_newline,
            List.length_append]
          rfl
      rw [hlead] at hends ⊢
      have hread := lines_relaid hs' hlines hw (pos + u.length)
        fun x hx => hends x (List.mem_append_right _ hx)
      exact fun r => (hread r).thin ((Source.thin_refl _).drops hjunk)

end Flowsmith.FlowClass
