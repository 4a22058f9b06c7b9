import Flowsmith.Proofs.FlowClass.Laid
import Flowsmith.Proofs.Source.Reheaded
import Mathlib.Order.Bounds.Defs

/-!
# Declarations under another indentation

A declaration that is carried over keeps its tokens, and the lines that lie in verbatim literals; all other
lines move by the same amount.

* `lineOffsets` : where the lines of a text begin;
* `verbatimLines_eq` : the lines that the walk takes to begin inside verbatim literals do so;
* `codeTokens` : kinds and texts of tokens, without comments;
* `reindent_carries` : what becomes of a declaration.
-/

namespace Flowsmith.FlowClass

open Source

/-! ## Where the lines of a text begin -/

/-- The offsets at which lines begin that lie one after the other. -/
def lineOffsets (pos : Nat) : List Bytes → List Nat
  | [] => []
  | l :: ls => pos :: lineOffsets (pos + l.length + 1) ls

theorem lineOffsets_lines (pos : Nat) (s : Bytes) : lineOffsets pos s.lines = pos :: lineStarts pos s := by
  unfold Bytes.lines
  induction s generalizing pos with
  | nil => rfl
  | cons c s ih =>
    rw [Bytes.splitOn, lineStarts]
    split
    · rw [lineOffsets, ih]
      rfl
    · split
      · rename_i hnil
        exact absurd hnil (Bytes.splitOn_ne_nil _ _)
      · rename_i part parts hparts
        have h := ih (pos + 1)
        rw [hparts, lineOffsets, List.cons.injEq] at h
        rw [lineOffsets, List.length_cons, ← h.2, show pos + (part.length + 1) + 1
          = pos + 1 + part.length + 1 by omega]

theorem lines_ne_nil (s : Bytes) : s.lines ≠ [] := Bytes.splitOn_ne_nil _ _

theorem length_lineOffsets (pos : Nat) (ls : List Bytes) : (lineOffsets pos ls).length = ls.length := by
  induction ls generalizing pos with
  | nil => rfl
  | cons l ls ih => rw [lineOffsets, List.length_cons, List.length_cons, ih]

/-- A text without carriage returns and its lines. -/
theorem splitLines_eq {s : Bytes} (h : (0x0D : UInt8) ∉ s) : splitLines s = s.lines := by
  have hsame : lineFed true (s ++ []) = s ++ lineFed true [] := Tracked.lineFed_append h
  rw [lineFed_nil, List.append_nil] at hsame
  rw [splitLines, show s.replaceAll "\r\n" "\n" = s from hsame]

/-! ## The walk and the scanner -/

theorem getLast?_closedVerbatim {b : Bytes} (h : ClosedVerbatim b) : b.getLast? = some '"'.toUInt8 := by
  induction h with
  | quote => rfl
  | pair h ih => rw [List.getLast?_cons_cons, List.getLast?_cons, ih]; rfl
  | byte _ h ih => rw [List.getLast?_cons, ih]; rfl

theorem parts_of_string {t : Token} {c : UInt8} {b r : Bytes} {fresh : Bool} (htext : t.text = c :: b)
    (hlex : lexeme fresh c (b ++ r) = (t.kind, b.length)) (hkind : t.kind = .string) :
    ∃ p b', (c :: p, t.isVerbatim) ∈ stringOpeners ∧ b = p ++ b' ∧
      stringRest t.isVerbatim (b' ++ r) = b'.length := by
  have hsize : stringSize? c (b ++ r) = some b.length := by
    rw [hkind] at hlex
    cases lexed_of_lexeme hlex with
    | string hk => exact hk
  obtain ⟨p, v, b, hp, rfl, hrest⟩ := string_parts hsize
  have hv : t.isVerbatim = v := by
    obtain ⟨kind, text, start⟩ := t
    obtain rfl : kind = .string := hkind
    obtain rfl : text = c :: p ++ b := htext
    exact isVerbatim_opener hp start
  exact ⟨p, b, by rwa [hv], rfl, by rwa [hv]⟩

theorem kind_of_isVerbatim {t : Token} (h : t.isVerbatim = true) : t.kind = .string := by
  simp only [Token.isVerbatim, Bool.and_eq_true, beq_iff_eq] at h
  exact h.1

/-- The last byte of a verbatim literal, when it is closed or something follows it. -/
theorem getLast?_verbatim {t : Token} {c : UInt8} {b r : Bytes} {fresh : Bool} (htext : t.text = c :: b)
    (hlex : lexeme fresh c (b ++ r) = (t.kind, b.length)) (hverbatim : t.isVerbatim = true)
    (hends : literalEnds t.text = true ∨ r ≠ []) : t.text.getLast? = some '"'.toUInt8 := by
  obtain ⟨p, b, hp, rfl, hrest⟩ := parts_of_string htext hlex (kind_of_isVerbatim hverbatim)
  rw [hverbatim] at hp hrest
  have hclosed : verbatimEnds b = true := by
    rcases hends with hends | hr
    · rwa [htext, ← List.cons_append, literalEnds_opener hp] at hends
    · exact verbatimEnds_of_size hr hrest
  rw [htext, ← List.cons_append, List.getLast?_append,
    getLast?_closedVerbatim (closedVerbatim_of_size hclosed hrest).1]
  rfl

/-- Where a layout leaves all tokens alone, the walk finds the lines that begin inside verbatim literals. -/
theorem verbatimLines_of_held {src : Bytes} (hreturn : (0x0D : UInt8) ∉ src)
    (hheld : ∀ t ∈ tokens src, Held false t) :
    verbatimLines src.lines = (lineOffsets 0 src.lines).map (insideVerbatim (tokens src)) := by
  have hsplit : Split src (src.lines ++ []) := by
    rw [List.append_nil, ← splitLines_eq hreturn]
    exact split_splitLines src
  obtain ⟨fs, hfs, -, hflags⟩ := agrees_of_laid (laidLines_refl false src.lines) (lines_ne_nil src) hsplit
    (fun _ => hreturn) (.inl rfl) hheld
  rw [hfs rfl, List.append_nil] at hflags
  rw [verbatimLines, verbatimLinesFrom_eq (lines_ne_nil src), hflags, lineOffsets_lines, List.map_cons,
    insideVerbatim_eq_false fun t ht => Nat.zero_le _]
  rfl

/-- **The lines that the walk takes to begin inside verbatim literals do so,** and it finds all of them. -/
theorem verbatimLines_eq {src : Bytes} (hreturn : (0x0D : UInt8) ∉ src)
    (hclosed : ∀ t ∈ tokens src, t.isTerminated = true)
    (hdirective : ∀ t ∈ tokens src, t.kind ≠ .directive)
    (hopener : ∀ t ∈ tokens src, ¬ ("@$\"" : Bytes) <+: t.text)
    (hline : ∀ t ∈ tokens src, t.kind = .string ∨ t.kind = .character → t.isVerbatim = false →
      Bytes.newline ∉ t.text) :
    verbatimLines src.lines = (lineOffsets 0 src.lines).map (insideVerbatim (tokens src)) := by
  refine verbatimLines_of_held hreturn fun t ht => ?_
  obtain ⟨a, c, b, r, fresh, -, htext, -, -, hlex⟩ := exists_lexeme_of_mem ht
  refine ⟨hopener t ht, hline t ht, fun hv => ?_, fun hd => absurd hd (hdirective t ht), by simp, by simp⟩
  rw [getLast?_verbatim htext hlex hv (.inl (hclosed t ht))]
  decide

/-- A declaration with a literal over lines that holds quotes, a comment that holds one, and a literal that
holds the opener of another. -/
def quoting : Bytes :=
  "string F() \x7b\n  // it's \"\n  var s = $@\"a \"\"\n  b\n\"; /* @\"\n */\n  return s + \"@\\\"\";\n\x7d"

theorem verbatimLines_quoting : ((0x0D : UInt8) ∉ quoting ∧
    (∀ t ∈ tokens quoting, t.isTerminated = true) ∧
    (∀ t ∈ tokens quoting, t.kind ≠ .directive) ∧
    (∀ t ∈ tokens quoting, ¬ ("@$\"" : Bytes) <+: t.text) ∧
    ∀ t ∈ tokens quoting, t.kind = .string ∨ t.kind = .character → t.isVerbatim = false →
      Bytes.newline ∉ t.text) ∧
    verbatimLines quoting.lines = (lineOffsets 0 quoting.lines).map (insideVerbatim (tokens quoting)) ∧
    verbatimLines quoting.lines = [false, false, false, true, true, false, false, false] := by
  have h : (0x0D : UInt8) ∉ quoting ∧
      (∀ t ∈ tokens quoting, t.isTerminated = true) ∧
      (∀ t ∈ tokens quoting, t.kind ≠ .directive) ∧
      (∀ t ∈ tokens quoting, ¬ ("@$\"" : Bytes) <+: t.text) ∧
      ∀ t ∈ tokens quoting, t.kind = .string ∨ t.kind = .character → t.isVerbatim = false →
        Bytes.newline ∉ t.text := by
    rw [quoting, Bytes.ofString_ofList]
    decide +kernel
  have hlines : verbatimLines quoting.lines = [false, false, false, true, true, false, false, false] := by
    rw [quoting, Bytes.ofString_ofList]
    decide +kernel
  exact ⟨h, verbatimLines_eq h.1 h.2.1 h.2.2.1 h.2.2.2.1 h.2.2.2.2, hlines⟩

/-- A literal that the walk does not know by its opener. -/
def dollarInside : Bytes := "@$\"a\n  b\""

theorem verbatimLines_dollarInside : (0x0D : UInt8) ∉ dollarInside ∧
    (∀ t ∈ tokens dollarInside, t.isTerminated = true ∧ t.kind ≠ .directive) ∧
    verbatimLines dollarInside.lines = [false, false] ∧
    (lineOffsets 0 dollarInside.lines).map (insideVerbatim (tokens dollarInside)) = [false, true] := by
  rw [dollarInside, Bytes.ofString_ofList]
  decide +kernel

/-! ## The tokens of plain text -/

/-- A line feed in a literal with backslash escapes follows a backslash. -/
theorem escape_of_quoted {quote : UInt8} {b r : Bytes} (hq : quote ≠ Bytes.newline)
    (hsize : quotedSize quote (b ++ r) = b.length) (hn : Bytes.newline ∈ b) :
    ['\\'.toUInt8, Bytes.newline] <:+: b := by
  match b with
  | [] => cases hn
  | [c] =>
    obtain rfl := List.mem_singleton.1 hn
    rw [List.singleton_append, quotedSize_cons _ (by decide), if_neg (Ne.symm hq), if_pos rfl] at hsize
    cases hsize
  | c :: d :: b =>
    by_cases hescape : c = '\\'.toUInt8
    · subst hescape
      by_cases hd : d = Bytes.newline
      · subst hd
        exact ⟨[], b, rfl⟩
      · have hb : Bytes.newline ∈ b := by
          rcases List.mem_cons.1 hn with h | h
          · exact absurd h (by decide)
          · exact (List.mem_cons.1 h).resolve_left (Ne.symm hd)
        obtain ⟨p, q, hpq⟩ := escape_of_quoted hq (by simpa [quotedSize] using hsize) hb
        exact ⟨'\\'.toUInt8 :: d :: p, q, by rw [← hpq]; rfl⟩
    · rw [List.cons_append, quotedSize_cons _ hescape] at hsize
      split at hsize
      · simp at hsize
      · split at hsize
        · cases hsize
        · rename_i hc
          rw [List.length_cons, Nat.add_right_cancel_iff] at hsize
          have hb : Bytes.newline ∈ d :: b := (List.mem_cons.1 hn).resolve_left (Ne.symm hc)
          obtain ⟨p, q, hpq⟩ := escape_of_quoted hq hsize hb
          exact ⟨c :: p, q, by rw [List.cons_append, List.cons_append, hpq]⟩
termination_by b.length

/-- A text of one-byte characters in which the walk misses no literal: without carriage returns and
preprocessor lines, without the opener that the walk does not know, without literals that go on over the end
of their line by a backslash, and with no blank at its end. -/
structure Plain (src : Bytes) : Prop where
  ascii : ∀ c ∈ src, c < 0x80
  noReturn : (0x0D : UInt8) ∉ src
  noSharp : '#'.toUInt8 ∉ src
  noOpener : ¬ ("@$\"" : Bytes) <:+: src
  noEscape : ¬ ['\\'.toUInt8, Bytes.newline] <:+: src
  noBlank : ∀ c, src.getLast? = some c → isBlankByte c = false

/-- A layout leaves the tokens of such a text alone. -/
theorem Plain.held {src : Bytes} (h : Plain src) : ∀ t ∈ tokens src, Held false t := by
  intro t ht
  obtain ⟨a, c, b, r, fresh, rfl, htext, -, -, hlex⟩ := exists_lexeme_of_mem ht
  have hinfix : t.text <:+: a ++ c :: (b ++ r) := ⟨a, r, by rw [htext]; simp⟩
  have hsharp : t.kind = .directive → c = '#'.toUInt8 := by
    intro hk
    rw [hk] at hlex
    cases lexed_of_lexeme hlex with
    | directive hc => exact hc
  have hescape : ∀ p b₁ q, t.text = p ++ b₁ → quotedSize q (b₁ ++ r) = b₁.length → q ≠ Bytes.newline →
      Bytes.newline ∉ p → Bytes.newline ∉ t.text := by
    intro p b₁ q hp hsize hq hnp hn
    rw [hp] at hn
    have hb : Bytes.newline ∈ b₁ := (List.mem_append.1 hn).resolve_left hnp
    refine h.noEscape ((escape_of_quoted hq hsize hb).trans (List.IsInfix.trans ⟨p, [], ?_⟩ hinfix))
    rw [hp, List.append_nil]
  refine ⟨fun hp => h.noOpener (hp.isInfix.trans hinfix), ?_, fun hv hlast => ?_, fun hk => ?_, by simp,
    by simp⟩
  · rintro (hk | hk) hv hn
    · obtain ⟨p, b, hp, rfl, hsize⟩ := parts_of_string htext hlex hk
      rw [hv] at hp hsize
      exact hescape (c :: p) b '"'.toUInt8 htext hsize (by decide) (Tracked.opener_bytes hp).1 hn
    · rw [hk] at hlex
      cases lexed_of_lexeme hlex with
      | character hquote hsize =>
        subst hquote
        exact hescape ['\''.toUInt8] b '\''.toUInt8 htext hsize (by decide) (by decide) hn
  · -- a literal that ends the text
    by_cases hr : r = []
    · subst hr
      rw [htext] at hlast
      have hsrc : (a ++ c :: (b ++ [])).getLast? = some Bytes.newline := by
        rw [List.append_nil, List.getLast?_append, hlast]
        rfl
      exact absurd (h.noBlank _ hsrc) (by decide)
    · rw [getLast?_verbatim htext hlex hv (.inr hr)] at hlast
      exact absurd (Option.some.inj hlast) (by decide)
  · exact absurd (by rw [hsharp hk]; simp) h.noSharp

/-! ## Lines under another indentation -/

theorem trimEndWhile_of_last {p : UInt8 → Bool} {s : Bytes} (h : ∀ c, s.getLast? = some c → p c = false) :
    trimEndWhile p s = s := by
  rw [trimEndWhile]
  cases hs : s.reverse with
  | nil => simpa using hs.symm
  | cons c r =>
    have hlast : s.getLast? = some c := by rw [← List.head?_reverse, hs]; rfl
    rw [List.dropWhile_cons_of_neg (by simp [h c hlast]), ← hs, List.reverse_reverse]

theorem mem_lines {s : Bytes} {ls : List Bytes} (h : Split s ls) :
    ∀ l ∈ ls, ∀ c ∈ l, c ∈ s ∧ c ≠ Bytes.newline := by
  have hne : ∀ {l : Bytes}, Bytes.newline ∉ l → ∀ c ∈ l, c ≠ Bytes.newline := by
    rintro l hl c hc rfl
    exact hl hc
  induction h with
  | last hl =>
    intro l hmem c hc
    obtain rfl := List.mem_singleton.1 hmem
    exact ⟨hc, hne hl c hc⟩
  | line hl he _ ih =>
    intro l hmem c hc
    rcases List.mem_cons.1 hmem with rfl | hmem
    · exact ⟨by simp [hc], hne hl c hc⟩
    · exact ⟨by simp [(ih l hmem c hc).1], (ih l hmem c hc).2⟩

theorem isBlankByte_of_blank {u : Bytes} (hu : Blank u) (hascii : ∀ c ∈ u, c < 0x80) :
    ∀ c ∈ u, isBlankByte c = true := by
  induction hu with
  | nil => simp
  | @unit e u he _ ih =>
    have hform := isBlankForm_of_mem he
    match e, hform with
    | [c], hc =>
      intro x hx
      rcases List.mem_cons.1 hx with rfl | hx
      · exact hc
      · exact ih (fun y hy => hascii y (List.mem_cons_of_mem _ hy)) x hx
    | a :: b :: r, hform =>
      simp only [isBlankForm, Bool.and_eq_true, decide_eq_true_eq] at hform
      exact absurd (hascii a (by simp)) (UInt8.not_lt.2 hform.1.1.1.1)

theorem blankSize_blank {c : UInt8} (hc : isBlankByte c = true) (s : Bytes) :
    Text.blankSize (c :: s) = 1 := by
  have hone : ∀ e ∈ Text.blankEncodings, e.head?.all (fun c => !isBlankByte c || e.length == 1) = true := by
    decide
  unfold Text.blankSize
  split
  · rename_i e he
    have hall := hone e (List.mem_of_find?_eq_some he)
    have hprefix := List.find?_some he
    obtain ⟨r, hr⟩ := List.isPrefixOf_iff_prefix.1 hprefix
    cases e with
    | nil => cases isBlankForm_of_mem (List.mem_of_find?_eq_some he)
    | cons d e =>
      obtain ⟨rfl, -⟩ := List.cons.inj hr
      simpa [hc] using hall
  · rename_i hnone
    rw [List.find?_eq_none] at hnone
    exact absurd (List.isPrefixOf_iff_prefix.2 ⟨s, rfl⟩) (hnone _ (mem_blankEncodings hc))

theorem isBlank_of_bytes {s : Bytes} (h : ∀ c ∈ s, isBlankByte c = true) : s.isBlank = true := by
  rw [Bytes.isBlank, List.isEmpty_iff, Bytes.trimStart]
  induction s with
  | nil => rw [Text.dropUnits]
  | cons c s ih =>
    rw [Text.dropUnits, blankSize_blank (h c List.mem_cons_self)]
    exact ih fun x hx => h x (List.mem_cons_of_mem _ hx)

theorem laid_indentLine {pad l : Bytes} (hpad : IsGapText pad) (n : Nat)
    (hl : ∀ c ∈ l, c < 0x80 ∧ c ≠ Bytes.newline) {m : Mode} (hm : m ≠ .verbatim) :
    Laid false m l (indentLine pad (trimIndent n l)) := by
  obtain ⟨g, hline, hg⟩ := trimIndent_eq n l
  unfold indentLine
  split
  · rename_i hblank
    have hall : IsGapText l := by
      intro c hc
      have hbyte : isBlankByte c = true := by
        rw [hline] at hc
        rcases List.mem_append.1 hc with hc | hc
        · exact isBlankByte_of_isGap (hg c hc)
        · refine isBlankByte_of_blank (blank_of_isBlank hblank) (fun x hx => (hl x ?_).1) c hc
          rw [hline]
          exact List.mem_append_right _ hx
      simp only [isBlankByte, Bool.or_eq_true, beq_iff_eq] at hbyte
      exact hbyte.resolve_left (hl c hc).2
    have h : Laid false m (l ++ [] ++ []) ([] ++ []) :=
      .indented hm hall (by simp [IsGapText]) (by simp) fun _ => rfl
    simpa using h
  · have h : Laid false m (g ++ trimIndent n l ++ []) (pad ++ trimIndent n l) :=
      .indented hm hg hpad (by simp) fun _ => rfl
    rwa [List.append_nil, ← hline] at h

/-- Kinds and texts of tokens, without comments. -/
def codeTokens (ts : List Token) : List (TokenKind × Bytes) :=
  (ts.filter (·.kind != .comment)).map fun t => (t.kind, t.text)

theorem codeTokens_eq {ts ts' : List Token}
    (h : List.Forall₂ (KeepsToken false) (codeOf false ts) (codeOf false ts')) :
    codeTokens ts' = codeTokens ts := by
  have hcode : ∀ ts : List Token, codeOf false ts = ts.filter (·.kind != .comment) := fun ts =>
    List.filter_congr fun t _ => by simp
  rw [codeTokens, codeTokens, ← hcode, ← hcode]
  generalize codeOf false ts = us at h
  generalize codeOf false ts' = us' at h
  induction h with
  | nil => rfl
  | @cons t t' _ _ ht _ ih =>
    rw [List.map_cons, List.map_cons, ih]
    congr 1
    obtain ⟨hkind, hkeeps⟩ := ht
    rw [hkind]
    congr 1
    cases hk : t.kind with
    | directive =>
      rw [hk] at hkeeps
      obtain ⟨z, -, htext, hz⟩ := hkeeps
      rw [htext, hz rfl, List.append_nil]
    | _ =>
      rw [hk] at hkeeps
      exact hkeeps

/-! ## Declarations -/

/-- The lines of a text with the offsets at which they begin. -/
def placedLines (src : Bytes) : List (Bytes × Nat) := src.lines.zip (lineOffsets 0 src.lines)

/-- The lines that another indentation moves: those after the first that are not blank and begin outside of
verbatim literals. -/
def movedLines (src : Bytes) : List Bytes :=
  (((placedLines src).drop 1).filter fun l => !insideVerbatim (tokens src) l.2 && !l.1.isBlank).map (·.1)

def movedLine (src pad : Bytes) (strip : Nat) (l : Bytes × Nat) : Bytes :=
  if insideVerbatim (tokens src) l.2 then l.1 else indentLine pad (trimIndent strip l.1)

theorem zip_map_flags (ls : List Bytes) (os : List Nat) (p : Nat → Bool) :
    ls.zip (os.map p) = (ls.zip os).map fun l => (l.1, p l.2) := by
  rw [List.zip_map_right]
  rfl

theorem placedLines_eq (src : Bytes) :
    ∃ first rest, src.lines = first :: rest ∧
      placedLines src = (first, 0) :: rest.zip (lineStarts 0 src) := by
  obtain ⟨first, rest, hlines⟩ := List.exists_cons_of_ne_nil (lines_ne_nil src)
  refine ⟨first, rest, hlines, ?_⟩
  rw [placedLines, lineOffsets_lines, hlines, List.zip_cons_cons]

theorem isBlankByte_of_isTrailing {c : UInt8} (h : isTrailing c = true) : isBlankByte c = true := by
  simp only [isTrailing, Bool.or_eq_true, beq_iff_eq] at h
  rcases h with ((rfl | rfl) | rfl) | rfl <;> decide

/-- The amount by which lines move is that of the lines that are not blank. -/
theorem commonIndent_codeLines (src : Bytes) (rest : List (Bytes × Nat)) :
    commonIndent (codeLines (rest.map fun l => (l.1, insideVerbatim (tokens src) l.2)))
      = commonIndent ((rest.filter fun l => !insideVerbatim (tokens src) l.2 && !l.1.isBlank).map (·.1)) := by
  have hsame : ∀ rest : List (Bytes × Nat),
      (codeLines (rest.map fun l => (l.1, insideVerbatim (tokens src) l.2))).filter (!Bytes.isBlank ·)
        = ((rest.filter fun l => !insideVerbatim (tokens src) l.2 && !l.1.isBlank).map (·.1)).filter
          (!Bytes.isBlank ·) := by
    intro rest
    induction rest with
    | nil => rfl
    | cons l rest ih =>
      rw [codeLines] at ih ⊢
      cases hin : insideVerbatim (tokens src) l.2 <;> cases hb : l.1.isBlank <;> simp_all
  rw [commonIndent, commonIndent, hsame]

theorem reindent_eq {text : Bytes} (pad : Bytes) (h : Plain text) (column : Nat) :
    ∃ first rest, placedLines text = first :: rest ∧
      reindent text column pad = (pad ++ first.1.dropWhile isIndent) ::
        rest.map (movedLine text pad (min column (commonIndent (movedLines text)))) := by
  have htrim : trimEndWhile isTrailing text = text := trimEndWhile_of_last fun c hc => by
    cases ht : isTrailing c with
    | false => rfl
    | true => exact (isBlankByte_of_isTrailing ht).symm.trans (h.noBlank c hc)
  obtain ⟨first, rest, -, hplaced⟩ := placedLines_eq text
  have hflags : flagLines text.lines = (placedLines text).map fun l =>
    (l.1, insideVerbatim (tokens text) l.2) := by
    rw [flagLines, verbatimLines_of_held h.noReturn h.held, zip_map_flags]
    rfl
  have hmoved : movedLines text = ((rest.zip (lineStarts 0 text)).filter fun l =>
      !insideVerbatim (tokens text) l.2 && !l.1.isBlank).map (·.1) := by
    rw [movedLines, hplaced]
    rfl
  refine ⟨_, _, hplaced, ?_⟩
  rw [reindent, htrim, splitLines_eq h.noReturn, hflags, hplaced, List.map_cons]
  simp only [commonIndent_codeLines, ← hmoved, List.map_map]
  rfl

theorem codeTokens_reindent {text pad : Bytes} (h : Plain text) (hpad : IsGapText pad) (column : Nat) :
    codeTokens (tokens (Bytes.joinWith [Bytes.newline] (reindent text column pad)))
      = codeTokens (tokens text) := by
  have htrim : trimEndWhile isTrailing text = text := trimEndWhile_of_last fun c hc => by
    cases ht : isTrailing c with
    | false => rfl
    | true => exact (isBlankByte_of_isTrailing ht).symm.trans (h.noBlank c hc)
  have hsplit : Split text (text.lines ++ []) := by
    rw [List.append_nil, ← splitLines_eq h.noReturn]
    exact split_splitLines text
  have hlaid : LaidLines false .code text.lines (reindent text column pad) := by
    rw [reindent, htrim, splitLines_eq h.noReturn]
    obtain ⟨first, rest, hlines, -⟩ := placedLines_eq text
    have hmem : ∀ l ∈ rest, ∀ c ∈ l, c < 0x80 ∧ c ≠ Bytes.newline := by
      intro l hl c hc
      rw [List.append_nil] at hsplit
      have hin := mem_lines hsplit l (by rw [hlines]; exact List.mem_cons_of_mem _ hl) c hc
      exact ⟨h.ascii c hin.1, hin.2⟩
    rw [hlines, flagLines, verbatimLines, verbatimLinesFrom, List.zip_cons_cons]
    refine .cons ?_ (laidLines_zip (fun l hl m hm => ?_) fun l => rfl)
    · have hfirst : Laid false .code (first.takeWhile isIndent ++ first.dropWhile isIndent ++ [])
          (pad ++ first.dropWhile isIndent) :=
        .indented (by decide) (isGapText_of_isIndent fun c hc => List.mem_takeWhile_imp hc) hpad (by simp)
          fun _ => rfl
      rwa [List.append_nil, List.takeWhile_append_dropWhile] at hfirst
    · exact laid_indentLine hpad _ (hmem l hl) hm
  obtain ⟨fs, -, hagrees, -⟩ := agrees_of_laid hlaid (lines_ne_nil text) hsplit (fun _ => h.noReturn) (.inl rfl)
    h.held
  exact codeTokens_eq hagrees

theorem mem_placedLines {src : Bytes} {l : Bytes × Nat} (h : l ∈ placedLines src) : l.1 ∈ src.lines :=
  (List.of_mem_zip h).1

theorem not_isBlank_of_mem_movedLines {src l : Bytes} (h : l ∈ movedLines src) : l.isBlank = false := by
  obtain ⟨p, hp, rfl⟩ := List.mem_map.1 h
  have hall := (List.mem_filter.1 hp).2
  simp only [Bool.and_eq_true, Bool.not_eq_true'] at hall
  exact hall.2

theorem isLeast_commonIndent {src l : Bytes} (h : l ∈ movedLines src) :
    IsLeast {k | ∃ l ∈ movedLines src, indentOf l = k} (commonIndent (movedLines src)) := by
  have hfilter : (movedLines src).filter (!Bytes.isBlank ·) = movedLines src :=
    List.filter_eq_self.2 fun l hl => by simp [not_isBlank_of_mem_movedLines hl]
  rw [commonIndent, hfilter]
  cases hmin : ((movedLines src).map indentOf).min? with
  | none =>
    rw [List.min?_eq_none_iff, List.map_eq_nil_iff] at hmin
    rw [hmin] at h
    cases h
  | some k =>
    obtain ⟨hmem, hle⟩ := List.min?_eq_some_iff.1 hmin
    refine ⟨List.mem_map.1 hmem, ?_⟩
    rintro j ⟨l', hl', rfl⟩
    exact hle _ (List.mem_map_of_mem hl')

/-- A line of one-byte characters that is not blank is not blank without its indentation. -/
theorem not_isBlank_trimIndent {l : Bytes} (n : Nat) (hl : ∀ c ∈ l, c < 0x80) (h : l.isBlank = false) :
    (trimIndent n l).isBlank = false := by
  cases hb : (trimIndent n l).isBlank with
  | false => rfl
  | true =>
    obtain ⟨g, hline, hg⟩ := trimIndent_eq n l
    have hall : l.isBlank = true := isBlank_of_bytes fun c hc => by
      rw [hline] at hc
      rcases List.mem_append.1 hc with hc | hc
      · exact isBlankByte_of_isGap (hg c hc)
      · refine isBlankByte_of_blank (blank_of_isBlank hb) (fun x hx => hl x ?_) c hc
        rw [hline]
        exact List.mem_append_right _ hx
    rw [h] at hall
    cases hall

theorem movedLine_eq {src l : Bytes} {o : Nat} (pad : Bytes) (column : Nat) (hsrc : Plain src)
    (hmem : (l, o) ∈ (placedLines src).drop 1) (hcode : insideVerbatim (tokens src) o = false)
    (hblank : l.isBlank = false) :
    ∃ k, IsLeast {k | ∃ l ∈ movedLines src, indentOf l = k} k ∧ min column k ≤ indentOf l ∧
      movedLine src pad (min column (commonIndent (movedLines src))) (l, o)
        = pad ++ l.drop (min column k) := by
  have hmoved : l ∈ movedLines src :=
    List.mem_map.2 ⟨(l, o), List.mem_filter.2 ⟨hmem, by simp [hcode, hblank]⟩, rfl⟩
  have hleast := isLeast_commonIndent hmoved
  have hle : min column (commonIndent (movedLines src)) ≤ indentOf l :=
    Nat.le_trans (Nat.min_le_right _ _) (hleast.2 ⟨l, hmoved, rfl⟩)
  refine ⟨_, hleast, hle, ?_⟩
  have hascii : ∀ c ∈ l, c < 0x80 := by
    intro c hc
    have hsplit := split_splitLines src
    rw [splitLines_eq hsrc.noReturn] at hsplit
    exact hsrc.ascii c (mem_lines hsplit l (mem_placedLines (List.mem_of_mem_drop hmem)) c hc).1
  have htrim := not_isBlank_trimIndent (min column (commonIndent (movedLines src))) hascii hblank
  rw [movedLine, if_neg (by simp [hcode]), indentLine, if_neg (by simp [htrim]), trimIndent,
    Nat.min_eq_left hle]

/-- **A declaration under another indentation.** It keeps its tokens; its lines that begin inside verbatim
literals stay as they are, and all others after the first that are not blank lose the same amount of their
indentation, the column of the declaration but no more than they all have, and stand behind the new one. -/
theorem reindent_carries {text : Bytes} (h : Plain text) (column n : Nat) :
    codeTokens (tokens (Bytes.joinWith [Bytes.newline] (reindent text column (Bytes.spaces n))))
        = codeTokens (tokens text) ∧
      (reindent text column (Bytes.spaces n)).length = text.lines.length ∧
      ∀ (i : Nat) (l : Bytes) (o : Nat), (placedLines text)[i]? = some (l, o) →
        (insideVerbatim (tokens text) o = true →
          (reindent text column (Bytes.spaces n))[i]? = some l) ∧
        (0 < i → insideVerbatim (tokens text) o = false → l.isBlank = false →
          ∃ k, IsLeast {k | ∃ l ∈ movedLines text, indentOf l = k} k ∧ min column k ≤ indentOf l ∧
            (reindent text column (Bytes.spaces n))[i]?
              = some (Bytes.spaces n ++ l.drop (min column k))) := by
  obtain ⟨first, rest, hplaced, hout⟩ := reindent_eq (Bytes.spaces n) h column
  refine ⟨codeTokens_reindent h (isGapText_spaces n) column, ?_, fun i l o hi => ?_⟩
  · have hlength : (placedLines text).length = text.lines.length := by
      rw [placedLines, List.length_zip, length_lineOffsets, Nat.min_self]
    rw [← hlength, hout, hplaced, List.length_cons, List.length_cons, List.length_map]
  · cases i with
    | zero =>
      obtain ⟨f, r, -, hfirst⟩ := placedLines_eq text
      rw [hfirst] at hi
      obtain ⟨rfl, rfl⟩ := Prod.mk.inj (Option.some.inj hi)
      have hout : insideVerbatim (tokens text) 0 = false := insideVerbatim_eq_false fun t _ => Nat.zero_le _
      refine ⟨fun hin => ?_, fun hpos => absurd hpos (Nat.lt_irrefl 0)⟩
      rw [hout] at hin
      cases hin
    | succ i =>
      have hrest : rest[i]? = some (l, o) := by
        rwa [hplaced, List.getElem?_cons_succ] at hi
      have hmem : (l, o) ∈ (placedLines text).drop 1 := by
        rw [hplaced]
        exact List.mem_of_getElem? hrest
      rw [hout, List.getElem?_cons_succ, List.getElem?_map, hrest, Option.map_some]
      refine ⟨fun hin => ?_, fun _ hcode hblank => ?_⟩
      · rw [movedLine, if_pos hin]
      · obtain ⟨k, hleast, hle, heq⟩ := movedLine_eq (Bytes.spaces n) column h hmem hcode hblank
        exact ⟨k, hleast, hle, congrArg some heq⟩

theorem reindent_carries_quoting : Plain quoting ∧
    codeTokens (tokens (Bytes.joinWith [Bytes.newline] (reindent quoting 2 (Bytes.spaces 4))))
      = codeTokens (tokens quoting) ∧
    reindent quoting 2 (Bytes.spaces 4)
      = ["    string F() \x7b", "      // it's \"", "      var s = $@\"a \"\"", "  b", "\"; /* @\"", "     */",
        "      return s + \"@\\\"\";", "    \x7d"] := by
  have h : Plain quoting := by
    rw [quoting, Bytes.ofString_ofList]
    refine ⟨?_, ?_, ?_, ?_, ?_, ?_⟩ <;> decide +kernel
  refine ⟨h, (reindent_carries h 2 4).1, ?_⟩
  rw [quoting]
  repeat rw [Bytes.ofString_ofList]
  decide +kernel

end Flowsmith.FlowClass
