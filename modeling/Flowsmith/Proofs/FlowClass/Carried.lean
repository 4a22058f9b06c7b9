import Flowsmith.Proofs.FlowClass.Tracked
import Flowsmith.Proofs.Source.Place

/-!
# Tokens of texts whose lines are laid out anew

Each token of a text is found again in the text it becomes, and the walk that looks for verbatim literals
is in code again after it.

* `Tracked.plains`, `Tracked.quoted`, `Tracked.verbatim`, `Tracked.comment`, `Tracked.restOfLine` : what
  words, literals, comments and the rest of a line become;
* `Tracked.openVerbatim`, `Tracked.openComment` : the same for a literal or a comment the text ends in.
-/

namespace Flowsmith.FlowClass

open Source

/-- A text up to the end of its line, and what follows, are told by the whole. -/
theorem append_inj_of_atEnd {a b r s : Bytes} (ha : Bytes.newline ∉ a) (hb : Bytes.newline ∉ b)
    (hr : AtEnd r) (hs : AtEnd s) (h : a ++ r = b ++ s) : a = b ∧ r = s := by
  induction a generalizing b with
  | nil =>
    cases b with
    | nil => exact ⟨rfl, h⟩
    | cons d b =>
      obtain rfl : r = d :: (b ++ s) := h
      rcases hr with hr | hr
      · cases hr
      · exact absurd (Option.some.inj hr) fun hd => hb (by simp [hd])
  | cons c a ih =>
    cases b with
    | nil =>
      obtain rfl : s = c :: (a ++ r) := h.symm
      rcases hs with hs | hs
      · cases hs
      · exact absurd (Option.some.inj hs) fun hd => ha (by simp [hd])
    | cons d b =>
      obtain ⟨rfl, htail⟩ := List.cons.inj h
      obtain ⟨rfl, hrs⟩ := ih (fun hn => ha (List.mem_cons_of_mem _ hn))
        (fun hn => hb (List.mem_cons_of_mem _ hn)) htail
      exact ⟨rfl, hrs⟩

/-- What stands in front of a line feed, where only blanks stand in front of the end of the line, is
blanks. -/
theorem gaps_of_append {b r z s : Bytes} (hb : Bytes.newline ∉ b) (hz : ∀ c ∈ z, isIndent c = true)
    (hs : AtBreak s) (h : b ++ r = z ++ s) : IsGapText b := by
  induction z generalizing b with
  | nil =>
    cases b with
    | nil => exact fun c hc => absurd hc (by simp)
    | cons c b =>
      obtain rfl : s = c :: (b ++ r) := h.symm
      rcases hs with (hs | hs) | ⟨s', hs⟩
      · cases hs
      · exact absurd (Option.some.inj hs) fun hd => hb (by simp [hd])
      · obtain ⟨rfl, htail⟩ := List.cons.inj hs
        cases b with
        | nil => exact fun c hc => by rw [List.mem_singleton.1 hc]; decide
        | cons d b => exact absurd (List.cons.inj htail).1 fun hd => hb (by simp [hd])
  | cons c z ih =>
    cases b with
    | nil => exact fun c hc => absurd hc (by simp)
    | cons d b =>
      obtain ⟨rfl, htail⟩ := List.cons.inj h
      have hrest := ih (fun hn => hb (List.mem_cons_of_mem _ hn))
        (fun c hc => hz c (List.mem_cons_of_mem _ hc)) htail
      intro c hc
      rcases List.mem_cons.1 hc with rfl | hc
      · exact isGap_of_isIndent (hz c List.mem_cons_self)
      · exact hrest c hc

namespace Tracked

variable {trims may : Bool} {m m' : Mode} {c : UInt8} {s t b r : Bytes} {fs : List Bool}

theorem uncons (h : Tracked trims m may (c :: s) fs t) (hc : isBlankByte c = false)
    (hnote : ¬ OpensNote m c s) :
    ∃ b s' t' m', s = b ++ s' ∧ t = c :: (b ++ t') ∧ Bytes.newline ∉ b ∧
      FlowClass.stride m c s = (m', b.length) ∧ Tracked trims m' may s' fs t' := by
  rcases h.cons_cases with ⟨g, g', s', fs', t', rfl, -⟩ | ⟨b, s', t', m', hs, ht, -, hline, -, hstride, h'⟩ |
    ⟨b, z, s', t', rfl, rfl, rfl, -⟩ | ⟨z, s', -, -, hindent, -⟩ | ⟨s', -, rfl, -⟩ | ⟨-, -, hbreak, -⟩
  · exact absurd hc (by decide)
  · exact ⟨b, s', t', m', hs, ht, fun hn => hline (List.mem_cons_of_mem _ hn), hstride, h'⟩
  · exact absurd ⟨rfl, rfl, rfl⟩ hnote
  · rw [isBlankByte_of_isGap (isGap_of_isIndent hindent)] at hc
    cases hc
  · exact absurd hc (by decide)
  · exact absurd hbreak (not_atBreak hc)

theorem plain (h : Tracked trims m may (c :: s) fs t) (hc : isBlankByte c = false)
    (hnote : ¬ OpensNote m c s) (hstride : FlowClass.stride m c s = (m', 0)) :
    ∃ t', t = c :: t' ∧ Tracked trims m' may s fs t' := by
  obtain ⟨b, s', t', m₁, rfl, rfl, -, hstride', h'⟩ := h.uncons hc hnote
  obtain ⟨rfl, hlength⟩ := Prod.mk.inj (hstride'.symm.trans hstride)
  obtain rfl := List.eq_nil_of_length_eq_zero hlength
  exact ⟨t', rfl, h'⟩

theorem paired {d : UInt8} (h : Tracked trims m may (c :: d :: s) fs t) (hc : isBlankByte c = false)
    (hnote : ¬ OpensNote m c (d :: s)) (hstride : FlowClass.stride m c (d :: s) = (m', 1)) :
    ∃ t', t = c :: d :: t' ∧ Tracked trims m' may s fs t' := by
  obtain ⟨b, s', t', m₁, hs, rfl, -, hstride', h'⟩ := h.uncons hc hnote
  obtain ⟨rfl, hlength⟩ := Prod.mk.inj (hstride'.symm.trans hstride)
  obtain ⟨x, rfl⟩ := List.length_eq_one_iff.1 hlength
  obtain ⟨rfl, rfl⟩ := List.cons.inj hs
  exact ⟨t', rfl, h'⟩

theorem stride_of_beginsPlain (h : beginsPlain c = true) (s : Bytes) :
    FlowClass.stride .code c s = (.code, 0) ∧ ¬ OpensNote .code c s := by
  have hne : ∀ d : UInt8, beginsPlain d = false → c ≠ d := by
    rintro d hd rfl
    rw [h] at hd
    cases hd
  refine ⟨?_, fun hh => hne _ (by decide) hh.2.1⟩
  simp [FlowClass.stride, hne '/'.toUInt8 (by decide), hne '@'.toUInt8 (by decide),
    hne '$'.toUInt8 (by decide), hne '"'.toUInt8 (by decide), hne '\''.toUInt8 (by decide)]

/-- Bytes that are no blanks and begin nothing are what they were. -/
theorem plains (h : Tracked trims .code may (b ++ r) fs t)
    (hb : ∀ x ∈ b, isBlankByte x = false ∧ beginsPlain x = true) :
    ∃ r', t = b ++ r' ∧ Tracked trims .code may r fs r' := by
  induction b generalizing t with
  | nil => exact ⟨t, rfl, h⟩
  | cons c b ih =>
    obtain ⟨hc, hplain⟩ := hb c List.mem_cons_self
    obtain ⟨hstride, hnote⟩ := stride_of_beginsPlain hplain (b ++ r)
    obtain ⟨t', rfl, h'⟩ := h.plain hc hnote hstride
    obtain ⟨r', rfl, hr⟩ := ih h' fun x hx => hb x (List.mem_cons_of_mem _ hx)
    exact ⟨r', rfl, hr⟩

/-! ## Literals with backslash escapes -/

/-- A blank in front of something else on its line is what it was. -/
theorem gap_inside (h : Tracked trims m may (c :: (b ++ r)) fs t) (hc : isGap c = true)
    (hn : Bytes.newline ∉ b) (hb : trims = true → ∃ x ∈ b, isGap x = false) :
    ∃ t', t = c :: t' ∧ Tracked trims m may (b ++ r) fs t' := by
  rcases h.cons_cases with ⟨g, g', s', fs', t', rfl, -⟩ | ⟨b', s', t', m', hs, ht, -, -, -, hstride, h'⟩ |
    ⟨b', z, s', t', rfl, rfl, -⟩ | ⟨z, s', htrims, -, hindent, hz, hs, hbreak, -⟩ | ⟨s', htrims, rfl, hs, -⟩ |
    ⟨htrims, -, hbreak, -⟩
  · exact absurd hc (by decide)
  · obtain ⟨rfl, hlength⟩ := Prod.mk.inj (hstride.symm.trans (stride_gap hc _).1)
    obtain rfl := List.eq_nil_of_length_eq_zero hlength
    obtain rfl : b ++ r = s' := hs
    exact ⟨t', ht, h'⟩
  · exact absurd hc (by decide)
  · obtain ⟨x, hx, hgap⟩ := hb htrims
    rw [gaps_of_append hn hz hbreak hs x hx] at hgap
    cases hgap
  · obtain ⟨x, hx, -⟩ := hb htrims
    cases b with
    | nil => cases hx
    | cons d b => exact absurd (List.cons.inj hs).1 fun hd => hn (by simp [hd])
  · obtain ⟨x, hx, hgap⟩ := hb htrims
    have hn' : Bytes.newline ∉ c :: b := by
      rw [List.mem_cons, not_or]
      exact ⟨fun h => absurd (h ▸ hc) (by decide), hn⟩
    rw [gaps_of_append (z := []) hn' (by simp) hbreak rfl x (List.mem_cons_of_mem _ hx)] at hgap
    cases hgap

/-- The mode of a literal with backslash escapes, and its quote. -/
def Quoted (m : Mode) (quote : UInt8) : Prop :=
  m = .string ∧ quote = '"'.toUInt8 ∨ m = .character ∧ quote = '\''.toUInt8

theorem Quoted.stride_eq {quote : UInt8} (h : Quoted m quote) (c : UInt8) (s : Bytes) :
    FlowClass.stride m c s = quotedStride m quote c s := by
  rcases h with ⟨rfl, rfl⟩ | ⟨rfl, rfl⟩ <;> rfl

theorem Quoted.not_opensNote {quote : UInt8} (h : Quoted m quote) (c : UInt8) (s : Bytes) :
    ¬ OpensNote m c s := by
  rcases h with ⟨rfl, -⟩ | ⟨rfl, -⟩ <;> exact fun hh => absurd hh.1 (by decide)

theorem Quoted.isEscapable {quote : UInt8} (h : Quoted m quote) :
    isEscapable quote = true ∧ isGap quote = false := by
  rcases h with ⟨-, rfl⟩ | ⟨-, rfl⟩ <;> decide

theorem atEnd_of_quotedSize {quote : UInt8} {r : Bytes} (h : quotedSize quote r = 0) : AtEnd r := by
  cases r with
  | nil => exact .inl rfl
  | cons c r =>
    by_cases hescape : c = '\\'.toUInt8
    · subst hescape
      cases r <;> simp [quotedSize] at h
    · rw [quotedSize_cons _ hescape] at h
      split at h
      · cases h
      · split at h
        · rename_i hc
          exact .inr (by rw [hc]; rfl)
        · cases h

/-- A literal that is closed has a byte that is no blank. -/
theorem exists_of_quotedEnds {quote : UInt8} (hq : isGap quote = false) {b : Bytes}
    (h : quotedEnds quote b = true) : ∃ x ∈ b, isGap x = false := by
  induction b with
  | nil => cases h
  | cons c b ih =>
    cases hc : isGap c with
    | false => exact ⟨c, List.mem_cons_self, hc⟩
    | true =>
      have hne : ∀ d : UInt8, isGap d = false → c ≠ d := by
        rintro d hd rfl
        rw [hc] at hd
        cases hd
      rw [quotedEnds_cons _ (hne _ (by decide)), if_neg (hne _ hq),
        if_neg (hne Bytes.newline (by decide))] at h
      obtain ⟨x, hx, hgap⟩ := ih h
      exact ⟨x, List.mem_cons_of_mem _ hx, hgap⟩

/-- A byte of a literal with backslash escapes that is neither a backslash nor the quote. -/
theorem quoted_byte {quote : UInt8} (hq : Quoted m quote)
    (h : Tracked trims m may (c :: (b ++ r)) fs t) (hescape : c ≠ '\\'.toUInt8) (hquote : c ≠ quote)
    (hn : Bytes.newline ∉ c :: b) (hends : trims = true → ∃ x ∈ b, isGap x = false) :
    ∃ t', t = c :: t' ∧ Tracked trims m may (b ++ r) fs t' := by
  simp only [List.mem_cons, not_or] at hn
  cases hc : isBlankByte c with
  | false =>
    refine h.plain hc (hq.not_opensNote _ _) ?_
    rw [hq.stride_eq, quotedStride, if_neg hescape, if_neg hquote]
  | true =>
    have hgap : isGap c = true := by
      simp only [isBlankByte, Bool.or_eq_true, beq_iff_eq] at hc
      exact hc.resolve_left (Ne.symm hn.1)
    exact h.gap_inside hgap hn.2 hends

/-- A backslash in a literal, with the byte after it. -/
theorem quoted_escape {quote d : UInt8} (hq : Quoted m quote)
    (h : Tracked trims m may ('\\'.toUInt8 :: d :: (b ++ r)) fs t) (hn : Bytes.newline ∉ d :: b)
    (hends : trims = true → ∃ x ∈ b, isGap x = false) :
    ∃ t', t = '\\'.toUInt8 :: d :: t' ∧ Tracked trims m may (b ++ r) fs t' := by
  have hsize : FlowClass.stride m '\\'.toUInt8 (d :: (b ++ r))
      = (m, if FlowClass.isEscapable d then 1 else 0) := by
    rw [hq.stride_eq, quotedStride, if_pos rfl, escapeSize, List.head?_cons, Option.any_some]
  cases hd : FlowClass.isEscapable d with
  | true =>
    rw [hd, if_pos rfl] at hsize
    exact h.paired (by decide) (hq.not_opensNote _ _) hsize
  | false =>
    rw [hd, if_neg (by simp)] at hsize
    obtain ⟨t₁, rfl, h₁⟩ := h.plain (by decide) (hq.not_opensNote _ _) hsize
    have hquote : d ≠ quote := by
      rintro rfl
      rw [hq.isEscapable.1] at hd
      cases hd
    obtain ⟨t₂, rfl, h₂⟩ := h₁.quoted_byte hq (ne_of_not_isEscapable hd).2.2 hquote hn hends
    exact ⟨t₂, rfl, h₂⟩

/-- A literal with backslash escapes on one line is what it was. -/
theorem quoted {m : Mode} {quote : UInt8} {b r t : Bytes} (hq : Quoted m quote)
    (h : Tracked trims m may (b ++ r) fs t) (hsize : quotedSize quote (b ++ r) = b.length)
    (hn : Bytes.newline ∉ b) (hends : trims = true → quotedEnds quote b = true) :
    ∃ r', t = b ++ r' ∧ Tracked trims .code may r fs r' := by
  have hgap := hq.isEscapable.2
  match b with
  | [] =>
    refine ⟨t, rfl, h.relax (atEnd_of_quotedSize hsize) ?_⟩
    rcases hq with ⟨rfl, -⟩ | ⟨rfl, -⟩ <;> rfl
  | c :: b =>
    have hn' : Bytes.newline ∉ b := fun hh => hn (List.mem_cons_of_mem _ hh)
    by_cases hescape : c = '\\'.toUInt8
    · subst hescape
      rcases hd : b with _ | ⟨d, b₁⟩
      · -- a backslash that nothing follows
        rw [hd] at h hsize
        obtain rfl : r = [] := by
          cases r with
          | nil => rfl
          | cons d r => simp [quotedSize] at hsize
        obtain ⟨t', rfl, h'⟩ := h.plain (by decide) (hq.not_opensNote _ _) (by
          rw [hq.stride_eq, quotedStride, if_pos rfl]
          rfl)
        obtain ⟨rfl, rfl⟩ := h'.eq_nil rfl
        exact ⟨[], rfl, .nil⟩
      · have hlen : b₁.length < b.length + 1 := by
          rw [hd, List.length_cons]
          omega
        rw [hd] at h hsize hn' hends
        have hends' : trims = true → quotedEnds quote b₁ = true := by
          simpa [quotedEnds] using hends
        obtain ⟨t', rfl, h'⟩ := h.quoted_escape hq hn'
          fun htrims => exists_of_quotedEnds hgap (hends' htrims)
        obtain ⟨r', rfl, hr⟩ := quoted hq h' (by simpa [quotedSize] using hsize)
          (fun hh => hn' (List.mem_cons_of_mem _ hh)) hends'
        exact ⟨r', rfl, hr⟩
    · rw [List.cons_append, quotedSize_cons _ hescape] at hsize
      by_cases hquote : c = quote
      · subst hquote
        rw [if_pos rfl] at hsize
        obtain rfl := List.eq_nil_of_length_eq_zero (by simpa using hsize.symm)
        obtain ⟨t', rfl, h'⟩ := h.plain (by rcases hq with ⟨-, rfl⟩ | ⟨-, rfl⟩ <;> decide)
          (hq.not_opensNote _ _) (by
            rw [hq.stride_eq, quotedStride, if_neg hescape, if_pos rfl])
        exact ⟨t', rfl, h'⟩
      · have hline : c ≠ Bytes.newline := fun hc => hn (by simp [hc])
        rw [if_neg hquote, if_neg hline, List.length_cons, Nat.add_right_cancel_iff] at hsize
        have hends' : trims = true → quotedEnds quote b = true := by
          intro htrims
          have hc := hends htrims
          rwa [quotedEnds_cons _ hescape, if_neg hquote, if_neg hline] at hc
        obtain ⟨t', rfl, h'⟩ := h.quoted_byte hq hescape hquote hn
          fun htrims => exists_of_quotedEnds hgap (hends' htrims)
        obtain ⟨r', rfl, hr⟩ := quoted hq h' hsize hn' hends'
        exact ⟨r', rfl, hr⟩
termination_by b.length
decreasing_by
  all_goals
    simp only [List.length_cons]
    omega

/-! ## Literals in which a quote is written twice -/

end Tracked

/-- A text without the carriage returns in front of its line feeds, when lines may lose them. -/
def lineFed (trims : Bool) (s : Bytes) : Bytes := if trims then s.replaceAll "\r\n" "\n" else s

theorem lineFed_nil (trims : Bool) : lineFed trims [] = [] := by
  cases trims with
  | false => rfl
  | true => exact Bytes.replaceAll.eq_def [] "\r\n" "\n"

theorem lineFed_return (s : Bytes) :
    lineFed true (0x0D :: Bytes.newline :: s) = Bytes.newline :: lineFed true s := by
  change Bytes.replaceAll (0x0D :: Bytes.newline :: s) "\r\n" "\n" = _
  rw [Bytes.replaceAll.eq_def]
  rfl

theorem lineFed_cons {trims : Bool} {c : UInt8} {s : Bytes}
    (h : trims = true → c = 0x0D → s.head? ≠ some Bytes.newline) :
    lineFed trims (c :: s) = c :: lineFed trims s := by
  cases trims with
  | false => rfl
  | true =>
    change Bytes.replaceAll (c :: s) "\r\n" "\n" = c :: Bytes.replaceAll s "\r\n" "\n"
    rw [Bytes.replaceAll.eq_def]
    refine if_neg ?_
    rw [Bool.and_eq_true, List.isPrefixOf_iff_prefix]
    rintro ⟨⟨r, hr⟩, -⟩
    obtain ⟨rfl, rfl⟩ := List.cons.inj (hr : (0x0D : UInt8) :: Bytes.newline :: r = c :: s)
    exact h rfl rfl rfl

theorem lineFed_line (trims : Bool) (s : Bytes) :
    lineFed trims (Bytes.newline :: s) = Bytes.newline :: lineFed trims s :=
  lineFed_cons fun _ hc => absurd hc (by decide)

theorem lineFed_quote (trims : Bool) (s : Bytes) :
    lineFed trims ('"'.toUInt8 :: s) = '"'.toUInt8 :: lineFed trims s :=
  lineFed_cons fun _ hc => absurd hc (by decide)

/-- The text is at a line feed, or at a carriage return in front of one. -/
def atFeed (s : Bytes) : Bool := s.head? == some Bytes.newline || s.take 2 == [0x0D, Bytes.newline]

/-- Neither a space nor a tab ends the first line of a text of several lines. -/
def isFlush : Bytes → Bool
  | [] => true
  | c :: s => c == Bytes.newline || !(isIndent c && atFeed s) && isFlush s

theorem isFlush_quote (s : Bytes) : isFlush ('"'.toUInt8 :: s) = isFlush s := rfl

theorem ne_newline_of_isIndent {c : UInt8} (h : isIndent c = true) : c ≠ Bytes.newline := by
  rintro rfl
  cases h

theorem closedVerbatim_lineFed (trims : Bool) {b : Bytes} (h : ClosedVerbatim b) :
    ClosedVerbatim (lineFed trims b) := by
  induction h with
  | quote =>
    rw [lineFed_quote, lineFed_nil]
    exact .quote
  | pair _ ih =>
    rw [lineFed_quote, lineFed_quote]
    exact .pair ih
  | @byte c b hc _ ih =>
    by_cases hreturn : trims = true ∧ c = 0x0D ∧ b.head? = some Bytes.newline
    · obtain ⟨rfl, rfl, hhead⟩ := hreturn
      obtain ⟨b, rfl⟩ := List.head?_eq_some_iff.1 hhead
      rwa [lineFed_line, ← lineFed_return] at ih
    · rw [lineFed_cons fun htrims hc hhead => hreturn ⟨htrims, hc, hhead⟩]
      exact .byte hc ih

/-- The first line of a literal ends in blanks. -/
theorem not_isFlush {z b r s : Bytes} (hz : ∀ c ∈ z, isIndent c = true) (hne : z ≠ []) (hs : AtBreak s)
    (hb : ClosedVerbatim b) (h : b ++ r = z ++ s) : isFlush b = false := by
  induction z generalizing b with
  | nil => exact absurd rfl hne
  | cons x z ih =>
    have hx := hz x List.mem_cons_self
    have hz' : ∀ c ∈ z, isIndent c = true := fun c hc => hz c (List.mem_cons_of_mem _ hc)
    have hblank : ∀ {c}, isIndent c = true → c ≠ '"'.toUInt8 := by
      rintro c hc rfl
      cases hc
    cases b with
    | nil => exact absurd hb skipsBlanks_closedVerbatim.nil
    | cons y b =>
      obtain ⟨rfl, htail⟩ := List.cons.inj h
      rw [closedVerbatim_cons (hblank hx)] at hb
      rw [isFlush, beq_eq_false_iff_ne.2 (ne_newline_of_isIndent hx), hx, Bool.false_or, Bool.true_and]
      cases z with
      | cons x' z => rw [ih hz' (by simp) hb htail, Bool.and_false]
      | nil =>
        have hfeed : atFeed b = true := by
          cases b with
          | nil => exact absurd hb skipsBlanks_closedVerbatim.nil
          | cons d b =>
            obtain rfl : d :: (b ++ r) = s := htail
            rcases hs with (hs | hs) | ⟨s', hs⟩
            · cases hs
            · rw [atFeed, show (d :: b).head? = some Bytes.newline from hs]
              rfl
            · obtain ⟨rfl, hrest⟩ := List.cons.inj hs
              rw [closedVerbatim_cons (by decide)] at hb
              cases b with
              | nil => exact absurd hb skipsBlanks_closedVerbatim.nil
              | cons e b =>
                obtain ⟨rfl, -⟩ := List.cons.inj hrest
                rfl
        rw [hfeed]
        rfl

namespace Tracked

variable {trims may : Bool} {m : Mode} {c : UInt8} {s t r : Bytes} {fs : List Bool}

theorem stride_verbatim {c : UInt8} (hc : c ≠ '"'.toUInt8) (s : Bytes) :
    FlowClass.stride .verbatim c s = (.verbatim, 0) := by
  rw [FlowClass.stride, if_neg hc]

theorem not_opensNote_verbatim (c : UInt8) (s : Bytes) : ¬ OpensNote .verbatim c s :=
  fun hh => absurd hh.1 (by decide)

theorem verbatim_quote (h : Tracked trims .verbatim may ('"'.toUInt8 :: s) fs t)
    (hs : s.head? ≠ some '"'.toUInt8) : ∃ t', t = '"'.toUInt8 :: t' ∧ Tracked trims .code may s fs t' :=
  h.plain (by decide) (not_opensNote_verbatim _ _) (by rw [FlowClass.stride, if_pos rfl, if_neg hs])

theorem verbatim_pair (h : Tracked trims .verbatim may ('"'.toUInt8 :: '"'.toUInt8 :: s) fs t) :
    ∃ t', t = '"'.toUInt8 :: '"'.toUInt8 :: t' ∧ Tracked trims .verbatim may s fs t' :=
  h.paired (by decide) (not_opensNote_verbatim _ _)
    (by rw [FlowClass.stride, if_pos rfl, List.head?_cons, if_pos rfl])

/-- A byte of such a literal that is no quote: a line feed, another byte that stays, blanks that end the
line, a carriage return in front of a line feed, or one of blanks that end the text. -/
theorem verbatim_byte (h : Tracked trims .verbatim may (c :: s) fs t) (hc : c ≠ '"'.toUInt8) :
    (∃ fs' t', c = Bytes.newline ∧ fs = true :: fs' ∧ t = Bytes.newline :: t' ∧
      Tracked trims .verbatim false s fs' t') ∨
    (∃ t', c ≠ Bytes.newline ∧ (trims = true → c = 0x0D → s.head? ≠ some Bytes.newline) ∧ t = c :: t' ∧
      Tracked trims .verbatim may s fs t') ∨
    (∃ z s', trims = true ∧ may = true ∧ isIndent c = true ∧ (∀ d ∈ z, isIndent d = true) ∧
      s = z ++ s' ∧ AtBreak s') ∨
    (∃ s', trims = true ∧ c = 0x0D ∧ s = Bytes.newline :: s' ∧ Tracked trims .verbatim may s fs t) ∨
    (trims = true ∧ Blank (c :: s)) := by
  rcases h.cons_cases with ⟨g, g', s', fs', t', hline, rfl, hfs, rfl, hg, -, -, h'⟩ |
    ⟨e, s', t', m', rfl, rfl, -, hline, hreturn, hstride, h'⟩ | ⟨_, _, _, _, hm, -⟩ |
    ⟨z, s', htrims, hmay, hindent, hz, hs, hbreak, -⟩ | ⟨s', htrims, hreturn, rfl, h'⟩ | ⟨htrims, hu, -⟩
  · obtain ⟨rfl, rfl⟩ := hg rfl
    refine .inl ⟨fs', t', hline, hfs, rfl, ?_⟩
    rwa [show (trims && Mode.verbatim != .verbatim) = false by simp] at h'
  · rw [stride_verbatim hc] at hstride
    obtain ⟨rfl, hlength⟩ := Prod.mk.inj hstride
    obtain rfl := List.eq_nil_of_length_eq_zero hlength.symm
    exact .inr (.inl ⟨t', fun hc => hline (by simp [hc]), hreturn, rfl, h'⟩)
  · cases hm
  · exact .inr (.inr (.inl ⟨z, s', htrims, hmay, hindent, hz, hs, hbreak⟩))
  · exact .inr (.inr (.inr (.inl ⟨s', htrims, hreturn, rfl, h'⟩)))
  · exact .inr (.inr (.inr (.inr ⟨htrims, hu⟩)))

theorem not_blank_of_closedVerbatim {b : Bytes} (hb : ClosedVerbatim b) (r : Bytes) : ¬ Blank (b ++ r) := by
  intro hu
  obtain ⟨b', -, hb', hnil⟩ := skipsBlanks_closedVerbatim.skip (s := []) hu.parts hb (List.append_nil _)
  obtain ⟨rfl, -⟩ := List.append_eq_nil_iff.1 hnil.symm
  exact skipsBlanks_closedVerbatim.nil hb'

/-- A literal in which a quote is written twice keeps its text, and all lines that begin in it are
found. -/
theorem verbatim {b : Bytes} (hb : ClosedVerbatim b) (hr : r.head? ≠ some '"'.toUInt8) :
    ∀ {may : Bool} {fs : List Bool} {t : Bytes}, Tracked trims .verbatim may (b ++ r) fs t →
      (trims = true → may = true → isFlush b = true) →
      ∃ r' fs' may', t = lineFed trims b ++ r' ∧
        fs = List.replicate (b.count Bytes.newline) true ++ fs' ∧
        Tracked trims .code may' r fs' r' := by
  induction hb with
  | quote =>
    intro may fs t h _
    rw [List.singleton_append] at h
    obtain ⟨t', rfl, h'⟩ := h.verbatim_quote hr
    refine ⟨t', fs, may, ?_, rfl, h'⟩
    rw [lineFed_quote, lineFed_nil]
    rfl
  | @pair b hb ih =>
    intro may fs t h hflush
    rw [List.cons_append, List.cons_append] at h
    obtain ⟨t', rfl, h'⟩ := h.verbatim_pair
    rw [isFlush_quote, isFlush_quote] at hflush
    obtain ⟨r', fs', may', rfl, rfl, hr'⟩ := ih h' hflush
    refine ⟨r', fs', may', ?_, ?_, hr'⟩
    · rw [lineFed_quote, lineFed_quote]
      rfl
    · rw [List.count_cons_of_ne (by decide), List.count_cons_of_ne (by decide)]
  | @byte c b hc hb ih =>
    intro may fs t h hflush
    rw [List.cons_append] at h
    rcases h.verbatim_byte hc with ⟨fs, t, rfl, rfl, rfl, h'⟩ | ⟨t, hne, hreturn, rfl, h'⟩ |
      ⟨z, s', htrims, hmay, hindent, hz, hs, hbreak⟩ | ⟨s', rfl, rfl, hs, h'⟩ | ⟨-, hu⟩
    · obtain ⟨r', fs, may', rfl, rfl, hr'⟩ := ih h' fun _ hmay => (by cases hmay)
      refine ⟨r', fs, may', ?_, ?_, hr'⟩
      · rw [lineFed_line]
        rfl
      · rw [List.count_cons_self, List.replicate_succ]
        rfl
    · obtain ⟨r', fs, may', rfl, rfl, hr'⟩ := ih h' fun htrims hmay => by
        have hall := hflush htrims hmay
        rw [isFlush, beq_eq_false_iff_ne.2 hne, Bool.false_or, Bool.and_eq_true] at hall
        exact hall.2
      refine ⟨r', fs, may', ?_, by rw [List.count_cons_of_ne hne], hr'⟩
      rw [lineFed_cons fun htrims hc hhead => hreturn htrims hc (by rw [List.head?_append, hhead]; rfl)]
      rfl
    · -- the first line ends in no blanks
      have hnot := not_isFlush (z := c :: z) (r := r) (s := s')
        (fun x hx => (List.mem_cons.1 hx).elim (fun h => h ▸ hindent) (hz x)) (by simp) hbreak
        (.byte hc hb) (congrArg (c :: ·) hs)
      rw [hflush htrims hmay] at hnot
      cases hnot
    · obtain ⟨d, b, rfl⟩ := List.exists_cons_of_ne_nil fun hnil =>
        skipsBlanks_closedVerbatim.nil (hnil ▸ hb)
      obtain ⟨rfl, -⟩ := List.cons.inj hs
      obtain ⟨r', fs, may', rfl, rfl, hr'⟩ := ih h' fun htrims hmay => by simp [isFlush]
      refine ⟨r', fs, may', ?_, by rw [List.count_cons_of_ne (b := 0x0D) (by decide)], hr'⟩
      rw [lineFed_return, lineFed_line]
    · exact absurd hu (not_blank_of_closedVerbatim (.byte hc hb) r)

/-- A literal in which a quote is written twice that is not closed keeps its text. -/
theorem openVerbatim {b : Bytes} (hends : verbatimEnds b = false) (hsize : verbatimSize b = b.length) :
    ∀ {may : Bool} {fs : List Bool} {t : Bytes}, Tracked false .verbatim may b fs t →
      t = b ∧ fs = List.replicate (b.count Bytes.newline) true := by
  fun_induction verbatimEnds b with
  | case1 =>
    intro may fs t h
    obtain ⟨rfl, rfl⟩ := h.eq_nil rfl
    exact ⟨rfl, rfl⟩
  | case2 => cases hends
  | case3 b ih =>
    intro may fs t h
    obtain ⟨t', rfl, h'⟩ := h.verbatim_pair
    obtain ⟨rfl, rfl⟩ := ih hends (by simpa [verbatimSize] using hsize) h'
    exact ⟨rfl, by rw [List.count_cons_of_ne (by decide), List.count_cons_of_ne (by decide)]⟩
  | case4 => cases hends
  | case5 c b hc ih =>
    intro may fs t h
    rw [verbatimSize_cons _ hc, List.length_cons, Nat.add_right_cancel_iff] at hsize
    rcases h.verbatim_byte hc with ⟨fs, t, rfl, rfl, rfl, h'⟩ | ⟨t, hne, -, rfl, h'⟩ |
      ⟨_, _, htrims, -⟩ | ⟨_, htrims, -⟩ | ⟨htrims, -⟩
    · obtain ⟨rfl, rfl⟩ := ih hends hsize h'
      refine ⟨rfl, ?_⟩
      rw [List.count_cons_self, List.replicate_succ]
    · obtain ⟨rfl, rfl⟩ := ih hends hsize h'
      exact ⟨rfl, by rw [List.count_cons_of_ne hne]⟩
    · cases htrims
    · cases htrims
    · cases htrims

/-! ## Comments -/

theorem margin_parts {g : Bytes} (h : Margin trims g s) :
    (∀ c ∈ g, isBlankPart c = true) ∧ Bytes.newline ∉ g := by
  rcases h with hg | ⟨-, hg, hn, -⟩
  · exact ⟨hg.parts, fun hn => absurd (hg _ hn) (by decide)⟩
  · exact ⟨hg.parts, hn⟩

theorem stride_comment {c : UInt8} {s : Bytes} (hc : c = '*'.toUInt8 → s.head? ≠ some '/'.toUInt8) :
    FlowClass.stride .comment c s = (.comment, 0) := by
  rw [FlowClass.stride, if_neg fun hh => hc hh.1 hh.2]

theorem not_opensNote_comment (c : UInt8) (s : Bytes) : ¬ OpensNote .comment c s :=
  fun hh => absurd hh.1 (by decide)

/-- A byte of a comment that does not end it: a line feed, another byte that stays, blanks that are left
out in front of a line feed, or one of blanks that end the text. -/
theorem comment_byte (h : Tracked trims .comment may (c :: s) fs t)
    (hmark : c = '*'.toUInt8 → s.head? ≠ some '/'.toUInt8) :
    (∃ g g' s' fs' t', c = Bytes.newline ∧ s = g ++ s' ∧ fs = false :: fs' ∧
      t = Bytes.newline :: (g' ++ t') ∧ ((∀ x ∈ g, isBlankPart x = true) ∧ Bytes.newline ∉ g) ∧
      IsGapText g' ∧ Tracked trims .comment trims s' fs' t') ∨
    (∃ t', c ≠ Bytes.newline ∧ t = c :: t' ∧ Tracked trims .comment may s fs t') ∨
    (∃ z s', trims = true ∧ c ≠ Bytes.newline ∧ s = z ++ s' ∧
      ((∀ x ∈ z, isBlankPart x = true) ∧ Bytes.newline ∉ z) ∧ Tracked trims .comment may s' fs t) ∨
    (trims = true ∧ Blank (c :: s)) := by
  rcases h.cons_cases with ⟨g, g', s', fs', t', hline, hs, hfs, ht, -, hg, hg', h'⟩ |
    ⟨e, s', t', m', rfl, rfl, -, hline, -, hstride, h'⟩ | ⟨_, _, _, _, hm, -⟩ |
    ⟨z, s', htrims, rfl, hindent, hz, hs, -, -, h'⟩ | ⟨s', htrims, rfl, rfl, h'⟩ | ⟨htrims, hu, -⟩
  · refine .inl ⟨g, g', s', fs', t', hline, hs, hfs, ht, margin_parts hg, hg', ?_⟩
    rwa [show (trims && Mode.comment != .verbatim) = trims by simp] at h'
  · rw [stride_comment hmark] at hstride
    obtain ⟨rfl, hlength⟩ := Prod.mk.inj hstride
    obtain rfl := List.eq_nil_of_length_eq_zero hlength.symm
    exact .inr (.inl ⟨t', fun hc => hline (by simp [hc]), rfl, h'⟩)
  · cases hm
  · exact .inr (.inr (.inl ⟨z, s', htrims, ne_newline_of_isIndent hindent, hs,
      ⟨(isGapText_of_isIndent hz).parts, fun hn => ne_newline_of_isIndent (hz _ hn) rfl⟩, h'⟩))
  · exact .inr (.inr (.inl ⟨[], _, htrims, by decide, rfl, ⟨by simp, by simp⟩, h'⟩))
  · exact .inr (.inr (.inr ⟨htrims, hu⟩))

/-- A comment that is closed is closed in the new text, and no line that begins in it is found. -/
theorem comment {b : Bytes} {may : Bool} {fs : List Bool} {t : Bytes}
    (h : Tracked trims .comment may (b ++ r) fs t) (hb : ClosedComment b) :
    ∃ b' r' fs' may', t = b' ++ r' ∧ ClosedComment b' ∧
      fs = List.replicate (b.count Bytes.newline) false ++ fs' ∧ Tracked trims .code may' r fs' r' := by
  match b, hb with
  | _, .mark =>
    obtain ⟨t', rfl, h'⟩ := h.paired (s := r) (by decide) (not_opensNote_comment _ _) rfl
    exact ⟨_, t', fs, may, rfl, .mark, rfl, h'⟩
  | _, @ClosedComment.byte c b hmark hb =>
    obtain ⟨d, b₁, hd⟩ : ∃ d b₁, b = d :: b₁ := List.exists_cons_of_ne_nil fun hnil =>
      skipsBlanks_closedComment.nil (hnil ▸ hb)
    have hskip : ∀ {w s' : Bytes}, (∀ x ∈ w, isBlankPart x = true) → b ++ r = w ++ s' →
        ∃ b₂, b = w ++ b₂ ∧ ClosedComment b₂ ∧ s' = b₂ ++ r ∧ b₂.length < b.length + 1 := by
      intro w s' hw hs
      obtain ⟨b₂, rfl, hb₂, hs'⟩ := skipsBlanks_closedComment.skip hw hb hs.symm
      refine ⟨b₂, rfl, hb₂, hs', ?_⟩
      rw [List.length_append]
      omega
    rcases h.comment_byte fun hstar => by simpa [hd] using hmark hstar with
      ⟨g, g', s', fs', t', rfl, hs, rfl, rfl, ⟨hparts, hn⟩, hg', h'⟩ | ⟨t', hne, rfl, h'⟩ |
      ⟨z, s', -, hne, hs, ⟨hparts, hn⟩, h'⟩ | ⟨-, hu⟩
    · obtain ⟨b₂, rfl, hb₂, rfl, hlen⟩ := hskip hparts hs
      obtain ⟨b', r', fs, may', rfl, hb', rfl, hr'⟩ := h'.comment hb₂
      refine ⟨Bytes.newline :: (g' ++ b'), r', fs, may', by simp, ?_, ?_, hr'⟩
      · exact (skipsBlanks_closedComment.cons (by decide)).2
          (skipsBlanks_closedComment.append hg'.parts hb')
      · rw [List.count_cons_self, List.count_append, List.count_eq_zero_of_not_mem hn, Nat.zero_add,
          List.replicate_succ]
        rfl
    · obtain ⟨b', r', fs, may', rfl, hb', rfl, hr'⟩ := h'.comment hb
      refine ⟨c :: b', r', fs, may', rfl, .byte (fun hstar hslash => hmark hstar ?_) hb', ?_, hr'⟩
      · obtain ⟨b', rfl⟩ := List.head?_eq_some_iff.1 hslash
        have hhead := h'.tame.head? (x := '/'.toUInt8) (by decide) rfl
        rw [hd] at hhead ⊢
        exact hhead
      · rw [List.count_cons_of_ne hne]
    · obtain ⟨b₂, rfl, hb₂, rfl, hlen⟩ := hskip hparts hs
      obtain ⟨b', r', fs, may', rfl, hb', rfl, hr'⟩ := h'.comment hb₂
      refine ⟨b', r', fs, may', rfl, hb', ?_, hr'⟩
      rw [List.count_cons_of_ne hne, List.count_append, List.count_eq_zero_of_not_mem hn, Nat.zero_add]
    · obtain ⟨b', -, hb', hnil⟩ := skipsBlanks_closedComment.skip (s := []) hu.parts
        (ClosedComment.byte hmark hb) (List.append_nil _)
      obtain ⟨rfl, -⟩ := List.append_eq_nil_iff.1 hnil.symm
      exact absurd hb' skipsBlanks_closedComment.nil
termination_by b.length
decreasing_by
  all_goals
    simp only [List.length_cons]
    omega

theorem commentSize_of_open {b : Bytes} (h : commentEnds b = false) : commentSize b = b.length := by
  fun_induction commentEnds b with
  | case1 => rfl
  | case2 => rfl
  | case3 => cases h
  | case4 a b s hab ih => rw [commentSize, if_neg hab, ih h]; rfl

theorem commentEnds_cons {c : UInt8} {s : Bytes} (hc : c = '*'.toUInt8 → s.head? ≠ some '/'.toUInt8) :
    commentEnds (c :: s) = commentEnds s := by
  cases s with
  | nil => rfl
  | cons d s => rw [commentEnds, if_neg fun hh => hc hh.1 (by rw [hh.2]; rfl)]

theorem commentEnds_blanks {g : Bytes} (hg : ∀ c ∈ g, isBlankPart c = true) (s : Bytes) :
    commentEnds (g ++ s) = commentEnds s := by
  induction g with
  | nil => rfl
  | cons c g ih =>
    rw [List.cons_append, commentEnds_cons fun hc =>
      absurd hc (ne_of_isBlankPart (hg c List.mem_cons_self) (by decide))]
    exact ih fun x hx => hg x (List.mem_cons_of_mem _ hx)

/-- A comment that is not closed is not closed in the new text. -/
theorem openComment {s t : Bytes} {may : Bool} {fs : List Bool}
    (h : Tracked false .comment may s fs t) (hs : commentEnds s = false) :
    commentEnds t = false ∧ fs = List.replicate (s.count Bytes.newline) false := by
  match s with
  | [] =>
    obtain ⟨rfl, rfl⟩ := h.eq_nil rfl
    exact ⟨rfl, rfl⟩
  | c :: s =>
    have hmark : c = '*'.toUInt8 → s.head? ≠ some '/'.toUInt8 := by
      rintro rfl hslash
      obtain ⟨s, rfl⟩ := List.head?_eq_some_iff.1 hslash
      cases hs
    rw [commentEnds_cons hmark] at hs
    rcases h.comment_byte hmark with ⟨g, g', s', fs', t', rfl, rfl, rfl, rfl, ⟨hparts, hn⟩, hg', h'⟩ |
      ⟨t', hne, rfl, h'⟩ | ⟨_, _, htrims, -⟩ | ⟨htrims, -⟩
    · rw [commentEnds_blanks hparts] at hs
      obtain ⟨ht, rfl⟩ := openComment h' hs
      refine ⟨?_, ?_⟩
      · rw [commentEnds_cons fun hc => absurd hc (by decide), commentEnds_blanks hg'.parts, ht]
      · rw [List.count_cons_self, List.count_append, List.count_eq_zero_of_not_mem hn, Nat.zero_add,
          List.replicate_succ]
    · obtain ⟨ht, rfl⟩ := openComment h' hs
      refine ⟨?_, ?_⟩
      · exact (commentEnds_cons fun hc hslash => hmark hc (h'.tame.head? (by decide) hslash)).trans ht
      · rw [List.count_cons_of_ne hne]
    · cases htrims
    · cases htrims
termination_by s.length
decreasing_by
  all_goals
    subst_vars
    simp only [List.length_append, List.length_cons]
    omega

/-! ## The rest of a line -/

theorem apart_of_atEnd {r : Bytes} (h : AtEnd r) : Apart r := by
  intro x hx
  rcases h with rfl | h
  · cases hx
  · obtain rfl := Option.some.inj (hx.symm.trans h)
    decide

theorem blank_of_return {s : Bytes} (h : Blank (0x0D :: s)) : Blank s := by
  generalize hs : (0x0D : UInt8) :: s = u at h
  cases h with
  | nil => cases hs
  | @unit e u he hu =>
    have hall : ∀ e ∈ Text.blankEncodings, e.head? = some 0x0D → e = [0x0D] := by decide
    cases e with
    | nil => cases isBlankForm_of_mem he
    | cons c e =>
      obtain ⟨rfl, rfl⟩ := List.cons.inj hs
      obtain ⟨-, rfl⟩ := List.cons.inj (hall _ he rfl)
      exact hu

/-- What belongs to a byte of a line lies on the line. -/
theorem prefix_of_atEnd {l r e s' : Bytes} (hr : AtEnd r) (he : Bytes.newline ∉ e)
    (h : l ++ r = e ++ s') : ∃ l₁, l = e ++ l₁ ∧ s' = l₁ ++ r := by
  rcases List.append_eq_append_iff.1 h with ⟨a, rfl, rfl⟩ | ⟨l₁, rfl, rfl⟩
  · cases a with
    | nil => exact ⟨[], by simp, rfl⟩
    | cons x a =>
      rcases hr with hr | hr
      · cases hr
      · exact absurd (Option.some.inj hr) fun hx => he (by simp [hx])
  · exact ⟨l₁, rfl, rfl⟩

/-- A carriage return in front of a line feed is left out. -/
theorem after_return {s t : Bytes} (h : Tracked true m may (0x0D :: Bytes.newline :: s) fs t) :
    Tracked true m may (Bytes.newline :: s) fs t := by
  rcases h.cons_cases with ⟨_, _, _, _, _, hc, -⟩ | ⟨_, _, _, _, -, -, -, -, hreturn, -⟩ |
    ⟨_, _, _, _, -, hc, -⟩ | ⟨_, _, -, -, hc, -⟩ | ⟨s', -, -, hs, h'⟩ | ⟨-, hu, -, rfl, rfl⟩
  · exact absurd hc (by decide)
  · exact absurd rfl (hreturn rfl rfl)
  · exact absurd hc (by decide)
  · exact absurd hc (by decide)
  · rwa [hs]
  · exact .last rfl (blank_of_return hu) (.inl (.inr rfl))

/-- Blanks at the end of a line are left out with what follows them. -/
theorem after_trail {l z s' : Bytes} (h : Tracked true m may s' fs t) (hbreak : AtBreak s')
    (hl : Bytes.newline ∉ l) (hz : ∀ d ∈ z, isIndent d = true) (hr : AtEnd r) (hs : l ++ r = z ++ s') :
    Tracked true m may r fs t := by
  have hn : Bytes.newline ∉ z := fun hn => ne_newline_of_isIndent (hz _ hn) rfl
  rcases hbreak with hend | ⟨s', rfl⟩
  · obtain ⟨-, rfl⟩ := append_inj_of_atEnd hl hn hr hend hs
    exact h
  · have hs' : l ++ r = z ++ [0x0D] ++ Bytes.newline :: s' := by simpa using hs
    obtain ⟨-, rfl⟩ := append_inj_of_atEnd hl (by simp [hn]; decide) hr (.inr rfl) hs'
    exact h.after_return

theorem modeAfter_return (m : Mode) : modeAfter m [0x0D] = m := by
  have hblank : ∀ c ∈ ([0x0D] : Bytes), isBlankPart c = true := List.forall_mem_singleton.2 rfl
  have h := modeAfter_blanks hblank m []
  rwa [List.append_nil, modeAfter_nil] at h

theorem restOfLine {l : Bytes} {m : Mode} {t : Bytes} (h : Tracked trims m may (l ++ r) fs t)
    (hl : Bytes.newline ∉ l) (hr : AtEnd r) :
    ∃ l' z r', l = l' ++ z ∧ IsGapText z ∧ (trims = false → z = []) ∧ t = l' ++ r' ∧
      Tracked trims (modeAfter m l) may r fs r' := by
  match l with
  | [] => exact ⟨[], [], t, rfl, by simp [IsGapText], fun _ => rfl, rfl, by rwa [modeAfter_nil]⟩
  | c :: l =>
    have hl' : Bytes.newline ∉ l := fun hn => hl (List.mem_cons_of_mem _ hn)
    rcases h.cons_cases with ⟨g, g', s', fs', t', rfl, -⟩ |
      ⟨e, s', t', m', hs, rfl, hnote, hline, -, hstride, h'⟩ |
      ⟨b, z, s', t', rfl, rfl, hs, rfl, hn, hz, hztrims, hs', h'⟩ |
      ⟨z, s', rfl, rfl, hindent, hz, hs, hbreak, hend, h'⟩ | ⟨s', rfl, rfl, hs, h'⟩ |
      ⟨rfl, hu, hbreak, rfl, -⟩
    · simp at hl
    · obtain ⟨l₁, rfl, rfl⟩ := prefix_of_atEnd hr (fun hn => hline (List.mem_cons_of_mem _ hn)) hs
      have hnote' : ¬ OpensNote m c (e ++ l₁) := fun hh => hnote ⟨hh.1, hh.2.1, by
        obtain ⟨x, hx⟩ := List.head?_eq_some_iff.1 hh.2.2
        change (e ++ l₁ ++ r).head? = _
        rw [hx]
        rfl⟩
      have hstride' : FlowClass.stride m c (e ++ l₁) = (m', e.length) :=
        (stride_append m c (e ++ l₁) (apart_of_atEnd hr)).symm.trans hstride
      obtain ⟨l', z, r', rfl, hz, hztrims, rfl, hr'⟩ :=
        h'.restOfLine (fun hn => hl' (List.mem_append_right _ hn)) hr
      refine ⟨c :: (e ++ l'), z, r', by simp, hz, hztrims, by simp, ?_⟩
      rwa [modeAfter_cons hnote', hstride', List.drop_left]
    · cases l with
      | nil =>
        rcases hr with rfl | hr
        · cases hs
        · rw [show r = _ from hs] at hr
          exact absurd (Option.some.inj hr) (by decide)
      | cons d l =>
        obtain ⟨rfl, hrest⟩ := List.cons.inj hs
        obtain ⟨rfl, rfl⟩ := append_inj_of_atEnd (fun hh => hl' (List.mem_cons_of_mem _ hh)) hn hr hs' hrest
        exact ⟨'/'.toUInt8 :: '/'.toUInt8 :: b, z, t', rfl, hz, hztrims, rfl, by rwa [modeAfter_note]⟩
    · have hgap : IsGapText (c :: l) :=
        gaps_of_append (z := c :: z) hl
          (fun x hx => (List.mem_cons.1 hx).elim (fun h => h ▸ hindent) (hz x)) hbreak
          (congrArg (c :: ·) hs)
      refine ⟨[], c :: l, t, rfl, hgap, by simp, rfl, ?_⟩
      have hmode := modeAfter_blanks hgap.parts m []
      rw [List.append_nil, modeAfter_nil] at hmode
      rw [hmode]
      exact h'.after_trail hbreak hl' hz hr hs
    · obtain ⟨rfl, rfl⟩ := append_inj_of_atEnd (b := []) hl' (by simp) hr (.inr rfl) hs
      refine ⟨[], [0x0D], t, rfl, by simp [IsGapText, isGap], by simp, rfl, ?_⟩
      rwa [modeAfter_return]
    · rcases hbreak with (hend | hend) | ⟨s', hs⟩
      · cases hend
      · exact absurd (Option.some.inj hend) fun hc => hl (by simp [hc])
      · obtain ⟨rfl, htail⟩ := List.cons.inj hs
        obtain ⟨rfl, rfl⟩ := append_inj_of_atEnd (b := []) hl' (by simp) hr (.inr rfl) htail
        refine ⟨[], [0x0D], [], rfl, by simp [IsGapText, isGap], by simp, rfl, ?_⟩
        rw [modeAfter_return]
        exact h.after_return
termination_by l.length
decreasing_by
  all_goals
    subst_vars
    simp only [List.length_append, List.length_cons]
    omega

end Tracked

end Flowsmith.FlowClass
