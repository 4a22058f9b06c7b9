import Flowsmith.Proofs.Text.Utf8
import Flowsmith.Xml.Reader
import Flowsmith.Xml.Writer

/-!
# Escaped text is read back

Escaping writes a text piece by piece, and each piece is read as one legal character: a reference, a
sequence that stands for itself, or a carriage return, which is read as a line feed.

* `Piece` : a written piece and what it is read as;
* `escape_pieces` : an escaped text is made of pieces;
* `text?_pieces` : pieces are read up to the markup or the quote that follows them;
* `settle`, `text?_escape` : what a value that was written is read as;
* `settle_eq_self` : a legal value without carriage returns is read as it was.
-/

namespace Flowsmith.Xml

open Utf8

/-! ## Legal texts -/

theorem isLegal_append {u : Bytes} {n : Nat} (h : Encodes u n) (hn : isChar n = true) (w : Bytes) :
    isLegal (u ++ w) = isLegal w := by
  have hdecode := h.decode? w
  cases u with
  | nil => exact absurd rfl h.ne_nil
  | cons c u =>
    rw [List.cons_append] at hdecode ⊢
    rw [isLegal, hdecode]
    simp [hn]

/-- A legal text consists of sequences of characters. -/
theorem encodes_of_isLegal {s : Bytes} (hs : isLegal s = true) {r : Nat × Bytes}
    (hr : r ∈ runes s) : Encodes r.2 r.1 ∧ isChar r.1 = true := by
  induction s using rune_induction with
  | nil =>
    rw [runes] at hr
    cases hr
  | rune r' w hr' hrunes hdecode ih =>
    have hlegal : (Encodes r'.2 r'.1 ∧ isChar r'.1 = true) ∧ isLegal w = true := by
      have hne := hr'.ne_nil
      rcases hdecode with hu | hnone
      · have hd := hu.decode? w
        cases hraw : r'.2 with
        | nil => exact absurd hraw hne
        | cons c u =>
          rw [hraw, List.cons_append] at hs hd
          rw [isLegal, hd] at hs
          have hboth : isChar r'.1 = true ∧ isLegal w = true := by simpa using hs
          exact ⟨⟨hraw ▸ hu, hboth.1⟩, hboth.2⟩
      · cases hraw : r'.2 with
        | nil => exact absurd hraw hne
        | cons c u =>
          rw [hraw, List.cons_append] at hs hnone
          rw [isLegal, hnone] at hs
          cases hs
    rw [hrunes] at hr
    rcases List.mem_cons.1 hr with rfl | hr
    · exact hlegal.1
    · exact ih hlegal.2 hr

/-! ## Pieces -/

/-- The bytes that mean something to the reader of a text. -/
def special : Bytes := "<>&\"\r"

/-- What a written piece is read as. -/
inductive Piece : Bytes → Bytes → Prop where
  | entity {name : String} {c : UInt8} (h : (name, c) ∈ entities) :
    Piece ('&'.toUInt8 :: Bytes.ofString name) [c]
  | plain {u : Bytes} {n : Nat} (h : Encodes u n) (hn : isChar n = true) (hu : ∀ c ∈ u, c ∉ special) :
    Piece u u
  | ret : Piece [0x0D] [0x0A]

namespace Piece

variable {w v : Bytes}

theorem ne_nil (h : Piece w v) : w ≠ [] := by
  cases h with
  | entity h => exact List.cons_ne_nil _ _
  | plain h hn hu => exact h.ne_nil
  | ret => exact List.cons_ne_nil _ _

theorem encodes (h : Piece w v) : ∃ n, Encodes v n ∧ isChar n = true := by
  cases h with
  | @entity name c h =>
    have hc : c < 0x80 ∧ isChar c.toNat = true := by
      simp only [entities, List.mem_cons, Prod.mk.injEq, List.not_mem_nil, or_false] at h
      rcases h with ⟨-, rfl⟩ | ⟨-, rfl⟩ | ⟨-, rfl⟩ | ⟨-, rfl⟩ | ⟨-, rfl⟩ <;> decide
    exact ⟨c.toNat, .one hc.1, hc.2⟩
  | plain h hn hu => exact ⟨_, h, hn⟩
  | ret => exact ⟨0x0A, .one (a := 0x0A) (by decide), by decide⟩

theorem newline (h : Piece w v) (hw : w.head? = some 0x0A) : w = [0x0A] := by
  cases h with
  | entity h => cases hw
  | plain h hn hu =>
    rcases h.ascii_or with ⟨a, rfl, -, -⟩ | ⟨-, hhigh⟩
    · rw [Option.some.inj hw]
    · exact absurd (hhigh 0x0A (List.mem_of_head? hw)) (by decide)
  | ret => cases hw

/-- No piece holds an angle bracket or a quote. -/
theorem quiet (h : Piece w v) {c : UInt8} (hc : c ∈ w) :
    c ≠ '<'.toUInt8 ∧ c ≠ '>'.toUInt8 ∧ c ≠ '"'.toUInt8 := by
  cases h with
  | @entity name c' h =>
    simp only [entities, List.mem_cons, Prod.mk.injEq, List.not_mem_nil, or_false] at h
    rcases h with ⟨rfl, -⟩ | ⟨rfl, -⟩ | ⟨rfl, -⟩ | ⟨rfl, -⟩ | ⟨rfl, -⟩ <;>
      (revert c; decide +kernel)
  | plain h hn hu =>
    have hspecial := hu c hc
    refine ⟨?_, ?_, ?_⟩ <;> (rintro rfl; exact hspecial (by decide))
  | ret =>
    obtain rfl := List.mem_singleton.1 hc
    decide

end Piece

/-- A sequence of a code point that is none of the special ones holds no special byte. -/
theorem not_mem_special {u : Bytes} {n : Nat} (h : Encodes u n)
    (hn : n ∉ special.map UInt8.toNat) : ∀ c ∈ u, c ∉ special := by
  rcases h.ascii_or with ⟨a, rfl, -, rfl⟩ | ⟨-, hhigh⟩
  · intro c hc hmem
    obtain rfl := List.mem_singleton.1 hc
    exact hn (List.mem_map_of_mem hmem)
  · intro c hc hmem
    have hlow : ∀ d ∈ special, ¬ 0x80 ≤ d := by decide +kernel
    exact hlow c hmem (hhigh c hc)

/-- A sequence of a code point of ASCII is that byte. -/
theorem eq_of_encodes {u : Bytes} {a : UInt8} (h : Encodes u a.toNat) (ha : a < 0x80) : u = [a] := by
  rcases h.ascii_or with ⟨b, rfl, -, hb⟩ | ⟨hge, -⟩
  · rw [UInt8.toNat_inj.1 hb]
  · rw [UInt8.lt_iff_toNat_lt] at ha
    exact absurd ha (Nat.not_lt.2 hge)

/-- A rune is written as a piece. A character other than the carriage return is read as it was. -/
theorem escapeRune_piece {r : Nat × Bytes} (hr : IsRune r) :
    ∃ v, Piece (escapeRune r.1 r.2) v ∧
      (Encodes r.2 r.1 → isChar r.1 = true → 0x0D ∉ r.2 →
        v = r.2 ∧ escapeRune r.1 r.2 ≠ [0x0D]) := by
  obtain ⟨n, raw⟩ := r
  -- the five characters with names of their own
  have named : ∀ (a : UInt8) (name : String), (name, a) ∈ entities → a < 0x80 → n = a.toNat →
      escapeRune n raw = '&'.toUInt8 :: Bytes.ofString name →
      ∃ v, Piece (escapeRune n raw) v ∧ (Encodes raw n → isChar n = true → 0x0D ∉ raw →
        v = raw ∧ escapeRune n raw ≠ [0x0D]) := by
    intro a name hname ha hn hwritten
    refine ⟨[a], hwritten ▸ .entity hname, fun hu _ _ => ⟨?_, ?_⟩⟩
    · rw [hn] at hu
      exact (eq_of_encodes hu ha).symm
    · rw [hwritten]
      exact fun h => absurd (List.cons.inj h).1 (by decide)
  by_cases h₁ : n = 0x26
  · exact named '&'.toUInt8 "amp;" (by decide) (by decide) h₁ (by rw [h₁]; rfl)
  by_cases h₂ : n = 0x3C
  · exact named '<'.toUInt8 "lt;" (by decide) (by decide) h₂ (by rw [h₂]; rfl)
  by_cases h₃ : n = 0x3E
  · exact named '>'.toUInt8 "gt;" (by decide) (by decide) h₃ (by rw [h₃]; rfl)
  by_cases h₄ : n = 0x27
  · exact named '\''.toUInt8 "apos;" (by decide) (by decide) h₄ (by rw [h₄]; rfl)
  by_cases h₅ : n = 0x22
  · exact named '"'.toUInt8 "quot;" (by decide) (by decide) h₅ (by rw [h₅]; rfl)
  have hwritten : escapeRune n raw =
      if !isChar n || (n = replacement && raw.length = 1) then [0xEF, 0xBF, 0xBD] else raw := by
    rw [escapeRune, if_neg h₁, if_neg h₂, if_neg h₃, if_neg h₄, if_neg h₅]
  simp only
  rw [hwritten]
  split
  · rename_i hbad
    have hthree : Encodes [0xEF, 0xBF, 0xBD] 0xFFFD :=
      .three (by decide) (by decide) (by decide)
    refine ⟨_, .plain hthree (by decide) (by decide +kernel), fun hu hchar _ => ?_⟩
    -- a legal rune is replaced by itself only
    simp only [show isChar n = true from hchar, Bool.not_true, Bool.false_or, Bool.and_eq_true,
      decide_eq_true_eq] at hbad
    have hshort : n = 0xFFFD ∧ raw.length = 1 := hbad
    cases hu with
    | one ha =>
      rw [UInt8.lt_iff_toNat_lt] at ha
      exact absurd ha (by rw [show _ = 0xFFFD from hshort.1]; decide)
    | two => simp at hshort
    | three => simp at hshort
    | four => simp at hshort
  · rename_i hgood
    have hgood : isChar n = true ∧ (n = replacement → raw.length ≠ 1) := by
      simpa using hgood
    have hu : Encodes raw n := by
      rcases hr with hu | ⟨hn, c, hc, -⟩
      · exact hu
      · exact absurd (by simp_all) (hgood.2 hn)
    by_cases hret : n = 0x0D
    · subst hret
      obtain rfl := eq_of_encodes (a := 0x0D) hu (by decide)
      exact ⟨[0x0A], .ret, fun _ _ hno => absurd List.mem_cons_self hno⟩
    · have hlist : special.map UInt8.toNat = [0x3C, 0x3E, 0x26, 0x22, 0x0D] := by decide
      have hplain : n ∉ special.map UInt8.toNat := by
        rw [hlist]
        simp [h₁, h₂, h₃, h₅, hret]
      refine ⟨raw, .plain hu hgood.1 (not_mem_special hu hplain), fun _ _ hno => ⟨rfl, ?_⟩⟩
      rintro rfl
      exact hno List.mem_cons_self

/-- An escaped text is made of pieces. A legal one without carriage returns is read as it was. -/
theorem escape_pieces (s : Bytes) :
    ∃ ps : List (Bytes × Bytes), (∀ p ∈ ps, Piece p.1 p.2) ∧ escape s = ps.flatMap (·.1) ∧
      (isLegal s = true → 0x0D ∉ s → ps.flatMap (·.2) = s ∧ ∀ p ∈ ps, p.1 ≠ [0x0D]) := by
  induction s using rune_induction with
  | nil => exact ⟨[], by simp, by rw [escape, runes]; rfl, fun _ _ => ⟨rfl, by simp⟩⟩
  | rune r w hr hrunes hdecode ih =>
    obtain ⟨ps, hps, hescape, hread⟩ := ih
    obtain ⟨v, hv, hsame⟩ := escapeRune_piece hr
    refine ⟨(escapeRune r.1 r.2, v) :: ps, ?_, ?_, fun hlegal hret => ?_⟩
    · intro p hp
      rcases List.mem_cons.1 hp with rfl | hp
      · exact hv
      · exact hps p hp
    · rw [escape, hrunes, List.flatMap_cons, ← escape, hescape]
      rfl
    · have hfirst := encodes_of_isLegal hlegal (r := r) (by rw [hrunes]; exact List.mem_cons_self)
      rw [isLegal_append hfirst.1 hfirst.2] at hlegal
      rw [List.mem_append, not_or] at hret
      obtain ⟨hvalues, hwritten⟩ := hread hlegal hret.2
      obtain ⟨rfl, hcr⟩ := hsame hfirst.1 hfirst.2 hret.1
      refine ⟨by rw [List.flatMap_cons, hvalues], fun p hp => ?_⟩
      rcases List.mem_cons.1 hp with rfl | hp
      · exact hcr
      · exact hwritten p hp

/-! ## Reading -/

/-- What follows a text that was written: markup, the end of the document, or the quote around it. It
is left, and the quote is taken. -/
inductive Closes : TextEnd → Bytes → Bytes → Prop where
  | last : Closes .markup [] []
  | markup (rest : Bytes) : Closes .markup ('<'.toUInt8 :: rest) ('<'.toUInt8 :: rest)
  | quote (rest : Bytes) : Closes (.quote '"'.toUInt8) ('"'.toUInt8 :: rest) rest

namespace Closes

variable {stop : TextEnd} {k k' : Bytes}

theorem scanText? (h : Closes stop k k') : Xml.scanText? stop k = some ([], k') := by
  cases h with
  | last => simp [Xml.scanText?]
  | markup rest =>
    have hmark : sectionEnd.isPrefixOf ('<'.toUInt8 :: rest) = false := rfl
    rw [Xml.scanText?]
    simp [hmark]
  | quote rest =>
    rw [Xml.scanText?]
    simp

theorem ne_section (h : Closes stop k k') : stop ≠ .section := by
  cases h <;> simp

theorem not_quote (h : Closes stop k k') {c : UInt8} (hc : c ≠ '"'.toUInt8) : stop ≠ .quote c := by
  cases h with
  | last => simp
  | markup rest => simp
  | quote rest => simpa using Ne.symm hc

/-- The end mark of a literal section does not begin in a text that was written. -/
theorem not_sectionEnd (h : Closes stop k k') {t : Bytes} (ht : '>'.toUInt8 ∉ t) :
    sectionEnd.isPrefixOf (t ++ k) = false := by
  have hend : sectionEnd = [0x5D, 0x5D, 0x3E] := by decide
  have hk : ∀ c rest, k = c :: rest → c ≠ 0x5D ∧ c ≠ 0x3E := by
    rintro c rest rfl
    cases h <;> decide
  rw [hend]
  match t with
  | [] =>
    cases k with
    | nil => rfl
    | cons c rest => simp [List.isPrefixOf, (hk c rest rfl).1.symm]
  | [a] =>
    cases k with
    | nil => simp [List.isPrefixOf]
    | cons c rest => simp [List.isPrefixOf, (hk c rest rfl).1.symm]
  | [a, b] =>
    cases k with
    | nil => simp [List.isPrefixOf]
    | cons c rest => simp [List.isPrefixOf, (hk c rest rfl).2.symm]
  | a :: b :: c :: rest =>
    have hc : (0x3E : UInt8) ≠ c := by
      rintro rfl
      exact ht (.tail _ (.tail _ (.head _)))
    simp [List.isPrefixOf, hc]

/-- A byte that means nothing to the reader is read as itself. -/
theorem scanText?_cons (h : Closes stop k k') {c : UInt8} (hc : c ∉ special) {t : Bytes}
    (ht : '>'.toUInt8 ∉ c :: t) :
    Xml.scanText? stop (c :: (t ++ k)) =
      (Xml.scanText? stop (t ++ k)).map fun r => (c :: r.1, r.2) := by
  have hne : ∀ d ∈ special, c ≠ d := fun d hd hcd => hc (hcd ▸ hd)
  have hmark := h.not_sectionEnd ht
  rw [List.cons_append] at hmark
  rw [Xml.scanText?]
  have h₁ : c ≠ '<'.toUInt8 := hne _ (by decide)
  have h₂ : c ≠ '&'.toUInt8 := hne _ (by decide)
  have h₃ : c ≠ 0x0D := hne _ (by decide)
  have h₄ : stop ≠ .quote c := h.not_quote (hne _ (by decide))
  simp only [hmark, h₁, h₂, h₃, h₄, Bool.false_eq_true, and_false, false_and, if_false]

theorem scanText?_append (h : Closes stop k k') {u t : Bytes} (hu : ∀ c ∈ u, c ∉ special)
    (ht : '>'.toUInt8 ∉ u ++ t) :
    Xml.scanText? stop (u ++ (t ++ k)) =
      (Xml.scanText? stop (t ++ k)).map fun r => (u ++ r.1, r.2) := by
  induction u with
  | nil => simp
  | cons c u ih =>
    have hrest := ih (fun d hd => hu d (List.mem_cons_of_mem _ hd))
      fun hmem => ht (List.mem_cons_of_mem _ hmem)
    have hstep := h.scanText?_cons (hu c List.mem_cons_self) (t := u ++ t) ht
    rw [List.append_assoc] at hstep
    rw [List.cons_append, hstep, hrest, Option.map_map]
    rfl

theorem head?_append (h : Closes stop k k') (t : Bytes) :
    (t ++ k).head? = some 0x0A ↔ t.head? = some 0x0A := by
  cases t with
  | nil => cases h <;> simp [show ¬ ('<'.toUInt8 = 0x0A) by decide, show ¬ ('"'.toUInt8 = 0x0A) by decide]
  | cons c t => rfl

/-- A carriage return is read as a line feed, together with a line feed behind it. -/
theorem scanText?_return (h : Closes stop k k') {t : Bytes} (ht : '>'.toUInt8 ∉ (0x0D : UInt8) :: t) :
    Xml.scanText? stop (0x0D :: (t ++ k)) =
      (Xml.scanText? stop ((t ++ k).drop (if t.head? = some 0x0A then 1 else 0))).map
        fun r => (0x0A :: r.1, r.2) := by
  have hmark := h.not_sectionEnd ht
  rw [List.cons_append] at hmark
  rw [Xml.scanText?]
  have h₁ : ((0x0D : UInt8) = '<'.toUInt8) = False := by decide
  have h₂ : ((0x0D : UInt8) = '&'.toUInt8) = False := by decide
  simp only [hmark, h₁, h₂, h.not_quote (c := 0x0D) (by decide), h.head?_append t, Bool.false_eq_true,
    and_false, false_and, if_false, if_true]

end Closes

theorem reference?_entity {name : String} {c : UInt8} (h : (name, c) ∈ entities) (rest : Bytes) :
    reference? (Bytes.ofString name ++ rest) = some ([c], (Bytes.ofString name).length) := by
  simp only [entities, List.mem_cons, Prod.mk.injEq, List.not_mem_nil, or_false] at h
  rcases h with ⟨rfl, rfl⟩ | ⟨rfl, rfl⟩ | ⟨rfl, rfl⟩ | ⟨rfl, rfl⟩ | ⟨rfl, rfl⟩ <;> rfl

theorem Closes.scanText?_entity {stop : TextEnd} {k k' : Bytes} (hk : Closes stop k k') {name : String}
    {c : UInt8} (h : (name, c) ∈ entities) {t : Bytes}
    (ht : '>'.toUInt8 ∉ '&'.toUInt8 :: Bytes.ofString name ++ t) :
    Xml.scanText? stop ('&'.toUInt8 :: (Bytes.ofString name ++ (t ++ k))) =
      (Xml.scanText? stop (t ++ k)).map fun r => (c :: r.1, r.2) := by
  have hmark := hk.not_sectionEnd ht
  rw [List.cons_append, List.cons_append, List.append_assoc] at hmark
  rw [Xml.scanText?]
  have h₁ : ('&'.toUInt8 = '<'.toUInt8) = False := by decide
  simp only [hmark, h₁, hk.not_quote (c := '&'.toUInt8) (by decide), hk.ne_section, reference?_entity h,
    Bool.false_eq_true, and_false, if_false, and_true, ne_eq, not_false_eq_true, if_true, List.drop_left]
  rfl

theorem gt_not_mem_pieces {ps : List (Bytes × Bytes)} (hps : ∀ p ∈ ps, Piece p.1 p.2) :
    '>'.toUInt8 ∉ ps.flatMap (·.1) := by
  intro hmem
  obtain ⟨p, hp, hc⟩ := List.mem_flatMap.1 hmem
  exact ((hps p hp).quiet hc).2.1 rfl

/-- Pieces are read as a legal text up to what follows them, whatever that is. -/
theorem scanText?_pieces {ps : List (Bytes × Bytes)} (hps : ∀ p ∈ ps, Piece p.1 p.2) :
    ∃ v, isLegal v = true ∧ ((∀ p ∈ ps, p.1 ≠ [0x0D]) → v = ps.flatMap (·.2)) ∧
      ∀ {stop : TextEnd} {k k' : Bytes}, Closes stop k k' →
        scanText? stop (ps.flatMap (·.1) ++ k) = some (v, k') := by
  -- a line feed after a carriage return is read with it, so the induction is on the number of pieces
  induction hlen : ps.length using Nat.strongRecOn generalizing ps with
  | _ len ih =>
  cases ps with
  | nil => exact ⟨[], by rw [isLegal], fun _ => rfl, fun hk => hk.scanText?⟩
  | cons p ps =>
    have hp := hps p List.mem_cons_self
    have hrest : ∀ q ∈ ps, Piece q.1 q.2 := fun q hq => hps q (List.mem_cons_of_mem _ hq)
    have hgt := gt_not_mem_pieces hps
    rw [List.flatMap_cons] at hgt
    rw [List.length_cons] at hlen
    obtain ⟨v, hlegal, hsame, hscan⟩ := ih ps.length (by omega) hrest rfl
    obtain ⟨n, hchar, hn⟩ := hp.encodes
    have hval : isLegal (p.2 ++ v) = true := by rw [isLegal_append hchar hn, hlegal]
    obtain ⟨w, u⟩ := p
    cases hp with
    | @entity name c h =>
      refine ⟨c :: v, hval, fun hno => ?_, fun {stop k k'} hk => ?_⟩
      · rw [List.flatMap_cons, hsame fun q hq => hno q (List.mem_cons_of_mem _ hq)]
        rfl
      · rw [List.flatMap_cons, List.append_assoc, List.cons_append, hk.scanText?_entity h hgt, hscan hk]
        rfl
    | plain h hn hu =>
      refine ⟨w ++ v, hval, fun hno => ?_, fun {stop k k'} hk => ?_⟩
      · rw [List.flatMap_cons, hsame fun q hq => hno q (List.mem_cons_of_mem _ hq)]
      · rw [List.flatMap_cons, List.append_assoc, hk.scanText?_append hu hgt, hscan hk]
        rfl
    | ret =>
      rw [List.singleton_append] at hgt
      by_cases hnewline : (ps.flatMap (·.1)).head? = some 0x0A
      · -- the line feed is the next piece
        cases ps with
        | nil => cases hnewline
        | cons q qs =>
          have hq := hrest q List.mem_cons_self
          have hfirst : q.1.head? = some 0x0A := by
            cases hw : q.1 with
            | nil => exact absurd hw hq.ne_nil
            | cons c w => simpa [hw] using hnewline
          obtain ⟨v', hlegal', -, hscan'⟩ := ih qs.length (by simp at hlen; omega)
            (fun r hr => hrest r (List.mem_cons_of_mem _ hr)) rfl
          refine ⟨0x0A :: v', ?_, fun hno => absurd rfl (hno _ List.mem_cons_self),
            fun {stop k k'} hk => ?_⟩
          · rw [← List.singleton_append, isLegal_append hchar hn, hlegal']
          · rw [List.flatMap_cons, List.append_assoc, List.singleton_append, hk.scanText?_return hgt,
              if_pos hnewline, List.flatMap_cons, hq.newline hfirst]
            simp [hscan' hk]
      · refine ⟨0x0A :: v, hval, fun hno => absurd rfl (hno _ List.mem_cons_self),
          fun {stop k k'} hk => ?_⟩
        rw [List.flatMap_cons, List.append_assoc, List.singleton_append, hk.scanText?_return hgt, if_neg hnewline]
        simp [hscan hk]

/-- A text that was written is read up to what follows it. -/
theorem text?_pieces {ps : List (Bytes × Bytes)} (hps : ∀ p ∈ ps, Piece p.1 p.2) :
    ∃ v, ((∀ p ∈ ps, p.1 ≠ [0x0D]) → v = ps.flatMap (·.2)) ∧
      ∀ {stop : TextEnd} {k k' : Bytes}, Closes stop k k' →
        text? stop (ps.flatMap (·.1) ++ k) = some (v, k') := by
  obtain ⟨v, hlegal, hsame, hscan⟩ := scanText?_pieces hps
  refine ⟨v, hsame, fun hk => ?_⟩
  rw [text?, hscan hk]
  simp [hlegal]

/-! ## Values -/

/-- What is read of a value that was written: what is no character of a document is replaced, and a
carriage return is read as a line end. -/
def settle (s : Bytes) : Bytes :=
  ((text? (.quote '"'.toUInt8) (escape s ++ ['"'.toUInt8])).map (·.1)).getD []

/-- A value that was written is read up to its quote. -/
theorem text?_escape (s rest : Bytes) :
    text? (.quote '"'.toUInt8) (escape s ++ '"'.toUInt8 :: rest) = some (settle s, rest) := by
  obtain ⟨ps, hps, hescape, -⟩ := escape_pieces s
  obtain ⟨v, -, htext⟩ := text?_pieces hps
  rw [settle, hescape, htext (.quote rest), htext (.quote [])]
  rfl

/-- A legal value without carriage returns is read as it was. -/
theorem settle_eq_self {s : Bytes} (hs : isLegal s = true) (hret : 0x0D ∉ s) : settle s = s := by
  obtain ⟨ps, hps, hescape, hread⟩ := escape_pieces s
  obtain ⟨hvalues, hplain⟩ := hread hs hret
  obtain ⟨v, hsame, htext⟩ := text?_pieces hps
  rw [settle, hescape, htext (.quote []), hsame hplain, hvalues]
  rfl

end Flowsmith.Xml
