import Flowsmith.Proofs.Activity.Added
import Flowsmith.Proofs.Source.Chunk
import Flowsmith.Proofs.Source.Header
import Flowsmith.Proofs.Text.Utf8
import Flowsmith.Text.Quoted

/-!
# Texts in the middle of a line

* `reads_quoted` : quoted text is one closed literal;
* `Inset`, `inset_dotted` : texts that are cut out as they were written.
-/

namespace Flowsmith.Source

/-! ## Quoted text -/

/-- Bytes after which a literal in double quotes goes on. -/
def Inner (s : Bytes) : Prop := ∀ b, ClosedQuoted '"'.toUInt8 b → ClosedQuoted '"'.toUInt8 (s ++ b)

theorem inner_nil : Inner [] := fun _ hb => hb

def isLiteralByte (c : UInt8) : Bool := c != '\\'.toUInt8 && c != '"'.toUInt8 && c != Bytes.newline

theorem inner_of_plain {s : Bytes} (h : ∀ c ∈ s, isLiteralByte c = true) : Inner s := by
  intro b hb
  induction s with
  | nil => exact hb
  | cons c s ih =>
    have hc := h c List.mem_cons_self
    simp only [isLiteralByte, Bool.and_eq_true, bne_iff_ne] at hc
    exact (closedQuoted_cons hc.1.1 hc.1.2).2 ⟨hc.2, ih fun x hx => h x (List.mem_cons_of_mem _ hx)⟩

theorem Inner.escape {s : Bytes} (d : UInt8) (h : Inner s) : Inner ('\\'.toUInt8 :: d :: s) :=
  fun b hb => closedQuoted_escape.2 (h b hb)

theorem isLiteralByte_of_ge {c : UInt8} (h : 0x80 ≤ c) : isLiteralByte c = true := by
  have hc := Bytes.forall_byte (fun c => !decide (0x80 ≤ c) || isLiteralByte c) rfl c
  simpa [h] using hc

theorem isLiteralByte_hexDigit (n : Nat) : isLiteralByte (Text.hexDigit (n % 16)) = true := by
  have hall : ∀ k < 16, isLiteralByte (Text.hexDigit k) = true := by decide
  exact hall _ (Nat.mod_lt _ (by decide))

theorem inner_hex (width n : Nat) : Inner (Text.hex width n) := by
  refine inner_of_plain fun c hc => ?_
  unfold Text.hex at hc
  obtain ⟨i, -, rfl⟩ := List.mem_map.1 hc
  exact isLiteralByte_hexDigit _

theorem inner_numbered (c : UInt8) (width n : Nat) : Inner (['\\'.toUInt8, c] ++ Text.hex width n) :=
  (inner_hex width n).escape c

/-- What stands for a code point in quoted text. -/
theorem inner_quoteRune {r : Nat × Bytes} (h : Utf8.IsRune r) : Inner (Text.quoteRune r.1 r.2) := by
  obtain ⟨n, raw⟩ := r
  have hbytes : (∃ a : UInt8, raw = [a] ∧ a < 0x80 ∧ n = a.toNat) ∨ ∀ c ∈ raw, 0x80 ≤ c := by
    rcases h with henc | ⟨-, c, hc, hge⟩
    · exact henc.ascii_or.imp_right And.right
    · refine .inr fun x hx => ?_
      rw [show raw = [c] from hc] at hx
      rwa [List.mem_singleton.1 hx]
  change Inner (Text.quoteRune n raw)
  unfold Text.quoteRune
  split
  · rename_i b
    split
    · exact inner_numbered 'x'.toUInt8 2 _
    · rename_i hlow
      obtain ⟨a, ha, -, hn⟩ : ∃ a : UInt8, [b] = [a] ∧ a < 0x80 ∧ n = a.toNat :=
        hbytes.resolve_right fun hge => hlow (hge b List.mem_cons_self)
      obtain rfl := (List.cons.inj ha).1
      split
      · exact inner_nil.escape b
      · rename_i hquote
        split
        · rename_i hprint
          refine inner_of_plain fun c hc => ?_
          rw [List.mem_singleton.1 hc]
          have hb := Bytes.forall_byte (fun b => (decide (b = 0x22) || decide (b = 0x5C)) ||
            (!Text.isPrintable b.toNat || isLiteralByte b)) rfl b
          rw [hn] at hprint
          simpa [hquote, hprint] using hb
        · split
          · exact inner_nil.escape _
          · exact inner_numbered 'x'.toUInt8 2 _
  · rename_i hmany
    have hge := hbytes.resolve_left fun ⟨a, ha, _⟩ => hmany a ha
    split
    · exact inner_of_plain fun c hc => isLiteralByte_of_ge (hge c hc)
    · split
      · exact inner_numbered 'u'.toUInt8 4 _
      · exact inner_numbered 'U'.toUInt8 8 _

theorem closedQuoted_runes {rs : List (Nat × Bytes)} (h : ∀ r ∈ rs, Utf8.IsRune r) :
    ClosedQuoted '"'.toUInt8 (rs.flatMap (fun r => Text.quoteRune r.1 r.2) ++ ['"'.toUInt8]) := by
  induction rs with
  | nil => exact ⟨by decide, by decide⟩
  | cons r rs ih =>
    rw [List.flatMap_cons, List.append_assoc]
    exact inner_quoteRune (h r List.mem_cons_self) _ (ih fun x hx => h x (List.mem_cons_of_mem _ hx))

/-- **Quoted text is one literal.** -/
theorem reads_quoted (s : Bytes) (f : Bool) (r : Bytes) :
    Reads f (Text.quoted s) [⟨.string, Text.quoted s, 0⟩] r false := by
  have hrunes : ∀ r ∈ Utf8.runes s, Utf8.IsRune r := fun r hr => Utf8.isRune_of_mem hr
  obtain ⟨hends, hsize⟩ := closedQuoted_runes hrunes
  have hlex : ∀ b : Bytes, quotedEnds '"'.toUInt8 b = true → quotedSize '"'.toUInt8 b = b.length →
      lexeme f '"'.toUInt8 (b ++ r) = (.string, b.length) := by
    intro b hb hlen
    refine lexeme_string ?_
    unfold stringSize?
    rw [if_pos rfl, quotedSize_append b r hb, hlen]
  exact reads_token 0 (by decide) (hlex _ hends hsize)

/-! ## Texts that are cut out as they were written -/

/-- A text that stands in the middle of a line: its tokens are closed, it holds no comment, and there is
nothing to collapse. -/
structure Inset (u : Bytes) : Prop where
  collapsed : u.collapse = u
  nonempty : u ≠ []
  closed : ∀ t ∈ tokensFrom 0 false u, textEnds t.text = true
  solid : ∀ t ∈ tokensFrom 0 false u, t.isTrivia = false

/-- The last byte of words with a space between them is that of the last word. -/
theorem getLast?_joinWith {ws : List Bytes} (hne : ws ≠ [])
    (h : ∀ w ∈ ws, ∃ x, w.getLast? = some x ∧ isBlankByte x = false) :
    ∃ x, (Bytes.joinWith [0x20] ws).getLast? = some x ∧ isBlankByte x = false := by
  induction ws with
  | nil => exact absurd rfl hne
  | cons v vs ih =>
    cases vs with
    | nil => exact h v List.mem_cons_self
    | cons v' vs =>
      obtain ⟨x, hx, hb⟩ := ih (by simp) fun w hw => h w (List.mem_cons_of_mem _ hw)
      refine ⟨x, ?_, hb⟩
      rw [Bytes.joinWith, List.getLast?_append, hx]
      rfl

theorem edges_of_collapse {s : Bytes} (h : s.collapse ≠ []) :
    ∃ c rest x, s.collapse = c :: rest ∧ isBlankByte c = false ∧ s.collapse.getLast? = some x ∧
      isBlankByte x = false := by
  have hwords : ∀ w ∈ Bytes.words s, Unbroken w :=
    unbroken_of_wordsFrom s [] fun a b hab hb => absurd (List.append_eq_nil_iff.1 hab.symm).2 hb
  have hfirst : ∀ w ∈ Bytes.words s, ∃ c b, w = c :: b ∧ isBlankByte c = false := by
    intro w hw
    obtain ⟨hne, hun⟩ := hwords w hw
    obtain ⟨c, b, rfl⟩ := List.exists_cons_of_ne_nil hne
    refine ⟨c, b, rfl, Bool.eq_false_iff.2 fun hc => ?_⟩
    have hblank := hun [] (c :: b) [] rfl (by simp) (.inl rfl)
    rw [List.append_nil, blankSize_of_isBlankByte hc] at hblank
    cases hblank
  have hlast : ∀ w ∈ Bytes.words s, ∃ x, w.getLast? = some x ∧ isBlankByte x = false := by
    intro w hw
    obtain ⟨hne, hun⟩ := hwords w hw
    obtain ⟨a, x, rfl⟩ := (List.eq_nil_or_concat' w).resolve_left hne
    refine ⟨x, List.getLast?_concat, Bool.eq_false_iff.2 fun hx => ?_⟩
    have hblank := hun a [x] [] rfl (by simp) (.inl rfl)
    rw [List.append_nil, blankSize_of_isBlankByte hx] at hblank
    cases hblank
  unfold Bytes.collapse at h ⊢
  cases hws : Bytes.words s with
  | nil =>
    rw [hws] at h
    exact absurd rfl h
  | cons w ws =>
    rw [hws] at hfirst hlast
    obtain ⟨c, b, rfl, hc⟩ := hfirst w List.mem_cons_self
    obtain ⟨x, hx, hb⟩ := getLast?_joinWith (by simp) hlast
    have hcons : ∃ rest, Bytes.joinWith [0x20] ((c :: b) :: ws) = c :: rest := by
      cases ws <;> exact ⟨_, rfl⟩
    obtain ⟨rest, hrest⟩ := hcons
    exact ⟨c, rest, x, hrest, hc, hx, hb⟩

/-- Such a text is cut out wherever it stands. -/
theorem Inset.raw {u : Bytes} (h : Inset u) (before after : Bytes) :
    Source.raw (Bytes.slice (before ++ u ++ after)) (tokensFrom before.length false u) = u := by
  obtain ⟨c, rest, x, hu, hc, hx, hb⟩ := edges_of_collapse (s := u) (by rw [h.collapsed]; exact h.nonempty)
  rw [h.collapsed] at hu hx
  exact raw_tokensFrom hu hc hx hb false

/-- It has its own tokens in front of a byte that ends tokens. -/
theorem Inset.tokens {u : Bytes} (h : Inset u) {x : UInt8} (hx : isStop x = true) (hdot : x ≠ '.'.toUInt8)
    (hangle : x ≠ '>'.toUInt8) (pos : Nat) (r : Bytes) :
    ∃ f, tokensFrom pos false (u ++ x :: r)
    = tokensFrom pos false u ++ tokensFrom (pos + u.length) f (x :: r) := by
  have hall : ∀ t ∈ tokensFrom pos false u, textEnds t.text = true ∧ t.isTrivia = false := by
    intro t ht
    rw [← Nat.zero_add pos, tokensFrom_shift] at ht
    obtain ⟨t₀, ht₀, rfl⟩ := List.mem_map.1 ht
    exact ⟨h.closed t₀ ht₀, h.solid t₀ ht₀⟩
  refine tokensFrom_append r hx u pos false (fun t ht => (hall t ht).1)
    (fun _ _ => joins_eq_false _ _ hdot hangle) fun htrivia => ?_
  obtain ⟨t, ht, htt⟩ := (Option.any_eq_true _ _).1 htrivia
  rw [(hall t (List.mem_of_getLast? ht)).2] at htt
  cases htt

theorem tokensFrom_dotted_alone {s : Bytes} (h : IsDotted s) (pos : Nat) (f : Bool) :
    tokensFrom pos f s = dottedTokens pos (dottedParts s) := by
  have heq := tokensFrom_dotted (r := []) h (fun x hx => by cases hx) pos f
  rwa [List.append_nil, tokensFrom_nil, List.append_nil] at heq

/-- A dotted name is cut out as it was written. -/
theorem inset_dotted {s : Bytes} (h : IsDotted s) : Inset s := by
  obtain ⟨part, parts, hparts⟩ := List.exists_cons_of_ne_nil (Bytes.splitOn_ne_nil '.'.toUInt8 s)
  have hpart : IsWord part := h part (by unfold dottedParts; rw [hparts]; exact List.mem_cons_self)
  obtain ⟨c, b, rfl, -⟩ := hpart.lexeme
  have hrender := Activity.render_dotted s
  have hneat : Each (fun r p => p.Neat r) (Activity.dottedChunks (dottedParts s)) [] :=
    each_mono (fun _ _ h => h.2) (Activity.tidy_dotted h fun x hx => by cases hx)
  have hhead : ∃ rest, s = (c :: b) ++ rest ∧ Stops rest := by
    have hjoin := Bytes.joinWith_splitOn '.'.toUInt8 s
    rw [hparts] at hjoin
    cases parts with
    | nil => exact ⟨[], by rw [← hjoin, List.append_nil]; rfl, fun x hx => by cases hx⟩
    | cons next parts =>
      refine ⟨['.'.toUInt8] ++ Bytes.joinWith ['.'.toUInt8] (next :: parts), ?_, stops_cons _ (by decide)⟩
      rw [← hjoin, Bytes.joinWith, List.append_assoc]
  obtain ⟨rest, hs, hstops⟩ := hhead
  have hne : s ≠ [] := by
    rw [hs]
    simp
  refine ⟨?_, hne, fun t ht => ?_, fun t ht => ?_⟩
  · have hblank : Text.blankSize s = 0 := by
      have hword := blankSize_word hpart (a := []) (b := c :: b) rfl (by simp) hstops
      rwa [← hs] at hword
    have hcollapse := collapse_render hneat (by rwa [hrender]) (by rwa [hrender])
    rwa [hrender] at hcollapse
  · have hmem := ht
    rw [tokensFrom_dotted_alone h] at ht
    refine textEnds_of_solid hmem (not_isTrivia_dotted ht) ?_
    rcases mem_dottedTokens ht with ⟨-, htext⟩ | ⟨-, htext⟩
    · obtain ⟨c, b, hw, -, hlex⟩ := (h _ htext).lexeme
      have hends := textEnds_of_word hlex
      rw [← hw, textEnds, Bool.and_eq_true] at hends
      exact hends.1
    · rw [htext]
      decide
  · rw [tokensFrom_dotted_alone h] at ht
    exact not_isTrivia_dotted ht

theorem Thin.exists_alike {ts ts' : List Token} (h : Thin ts ts') {t' : Token} (ht : t' ∈ ts') :
    ∃ t ∈ ts, Alike t t' := by
  induction h with
  | nil => cases ht
  | keep ha _ ih =>
    rcases List.mem_cons.1 ht with rfl | ht
    · exact ⟨_, List.mem_cons_self, ha⟩
    · obtain ⟨t, hmem, halike⟩ := ih ht
      exact ⟨t, List.mem_cons_of_mem _ hmem, halike⟩
  | drop _ _ ih =>
    obtain ⟨t, hmem, halike⟩ := ih ht
    exact ⟨t, List.mem_cons_of_mem _ hmem, halike⟩

theorem flat_of_raw {cut : Nat → Nat → Bytes} {ts : List Token} {u : Bytes} (h : Inset u)
    (hraw : raw cut ts = u) : flat cut ts = u := by
  rw [flat, hraw, h.collapsed]

end Flowsmith.Source
