import Flowsmith.Proofs.Source.Reheaded
import Flowsmith.Proofs.Text.Lines

/-!
# The lines in front of a token

No token in front of one that stands first on its line reaches over the line feed before it, so the lines
before have the same tokens whatever follows them.

* `length_le_of_lexeme`, `tokensFrom_line_feed` : the tokens in front of a line feed with blanks behind it;
* `tokensFrom_lines`, `fronts_of_line` : the tokens in front of the first one of a line;
* `tokensFrom_lineEnd` : the tokens behind the end of a line.
-/

namespace Flowsmith.Source

open Bytes (newline isLetterByte)
open Text (isSpace leads)

theorem ne_newline_of_isGap {c : UInt8} (h : isGap c = true) : c ≠ newline := by
  rintro rfl
  revert h
  decide

theorem isTail_of_isGap {c : UInt8} (h : isGap c = true) : Utf8.isTail c = false := by
  have hc := Bytes.forall_byte (fun c => !isGap c || !Utf8.isTail c) rfl c
  simpa [h] using hc

/-- A token does not reach over a line feed when there are only blanks behind it up to a letter that begins
one. -/
theorem length_le_of_lexeme {fresh : Bool} {c x : UInt8} {b s g r rest : Bytes} {kind : TokenKind}
    (hx : isLetterByte x = true) (hg : IsGapText g) (happ : s ++ newline :: (g ++ x :: r) = b ++ rest)
    (hlex : lexeme fresh c (b ++ rest) = (kind, b.length)) (hle : b.length ≤ s.length + 1 + g.length) :
    b.length ≤ s.length := by
  by_contra hlt
  obtain ⟨b', rfl⟩ : s <+: b :=
    List.prefix_of_prefix_length_le (List.prefix_append _ _) ⟨rest, happ.symm⟩ (by omega)
  rw [List.append_assoc] at happ
  have hrest := List.append_cancel_left happ
  rw [List.length_append] at hle hlt
  have hwhole : newline :: (g ++ x :: r) = (newline :: g) ++ x :: r := rfl
  obtain ⟨g', hg'⟩ : b' <+: newline :: g :=
    List.prefix_of_prefix_length_le ⟨rest, hrest.symm⟩ ⟨x :: r, rfl⟩ (by rw [List.length_cons]; omega)
  rw [hwhole, ← hg', List.append_assoc] at hrest
  obtain rfl := List.append_cancel_left hrest
  -- the token would end with a blank
  have hne : b' ≠ [] := by
    rintro rfl
    simp at hlt
  have hblank : isBlankByte (b'.getLast hne) = true := by
    have hmem : b'.getLast hne ∈ newline :: g := by
      rw [← hg']
      exact List.mem_append_left _ (List.getLast_mem hne)
    rcases List.mem_cons.1 hmem with heq | hmem
    · rw [heq]
      rfl
    · exact isBlankByte_of_isGap (hg _ hmem)
  have hlast : (s ++ b').getLast? = some (b'.getLast hne) := by
    rw [List.getLast?_append, List.getLast?_eq_some_getLast hne, Option.some_or]
  -- it would end in front of a blank of the line, or in front of the letter
  have hplain : isBlankByte (b'.getLast hne) = false := by
    obtain ⟨d, b'', rfl⟩ := List.exists_cons_of_ne_nil hne
    have hsuffix : ∀ y ∈ g', isGap y = true := fun y hy => by
      rw [← (List.cons.inj hg').2] at hg
      exact hg y (List.mem_append_right _ hy)
    cases g' with
    | nil => exact not_blank_of_lexeme (ne_of_isLetterByte hx (by decide)) (isTail_of_isLetterByte hx) hlex hlast
    | cons y g' =>
      have hy := hsuffix y List.mem_cons_self
      exact not_blank_of_lexeme (ne_newline_of_isGap hy) (isTail_of_isGap hy) hlex hlast
  rw [hblank] at hplain
  cases hplain

/-- **The tokens in front of a line feed** with only blanks behind it up to a letter that begins one. -/
theorem tokensFrom_line_feed {x : UInt8} {g : Bytes} (r : Bytes) (hx : isLetterByte x = true)
    (hg : IsGapText g) (s : Bytes) :
    ∀ (pos : Nat) (fresh : Bool),
      Clean (tokensFrom pos fresh (s ++ newline :: (g ++ x :: r))) (pos + (s.length + 1 + g.length)) →
      ∃ ts, (∀ t ∈ ts, t.stop ≤ pos + (s.length + 1 + g.length)) ∧ ∀ r',
        tokensFrom pos fresh (s ++ newline :: (g ++ r'))
          = ts ++ tokensFrom (pos + (s.length + 1 + g.length)) true r' := by
  match s with
  | [] =>
    intro pos fresh _
    refine ⟨[], fun t ht => (nomatch ht), fun r' => ?_⟩
    rw [List.nil_append, List.nil_append, tokensFrom_newline, tokensFrom_gaps hg, List.length_nil,
      Nat.zero_add, Nat.add_assoc]
  | c :: s =>
    intro pos fresh hclean
    rw [List.cons_append] at hclean
    rcases tokensFrom_cases pos fresh c (s ++ newline :: (g ++ x :: r)) with
      ⟨hc, heq⟩ | ⟨hc, kind, b, rest, happ, hlex, heq⟩
    · have hlen : pos + ((c :: s).length + 1 + g.length) = pos + 1 + (s.length + 1 + g.length) := by
        rw [List.length_cons]
        omega
      rw [heq, hlen] at hclean
      obtain ⟨ts, hstop, hmore⟩ := tokensFrom_line_feed r hx hg s (pos + 1) _ hclean
      rw [hlen]
      refine ⟨ts, hstop, fun r' => ?_⟩
      rcases tokensFrom_cases pos fresh c (s ++ newline :: (g ++ r')) with ⟨-, heq'⟩ | ⟨hc', -⟩
      · rw [List.cons_append, heq', hmore]
      · rw [hc] at hc'
        cases hc'
    · rw [heq] at hclean
      have hle : b.length ≤ s.length := by
        refine length_le_of_lexeme hx hg happ hlex ?_
        have := hclean _ List.mem_cons_self
        simp only [Token.stop, List.length_cons] at this
        omega
      obtain ⟨s', rfl⟩ : b <+: s :=
        List.prefix_of_prefix_length_le ⟨rest, happ.symm⟩ (List.prefix_append s _) hle
      rw [List.append_assoc] at happ
      obtain rfl := List.append_cancel_left happ
      have hlen : pos + ((c :: (b ++ s')).length + 1 + g.length)
          = pos + (c :: b).length + (s'.length + 1 + g.length) := by
        rw [List.length_cons, List.length_append, List.length_cons]
        omega
      rw [hlen] at hclean ⊢
      obtain ⟨ts, hstop, hmore⟩ := tokensFrom_line_feed r hx hg s' (pos + (c :: b).length) false
        fun t ht => hclean t (List.mem_cons_of_mem _ ht)
      refine ⟨⟨kind, c :: b, pos⟩ :: ts, fun t ht => ?_, fun r' => ?_⟩
      · rcases List.mem_cons.1 ht with rfl | ht
        · exact Nat.le_add_right _ _
        · exact hstop t ht
      · have htoken := tokensFrom_token pos fresh hc ((akin_line s' (g ++ x :: r) (g ++ r')).lexeme hlex)
        rw [List.cons_append, List.append_assoc, htoken, hmore r', List.cons_append]
termination_by s.length

theorem isGap_of_isSpace {c : UInt8} (h : isSpace c = true) (hc : c ≠ newline) : isGap c = true := by
  have hgap := Bytes.forall_byte (fun c => !isSpace c || c == newline || isGap c) rfl c
  simpa [h, hc] using hgap

/-- A text that ends behind nothing but blanks on its line. -/
theorem exists_line {u : Bytes} (h : leads isSpace u = true) :
    ∃ l g, u = l ++ g ∧ (l = [] ∨ ∃ s, l = s ++ [newline]) ∧ IsGapText g := by
  refine Text.exists_of_leads (p := isGap) ?_
  rw [leads, List.all_eq_true] at h ⊢
  exact fun c hc => isGap_of_isSpace (h c hc) (by simpa using List.mem_takeWhile_imp hc)

/-- **The tokens in front of the first one of a line** are the same in front of anything else, and a line
begins there. -/
theorem tokensFrom_lines {u : Bytes} {x : UInt8} {pos : Nat} (r : Bytes) (hx : isLetterByte x = true)
    (hu : leads isSpace u = true) (hclean : Clean (tokensFrom pos true (u ++ x :: r)) (pos + u.length)) :
    ∃ ts, (∀ t ∈ ts, t.stop ≤ pos + u.length) ∧
      ∀ r', tokensFrom pos true (u ++ r') = ts ++ tokensFrom (pos + u.length) true r' := by
  obtain ⟨l, g, rfl, rfl | ⟨s, rfl⟩, hg⟩ := exists_line hu
  · exact ⟨[], fun t ht => (nomatch ht), fun r' => tokensFrom_gaps hg r' pos true⟩
  · have happ : ∀ r' : Bytes, s ++ [newline] ++ g ++ r' = s ++ newline :: (g ++ r') := fun r' => by simp
    have hlen : (s ++ [newline] ++ g).length = s.length + 1 + g.length := by
      rw [List.length_append, List.length_append]
      rfl
    rw [happ, hlen] at hclean
    simp only [happ, hlen]
    exact tokensFrom_line_feed r hx hg s pos true hclean

/-- The tokens in front of one that stands first on its line, in front of anything else. -/
theorem fronts_of_line {u r : Bytes} {x : UInt8} {pos : Nat} {P Q : List Token} {k : Token}
    (hx : isLetterByte x = true) (hu : leads isSpace u = true)
    (hsolid : solid (tokensFrom pos true (u ++ x :: r)) = P ++ k :: Q) (hk : k.start = pos + u.length) :
    (∀ t ∈ P, t.stop ≤ pos + u.length) ∧ solid (tokensFrom (pos + u.length) true (x :: r)) = k :: Q ∧
      ∀ r', solid (tokensFrom pos true (u ++ r')) = P ++ solid (tokensFrom (pos + u.length) true r') := by
  have hmem : k ∈ tokensFrom pos true (u ++ x :: r) := (mem_solid.1 (by rw [hsolid]; simp)).1
  obtain ⟨ts, hstop, hmore⟩ := tokensFrom_lines r hx hu (hk ▸ (clean_of_mem hmem).1)
  obtain ⟨hP, -, hts, hback⟩ := solid_parts (hmore (x :: r)) hstop hsolid hk
  exact ⟨hP, hback, fun r' => by rw [hmore, solid_append, hts]⟩

theorem tokensFrom_lineEnd {m : Bytes} (hm : ∀ c ∈ m, isBlankByte c = true) (r : Bytes) (pos : Nat)
    (fresh : Bool) :
    tokensFrom pos fresh (m ++ newline :: r) = tokensFrom (pos + (m.length + 1)) true r := by
  obtain ⟨fresh', heq⟩ := tokensFrom_blanks hm (newline :: r) pos fresh
  rw [heq, tokensFrom_newline, Nat.add_assoc]

end Flowsmith.Source
