import Flowsmith.Text.Match
import Mathlib.Data.List.Induction
import Mathlib.Data.List.TakeWhile
import Mathlib.Tactic.Push

/-!
# Erasing from the beginnings of lines

A pattern of a line looks no further than the line feed that ends it. When all its matches stand at the
beginnings of lines, behind nothing but a margin, erasing them joins margins to lines and changes no
other line, so nothing is left to match and no other pattern finds more than before.

* `fullLine s` : the line a text begins with, with its line feed;
* `leads p u` : whether only bytes `p` stand on the line that a text ends in;
* `LinePattern` : what a pattern of a line is;
* `exists_of_eraseMatches` : what is left after erasing stands in the same line as before;
* `Clear`, `clear_eraseMatches` : nothing is left to match.
-/

namespace Flowsmith.Text

open Bytes (newline eraseMatches)

/-! ## The line a text begins with -/

/-- The line a text begins with, with the line feed that ends it. -/
def fullLine : Bytes → Bytes
  | [] => []
  | c :: s => if c = newline then [c] else c :: fullLine s

theorem fullLine_newline (s : Bytes) : fullLine (newline :: s) = [newline] := if_pos rfl

theorem fullLine_cons {c : UInt8} (s : Bytes) (h : c ≠ newline) :
    fullLine (c :: s) = c :: fullLine s := if_neg h

theorem fullLine_append {a : Bytes} (s : Bytes) (h : newline ∉ a) :
    fullLine (a ++ s) = a ++ fullLine s := by
  induction a with
  | nil => rfl
  | cons c a ih =>
    rw [List.mem_cons, not_or] at h
    rw [List.cons_append, fullLine_cons _ (Ne.symm h.1), ih h.2, List.cons_append]

theorem fullLine_append_of_mem {a : Bytes} (s t : Bytes) (h : newline ∈ a) :
    fullLine (a ++ s) = fullLine (a ++ t) := by
  induction a with
  | nil => cases h
  | cons c a ih =>
    by_cases hc : c = newline
    · rw [hc, List.cons_append, List.cons_append, fullLine_newline, fullLine_newline]
    · rw [List.cons_append, List.cons_append, fullLine_cons _ hc, fullLine_cons _ hc]
      rw [ih ((List.mem_cons.1 h).resolve_left (Ne.symm hc))]

theorem fullLine_prefix (s : Bytes) : fullLine s <+: s := by
  induction s with
  | nil => exact List.prefix_rfl
  | cons c s ih =>
    by_cases hc : c = newline
    · rw [hc, fullLine_newline]
      exact List.prefix_append [newline] s
    · rw [fullLine_cons s hc]
      exact (List.prefix_cons_inj c).2 ih

theorem firstLine_cons {c : UInt8} (s : Bytes) (h : c ≠ newline) :
    firstLine (c :: s) = c :: firstLine s :=
  List.takeWhile_cons_of_pos (p := (· != newline)) (by simpa using h)

theorem firstLine_fullLine (s : Bytes) : firstLine (fullLine s) = firstLine s := by
  induction s with
  | nil => rfl
  | cons c s ih =>
    by_cases hc : c = newline
    · rw [hc, fullLine_newline]
      rfl
    · rw [fullLine_cons s hc, firstLine_cons _ hc, firstLine_cons _ hc, ih]

theorem firstLine_append {a : Bytes} (s : Bytes) (h : newline ∉ a) :
    firstLine (a ++ s) = a ++ firstLine s := by
  induction a with
  | nil => rfl
  | cons c a ih =>
    rw [List.mem_cons, not_or] at h
    rw [List.cons_append, firstLine_cons _ (Ne.symm h.1), ih h.2, List.cons_append]

theorem newline_not_mem_firstLine (s : Bytes) : newline ∉ firstLine s := by
  intro h
  have hne := List.mem_takeWhile_imp h
  simp at hne

/-- A text without a line feed at the beginning lies in the first line. -/
theorem prefix_firstLine {a s : Bytes} (ha : newline ∉ a) : a <+: firstLine s ↔ a <+: s := by
  constructor
  · exact fun h => h.trans (List.takeWhile_prefix _)
  · rintro ⟨r, rfl⟩
    rw [firstLine_append r ha]
    exact List.prefix_append a _

theorem prefix_fullLine {a s : Bytes} (ha : newline ∉ a) : a <+: fullLine s ↔ a <+: s := by
  rw [← prefix_firstLine ha, firstLine_fullLine, prefix_firstLine ha]

/-! ## The line a text ends in -/

/-- Whether only bytes `p` stand on the line that a text ends in. -/
def leads (p : UInt8 → Bool) (u : Bytes) : Bool := (u.reverse.takeWhile (· != newline)).all p

variable {p : UInt8 → Bool}

theorem leads_nil : leads p [] = true := rfl

theorem leads_concat (u : Bytes) (c : UInt8) :
    leads p (u ++ [c]) = (c == newline || (p c && leads p u)) := by
  unfold leads
  rw [List.reverse_append, List.reverse_singleton, List.singleton_append]
  by_cases hc : c = newline
  · subst hc
    rfl
  · have heq : (c == newline) = false := by simpa using hc
    rw [List.takeWhile_cons_of_pos (by simpa using hc), List.all_cons, heq, Bool.false_or]

theorem leads_newline (u : Bytes) : leads p (u ++ [newline]) = true := by rw [leads_concat]; rfl

theorem leads_append {v : Bytes} (u : Bytes) (h : newline ∉ v) :
    leads p (u ++ v) = (leads p u && v.all p) := by
  induction v generalizing u with
  | nil => simp
  | cons c v ih =>
    rw [List.mem_cons, not_or] at h
    have heq : (c == newline) = false := by simpa using Ne.symm h.1
    rw [List.append_cons, ih (u ++ [c]) h.2, leads_concat, heq, Bool.false_or, List.all_cons,
      Bool.and_comm (p c), Bool.and_assoc]

theorem leads_append_of_mem {v : Bytes} (u u' : Bytes) (h : newline ∈ v) :
    leads p (u ++ v) = leads p (u' ++ v) := by
  induction v using List.reverseRecOn with
  | nil => cases h
  | append_singleton v c ih =>
    rw [← List.append_assoc, ← List.append_assoc, leads_concat, leads_concat]
    by_cases hc : c = newline
    · rw [hc]
      rfl
    · rw [ih ((List.mem_append.1 h).resolve_right (by simpa using Ne.symm hc))]

theorem leads_append_all {u v : Bytes} (hu : leads p u = true) (hv : ∀ c ∈ v, p c = true) :
    leads p (u ++ v) = true := by
  induction v using List.reverseRecOn with
  | nil => rwa [List.append_nil]
  | append_singleton v c ih =>
    rw [← List.append_assoc, leads_concat, ih fun d hd => hv d (List.mem_append_left _ hd),
      hv c (by simp)]
    simp

theorem leads_right {u v : Bytes} (h : leads p (u ++ v) = true) : leads p v = true := by
  by_cases hv : newline ∈ v
  · exact leads_append_of_mem u [] hv ▸ h
  · rw [leads_append u hv, Bool.and_eq_true, List.all_eq_true] at h
    exact leads_append_all leads_nil h.2

/-- What leads the last line of a text stands behind a line feed, or at the beginning. -/
theorem exists_of_leads {u : Bytes} (h : leads p u = true) :
    ∃ l b, u = l ++ b ∧ (l = [] ∨ ∃ l', l = l' ++ [newline]) ∧ ∀ c ∈ b, p c = true := by
  induction u using List.reverseRecOn with
  | nil => exact ⟨[], [], rfl, Or.inl rfl, by simp⟩
  | append_singleton u c ih =>
    by_cases hc : c = newline
    · exact ⟨u ++ [c], [], by simp, Or.inr ⟨u, by rw [hc]⟩, by simp⟩
    · have hne : (c == newline) = false := by simpa using hc
      rw [leads_concat, hne, Bool.false_or, Bool.and_eq_true] at h
      obtain ⟨l, b, rfl, hl, hb⟩ := ih h.2
      refine ⟨l, b ++ [c], by simp, hl, fun d hd => ?_⟩
      rcases List.mem_append.1 hd with hd | hd
      · exact hb d hd
      · rw [List.mem_singleton.1 hd]
        exact h.1

/-- A line that is led by bytes of one kind is led by those of a wider kind. -/
theorem leads_mono {q : UInt8 → Bool} (hpq : ∀ c, p c = true → q c = true) {u : Bytes}
    (h : leads p u = true) : leads q u = true := by
  unfold leads at h ⊢
  rw [List.all_eq_true] at h ⊢
  exact fun c hc => hpq c (h c hc)

/-! ## Patterns of lines -/

def isMargin (c : UInt8) : Bool := c == 0x20 || c == 0x09

/-- A pattern that begins with no blank, ends with a line feed, and of which the line tells whether it
matches. -/
structure LinePattern (f : Bytes → Option Nat) : Prop where
  head : ∀ {s k}, f s = some k → ∃ c r, s = c :: r ∧ c ≠ newline ∧ isMargin c = false
  ends : ∀ {s k}, f s = some k → ∃ m r, s = m ++ newline :: r ∧ k = m.length + 1
  line : ∀ s, (f (fullLine s)).isSome = (f s).isSome

/-- Nothing matches anywhere in a text. -/
def Clear (f : Bytes → Option Nat) (s : Bytes) : Prop := ∀ u v, s = u ++ v → f v = none

/-- Every match stands behind a margin, when `u` stands in front of the text. -/
def AtMargin (f : Bytes → Option Nat) (u s : Bytes) : Prop :=
  ∀ v t, s = v ++ t → f t ≠ none → leads isMargin (u ++ v) = true

theorem Clear.suffix {f : Bytes → Option Nat} {s t : Bytes} (h : Clear f (t ++ s)) : Clear f s :=
  fun u v heq => h (t ++ u) v (by rw [heq, List.append_assoc])

theorem eraseMatches_of_clear {f : Bytes → Option Nat} {s : Bytes} (h : Clear f s) :
    eraseMatches f s = s := by
  induction s with
  | nil => rw [eraseMatches]
  | cons c s ih =>
    rw [eraseMatches, h [] (c :: s) rfl]
    exact congrArg (c :: ·) (ih (Clear.suffix (t := [c]) h))

theorem eraseMatches_cons {f : Bytes → Option Nat} {c : UInt8} {s : Bytes} (h : f (c :: s) = none) :
    eraseMatches f (c :: s) = c :: eraseMatches f s := by
  rw [eraseMatches, h]

/-- Behind something other than a margin the rest of the line stays. -/
theorem fullLine_eraseMatches {f : Bytes → Option Nat} {u s : Bytes} (hu : leads isMargin u = false)
    (h : AtMargin f u s) :
    fullLine (eraseMatches f s) = fullLine s := by
  induction s generalizing u with
  | nil => rw [eraseMatches]
  | cons c s ih =>
    have hnone : f (c :: s) = none := by
      by_contra hsome
      have hlead := h [] (c :: s) rfl hsome
      rw [List.append_nil, hu] at hlead
      cases hlead
    rw [eraseMatches_cons hnone]
    by_cases hc : c = newline
    · rw [hc, fullLine_newline, fullLine_newline]
    · rw [fullLine_cons _ hc, fullLine_cons _ hc]
      have heq : (c == newline) = false := by simpa using hc
      refine congrArg (c :: ·) (ih (u := u ++ [c]) ?_ fun v t hs ht => ?_)
      · rw [leads_concat, heq, hu, Bool.and_false, Bool.false_or]
      · rw [List.append_assoc]
        exact h (c :: v) t (by rw [hs]; rfl) ht

section Erase

variable {f : Bytes → Option Nat} (hf : LinePattern f)

include hf

theorem LinePattern.congr {s t : Bytes} (h : fullLine s = fullLine t) : f s = none ↔ f t = none := by
  have hsome : (f s).isSome = (f t).isSome := by rw [← hf.line s, ← hf.line t, h]
  rw [← Option.not_isSome_iff_eq_none, ← Option.not_isSome_iff_eq_none, hsome]

/-- A match goes, with the line feed that ends it. -/
theorem eraseMatches_match {c : UInt8} {s : Bytes} (h : f (c :: s) ≠ none) :
    ∃ m r, c :: s = m ++ newline :: r ∧ eraseMatches f (c :: s) = eraseMatches f r := by
  obtain ⟨k, hk⟩ := Option.ne_none_iff_exists'.1 h
  obtain ⟨m, r, hs, rfl⟩ := hf.ends hk
  refine ⟨m, r, hs, ?_⟩
  rw [eraseMatches, hk]
  have hdrop := congrArg (List.drop (m.length + 1)) hs
  rw [List.drop_succ_cons, List.append_cons, List.drop_left' (by simp)] at hdrop
  exact congrArg (eraseMatches f) hdrop

/-- **What erasing leaves.** What is left of a text from some byte other than a blank on stood in the
text with the same line, and when a margin was in front of it, one still is. -/
theorem exists_of_eraseMatches {u u' s : Bytes}
    (hu : leads isMargin u = true → leads isMargin u' = true) (h : AtMargin f u s) {v' t' : Bytes}
    {c : UInt8} (heq : eraseMatches f s = v' ++ c :: t') (hc : c ≠ newline)
    (hblank : isMargin c = false) :
    ∃ v t, s = v ++ t ∧ f t = none ∧ fullLine t = fullLine (c :: t') ∧
      (leads isMargin (u ++ v) = true → leads isMargin (u' ++ v') = true) := by
  induction hn : s.length using Nat.strongRecOn generalizing u u' s v' with
  | _ n ih =>
    cases s with
    | nil =>
      rw [eraseMatches] at heq
      exact absurd heq (by simp)
    | cons d s =>
      by_cases hnone : f (d :: s) = none
      · rw [eraseMatches_cons hnone] at heq
        have hrest : AtMargin f (u ++ [d]) s := fun v t hs ht => by
          rw [List.append_assoc]
          exact h (d :: v) t (by rw [hs]; rfl) ht
        cases v' with
        | nil =>
          obtain ⟨rfl, rfl⟩ := List.cons.inj heq
          refine ⟨[], d :: s, rfl, hnone, ?_, fun hlead => ?_⟩
          · have hlead : leads isMargin (u ++ [d]) = false := by
              rw [leads_concat, hblank, Bool.false_and, Bool.or_false]
              simpa using hc
            rw [fullLine_cons _ hc, fullLine_cons _ hc, fullLine_eraseMatches hlead hrest]
          · rw [List.append_nil] at hlead ⊢
            exact hu hlead
        | cons d' v' =>
          obtain ⟨rfl, htail⟩ := List.cons.inj heq
          have hu' : leads isMargin (u ++ [d]) = true → leads isMargin (u' ++ [d]) = true := by
            rw [leads_concat, leads_concat, Bool.or_eq_true, Bool.or_eq_true, Bool.and_eq_true,
              Bool.and_eq_true]
            exact Or.imp_right (And.imp_right hu)
          obtain ⟨v, t, rfl, ht, hline, hlead⟩ :=
            ih s.length (by rw [← hn, List.length_cons]; omega) hu' hrest htail rfl
          refine ⟨d :: v, t, rfl, ht, hline, fun hv => ?_⟩
          have := hlead (by rwa [List.append_assoc])
          rwa [List.append_assoc] at this
      · -- the margin in front of the match joins the next line
        have hlead := h [] (d :: s) rfl hnone
        rw [List.append_nil] at hlead
        obtain ⟨m, r, hs, herase⟩ := eraseMatches_match hf hnone
        rw [herase] at heq
        have hlen : r.length < (d :: s).length := by
          rw [hs, List.length_append, List.length_cons]
          omega
        have hrest : AtMargin f (u ++ (m ++ [newline])) r := fun v t hr ht => by
          rw [List.append_assoc]
          exact h (m ++ [newline] ++ v) t (by rw [hs, hr]; simp) ht
        obtain ⟨v, t, rfl, ht, hline, hv⟩ :=
          ih r.length (by omega) (fun _ => hu hlead) hrest heq rfl
        refine ⟨m ++ newline :: v, t, by rw [hs]; simp, ht, hline, fun hlead' => hv ?_⟩
        rw [List.append_assoc]
        simpa using hlead'

/-- **Erasing is done once.** Nothing matches in what is left when all matches stood behind margins. -/
theorem clear_eraseMatches {s : Bytes} (h : AtMargin f [] s) : Clear f (eraseMatches f s) := by
  intro v' t' heq
  by_contra hsome
  obtain ⟨k, hk⟩ := Option.ne_none_iff_exists'.1 hsome
  obtain ⟨c, r, rfl, hc, hblank⟩ := hf.head hk
  obtain ⟨v, t, -, hnone, hline, -⟩ := exists_of_eraseMatches hf id h heq hc hblank
  exact hsome ((hf.congr hline).1 hnone)

/-- Erasing makes nothing match a pattern that matched nowhere. -/
theorem Clear.eraseMatches {g : Bytes → Option Nat} (hg : LinePattern g) {s : Bytes}
    (h : AtMargin f [] s) (hclear : Clear g s) : Clear g (eraseMatches f s) := by
  intro v' t' heq
  by_contra hsome
  obtain ⟨k, hk⟩ := Option.ne_none_iff_exists'.1 hsome
  obtain ⟨c, r, rfl, hc, hblank⟩ := hg.head hk
  obtain ⟨v, t, rfl, -, hline, -⟩ := exists_of_eraseMatches hf id h heq hc hblank
  exact hsome ((hg.congr hline).1 (hclear v t rfl))

end Erase

/-- The text `w` stands behind margins only. -/
def WordAtMargin (w s : Bytes) : Prop := ∀ v t, s = v ++ t → w <+: t → leads isMargin v = true

/-- A word that stands behind margins only still does after erasing. -/
theorem WordAtMargin.eraseMatches {f : Bytes → Option Nat} (hf : LinePattern f) {s w : Bytes}
    {c : UInt8} {w' : Bytes} (hw : w = c :: w') (hline : newline ∉ w) (hblank : isMargin c = false)
    (h : AtMargin f [] s) (hword : WordAtMargin w s) : WordAtMargin w (eraseMatches f s) := by
  intro v' t' heq hpre
  obtain ⟨r, rfl⟩ := hpre
  subst hw
  rw [List.mem_cons, not_or] at hline
  obtain ⟨v, t, rfl, -, hfull, hlead⟩ :=
    exists_of_eraseMatches hf id h heq (Ne.symm hline.1) hblank
  refine hlead (hword v t rfl ?_)
  have hmem : newline ∉ c :: w' := by simpa using hline
  rw [← prefix_fullLine hmem, hfull, prefix_fullLine hmem]
  exact List.prefix_append _ r

end Flowsmith.Text
