import Flowsmith.Activity.Pass
import Flowsmith.Proofs.Source.Abutting
import Flowsmith.Proofs.Text.Lines

/-!
# Attributes and using directives of an activity

The first three passes erase lines and add lines. Each leaves nothing that it or one of the others would
change, as long as what they look for stands at the beginnings of lines.

* `validationOption?_isSome`, `workflowUsingHead?_eq_some` : when the patterns match;
* `Conventional` : a source whose attributes and using directives stand at the beginnings of lines;
* `Importable` : the namespaces that may be added;
* `imports_iff` : when a text imports a namespace;
* `Done` : a source with which the first three passes are done; `done_of_conventional` : what they make of
  a conventional source is one.
-/

namespace Flowsmith.Activity

open Bytes (newline)
open Source (IsDotted)
open Text (isSpace lineBreaks? closedLine? anyCharacter? firstLine fullLine leads LinePattern isMargin
  Clear AtMargin WordAtMargin clear_eraseMatches)

/-! ## Occurrences -/

theorem indexOf?_found {needle s : Bytes} {i : Nat} (h : Bytes.indexOf? needle s = some i) :
    i ≤ s.length ∧ needle <+: s.drop i := by
  induction s generalizing i with
  | nil =>
    rw [Bytes.indexOf?] at h
    split at h
    · rename_i hnil
      cases h
      exact ⟨Nat.le_refl 0, by rw [List.isEmpty_iff.1 hnil]; exact List.nil_prefix⟩
    · cases h
  | cons c s ih =>
    rw [Bytes.indexOf?] at h
    split at h
    · rename_i hpre
      cases h
      exact ⟨Nat.zero_le _, List.isPrefixOf_iff_prefix.1 hpre⟩
    · obtain ⟨j, hj, rfl⟩ := Option.map_eq_some_iff.1 h
      exact ⟨Nat.succ_le_succ (ih hj).1, (ih hj).2⟩

theorem indexOf?_le {needle s : Bytes} {n : Nat} (h : needle <+: s.drop n) :
    ∃ i ≤ n, Bytes.indexOf? needle s = some i := by
  induction s generalizing n with
  | nil =>
    rw [List.drop_nil] at h
    obtain rfl := List.prefix_nil.1 h
    exact ⟨0, Nat.zero_le n, rfl⟩
  | cons c s ih =>
    rw [Bytes.indexOf?]
    split
    · exact ⟨0, Nat.zero_le n, rfl⟩
    · rename_i hnone
      cases n with
      | zero => exact absurd (List.isPrefixOf_iff_prefix.2 h) hnone
      | succ n =>
        obtain ⟨i, hi, heq⟩ := ih h
        exact ⟨i + 1, Nat.succ_le_succ hi, by rw [heq]; rfl⟩

/-! ## Lines that end with a mark -/

theorem lineBreaks?_isSome {s : Bytes} : (lineBreaks? s).isSome = true ↔
    ∃ b r, s = b ++ newline :: r ∧ ∀ c ∈ b, isSpace c = true ∧ c ≠ newline := by
  induction s with
  | nil => simp [lineBreaks?]
  | cons c s ih =>
    have hspace : isSpace newline = true := by decide
    rw [lineBreaks?]
    by_cases hc : c = newline
    · subst hc
      rw [if_pos hspace]
      refine iff_of_true ?_ ⟨[], s, rfl, by simp⟩
      cases lineBreaks? s <;> rfl
    · by_cases hs : isSpace c = true
      · rw [if_pos hs]
        rw [if_neg hc]
        refine Iff.trans ?_ (ih.trans ?_)
        · cases lineBreaks? s <;> exact Iff.rfl
        constructor
        · rintro ⟨b, r, rfl, hb⟩
          exact ⟨c :: b, r, rfl, List.forall_mem_cons.2 ⟨⟨hs, hc⟩, hb⟩⟩
        · rintro ⟨b, r, heq, hb⟩
          cases b with
          | nil => exact absurd (List.cons.inj heq).1 hc
          | cons d b =>
            obtain ⟨rfl, rfl⟩ := List.cons.inj heq
            exact ⟨b, r, rfl, (List.forall_mem_cons.1 hb).2⟩
      · rw [if_neg hs]
        refine iff_of_false (by simp) ?_
        rintro ⟨b, r, heq, hb⟩
        cases b with
        | nil => exact hc (List.cons.inj heq).1
        | cons d b =>
          obtain ⟨rfl, -⟩ := List.cons.inj heq
          exact hs (hb c List.mem_cons_self).1

theorem lineBreaks?_ends {s : Bytes} {k : Nat} (h : lineBreaks? s = some k) :
    ∃ m r, s = m ++ newline :: r ∧ k = m.length + 1 ∧ ∀ c ∈ m, isSpace c = true := by
  induction s generalizing k with
  | nil => cases h
  | cons c s ih =>
    rw [lineBreaks?] at h
    split at h
    · rename_i hspace
      split at h
      · rename_i j hj
        obtain ⟨m, r, rfl, rfl, hm⟩ := ih hj
        cases h
        exact ⟨c :: m, r, rfl, rfl, List.forall_mem_cons.2 ⟨hspace, hm⟩⟩
      · split at h
        · rename_i hc
          cases h
          exact ⟨[], s, by rw [hc]; rfl, rfl, List.forall_mem_nil _⟩
        · cases h
    · cases h

theorem closedLine?_ends {mark : UInt8} {s : Bytes} {k : Nat} (h : closedLine? mark s = some k) :
    ∃ m r, s = m ++ newline :: r ∧ k = m.length + 1 := by
  induction s generalizing k with
  | nil => cases h
  | cons c s ih =>
    have hcons : ∀ {j}, (∃ m r, s = m ++ newline :: r ∧ j = m.length + 1) →
        ∃ m r, c :: s = m ++ newline :: r ∧ j + 1 = m.length + 1 := by
      rintro j ⟨m, r, rfl, rfl⟩
      exact ⟨c :: m, r, rfl, rfl⟩
    rw [closedLine?] at h
    split at h
    · cases h
    · split at h
      · rename_i j hj
        cases h
        split at hj
        · obtain ⟨m, r, hs, hk, -⟩ := lineBreaks?_ends hj
          exact hcons ⟨m, r, hs, hk⟩
        · cases hj
      · obtain ⟨j, hj, rfl⟩ := Option.map_eq_some_iff.1 h
        exact hcons (ih hj)

theorem closedLine?_isSome {mark : UInt8} {s : Bytes} (hmark : mark ≠ newline) :
    (closedLine? mark s).isSome = true ↔ ∃ a b r, s = a ++ mark :: (b ++ newline :: r) ∧
      newline ∉ a ∧ ∀ c ∈ b, isSpace c = true ∧ c ≠ newline := by
  induction s with
  | nil => simp [closedLine?]
  | cons c s ih =>
    by_cases hc : c = newline
    · subst hc
      rw [closedLine?, if_pos rfl]
      refine iff_of_false (by simp) ?_
      rintro ⟨a, b, r, heq, ha, -⟩
      cases a with
      | nil => exact hmark (List.cons.inj heq).1.symm
      | cons d a => exact ha (by rw [(List.cons.inj heq).1]; exact List.mem_cons_self)
    · have hsome : (closedLine? mark (c :: s)).isSome = true ↔
          (c = mark ∧ (lineBreaks? s).isSome = true) ∨ (closedLine? mark s).isSome = true := by
        rw [closedLine?, if_neg hc]
        by_cases hm : c = mark
        · rw [if_pos hm]
          cases lineBreaks? s <;> simp [hm]
        · simp [hm]
      rw [hsome, lineBreaks?_isSome, ih]
      constructor
      · rintro (⟨rfl, b, r, rfl, hb⟩ | ⟨a, b, r, rfl, ha, hb⟩)
        · exact ⟨[], b, r, rfl, List.not_mem_nil, hb⟩
        · exact ⟨c :: a, b, r, rfl, by simp [Ne.symm hc, ha], hb⟩
      · rintro ⟨a, b, r, heq, ha, hb⟩
        cases a with
        | nil =>
          obtain ⟨rfl, rfl⟩ := List.cons.inj heq
          exact Or.inl ⟨rfl, b, r, rfl, hb⟩
        | cons d a =>
          obtain ⟨rfl, rfl⟩ := List.cons.inj heq
          exact Or.inr ⟨a, b, r, rfl, fun h => ha (List.mem_cons_of_mem _ h), hb⟩

section Closed

variable {mark : UInt8} (hmark : mark ≠ newline)

include hmark

/-- A line is closed as before when something other than blanks stands in front of its end. -/
theorem closedLine?_append {a s : Bytes} (ha : newline ∉ a)
    (hs : ∀ c, s.head? = some c → isSpace c = false) :
    (closedLine? mark (a ++ s)).isSome = (closedLine? mark s).isSome := by
  rw [Bool.eq_iff_iff, closedLine?_isSome hmark, closedLine?_isSome hmark]
  constructor
  · rintro ⟨x, b, r, heq, hx, hb⟩
    rcases List.append_eq_append_iff.1 heq with ⟨x', rfl, hs'⟩ | ⟨y, rfl, hy⟩
    · exact ⟨x', b, r, hs', fun h => hx (List.mem_append_right _ h), hb⟩
    · cases y with
      | nil => exact ⟨[], b, r, hy.symm, List.not_mem_nil, hb⟩
      | cons d y =>
        -- the mark would have the text behind it on its line, which begins with no blank
        exfalso
        obtain ⟨rfl, hrest⟩ := List.cons.inj hy
        rcases List.append_eq_append_iff.1 hrest with ⟨y', rfl, hy'⟩ | ⟨b', rfl, hb'⟩
        · cases y' with
          | nil => exact absurd (hs newline (congrArg List.head? hy'.symm)) (by decide)
          | cons e y' =>
            refine ha (List.mem_append_right _ (List.mem_cons_of_mem _ ?_))
            rw [(List.cons.inj hy').1]
            simp
        · cases b' with
          | nil => exact absurd (hs newline (by rw [hb']; rfl)) (by decide)
          | cons e b' =>
            have hblank := (hb e (by simp)).1
            rw [hs e (by rw [hb']; rfl)] at hblank
            cases hblank
  · rintro ⟨x, b, r, rfl, hx, hb⟩
    exact ⟨a ++ x, b, r, by rw [List.append_assoc], by simp [ha, hx], hb⟩

/-- A line is closed whatever stands in front of its end. -/
theorem closedLine?_append_left {a s : Bytes} (ha : newline ∉ a)
    (h : (closedLine? mark s).isSome = true) : (closedLine? mark (a ++ s)).isSome = true := by
  rw [closedLine?_isSome hmark] at h ⊢
  obtain ⟨x, b, r, rfl, hx, hb⟩ := h
  exact ⟨a ++ x, b, r, by rw [List.append_assoc], by simp [ha, hx], hb⟩

theorem closedLine?_append_right {s : Bytes} (r : Bytes) (h : (closedLine? mark s).isSome = true) :
    (closedLine? mark (s ++ r)).isSome = true := by
  rw [closedLine?_isSome hmark] at h ⊢
  obtain ⟨x, b, r', rfl, hx, hb⟩ := h
  exact ⟨x, b, r' ++ r, by simp, hx, hb⟩

theorem closedLine?_fullLine {s : Bytes} (h : (closedLine? mark s).isSome = true) :
    (closedLine? mark (fullLine s)).isSome = true := by
  rw [closedLine?_isSome hmark] at h ⊢
  obtain ⟨x, b, r, rfl, hx, hb⟩ := h
  refine ⟨x, b, [], ?_, hx, hb⟩
  rw [Text.fullLine_append _ hx, Text.fullLine_cons _ hmark,
    Text.fullLine_append _ fun h => (hb newline h).2 rfl, Text.fullLine_newline]

theorem closedLine?_congr {s t : Bytes} (h : fullLine s = fullLine t) :
    (closedLine? mark s).isSome = true ↔ (closedLine? mark t).isSome = true := by
  have hline : ∀ s, (closedLine? mark s).isSome = true ↔ (closedLine? mark (fullLine s)).isSome = true :=
    fun s => by
      obtain ⟨r, hr⟩ := Text.fullLine_prefix s
      refine ⟨closedLine?_fullLine hmark, fun h => ?_⟩
      rw [← hr]
      exact closedLine?_append_right hmark r h
  rw [hline s, h, ← hline t]

end Closed

/-! ## Patterns that are closed lines with a head -/

/-- A pattern that matches where one of the heads stands and a mark closes the line behind it. -/
structure Headed (f : Bytes → Option Nat) (Head : Bytes → Prop) (mark : UInt8) : Prop where
  stop : mark ≠ newline
  iff : ∀ {s}, (f s).isSome = true ↔ ∃ h y, Head h ∧ s = h ++ y ∧ (closedLine? mark y).isSome = true
  head : ∀ {h}, Head h → newline ∉ h ∧ ∃ c r, h = c :: r ∧ isMargin c = false
  size : ∀ {s k}, f s = some k → ∃ n j, closedLine? mark (s.drop n) = some j ∧ k = n + j

theorem Headed.linePattern {f : Bytes → Option Nat} {Head : Bytes → Prop} {mark : UInt8}
    (hf : Headed f Head mark) : LinePattern f where
  head {s k} h := by
    obtain ⟨h, y, hhead, rfl, -⟩ := hf.iff.1 (Option.isSome_of_eq_some h)
    obtain ⟨hline, c, r, rfl, hblank⟩ := hf.head hhead
    exact ⟨c, r ++ y, rfl, fun hc => hline (by rw [hc]; exact List.mem_cons_self), hblank⟩
  ends {s k} h := by
    obtain ⟨n, j, hclosed, rfl⟩ := hf.size h
    obtain ⟨m, r, hdrop, rfl⟩ := closedLine?_ends hclosed
    have hlen : n ≤ s.length := by
      have := congrArg List.length hdrop
      simp only [List.length_drop, List.length_append, List.length_cons] at this
      omega
    refine ⟨s.take n ++ m, r, ?_, ?_⟩
    · rw [List.append_assoc, ← hdrop, List.take_append_drop]
    · rw [List.length_append, List.length_take, Nat.min_eq_left hlen, Nat.add_assoc]
  line s := by
    rw [Bool.eq_iff_iff, hf.iff, hf.iff]
    constructor
    · rintro ⟨h, y, hhead, heq, hclosed⟩
      obtain ⟨r, hr⟩ := Text.fullLine_prefix s
      refine ⟨h, y ++ r, hhead, ?_, closedLine?_append_right hf.stop r hclosed⟩
      rw [← hr, heq, List.append_assoc]
    · rintro ⟨h, y, hhead, rfl, hclosed⟩
      exact ⟨h, fullLine y, hhead, Text.fullLine_append y (hf.head hhead).1,
        closedLine?_fullLine hf.stop hclosed⟩

def mention : Bytes := "ValidationOption"

/-- The beginning of an attribute through the mention of validation options. -/
def OptionHead (h : Bytes) : Prop := ∃ x, h = 0x5B :: (x ++ mention) ∧ newline ∉ x

theorem newline_not_mem_mention : newline ∉ mention := by decide

theorem validationOption?_head {s : Bytes} {k : Nat} (h : validationOption? s = some k) :
    ∃ r, s = 0x5B :: r := by
  unfold validationOption? at h
  split at h
  · exact ⟨_, rfl⟩
  · cases h

theorem validationOption?_bracket (s : Bytes) : validationOption? (0x5B :: s) =
    (Bytes.indexOf? mention (firstLine s)).bind fun i =>
      (closedLine? ']'.toUInt8 (s.drop (i + mention.length))).bind fun k =>
        some (1 + (i + mention.length) + k) := rfl

theorem validationOption?_isSome {s : Bytes} : (validationOption? s).isSome = true ↔
    ∃ h y, OptionHead h ∧ s = h ++ y ∧ (closedLine? ']'.toUInt8 y).isSome = true := by
  have hmark : ']'.toUInt8 ≠ newline := by decide
  constructor
  · intro hsome
    obtain ⟨k, hk⟩ := Option.isSome_iff_exists.1 hsome
    obtain ⟨s, rfl⟩ := validationOption?_head hk
    rw [validationOption?_bracket] at hk
    obtain ⟨i, hi, hk⟩ := Option.bind_eq_some_iff.1 hk
    obtain ⟨j, hj, -⟩ := Option.bind_eq_some_iff.1 hk
    obtain ⟨hle, hat⟩ := indexOf?_found hi
    obtain ⟨r, hr⟩ : firstLine s <+: s := List.takeWhile_prefix _
    have htake : s.take i = (firstLine s).take i := by
      conv_lhs => rw [← hr]
      exact List.take_append_of_le_length hle
    have hline : newline ∉ s.take i := by
      rw [htake]
      exact fun hm => Text.newline_not_mem_firstLine s (List.mem_of_mem_take hm)
    obtain ⟨y, hy⟩ : mention <+: s.drop i := by
      conv_rhs => rw [← hr]
      rw [List.drop_append_of_le_length hle]
      exact hat.trans (List.prefix_append _ r)
    refine ⟨0x5B :: (s.take i ++ mention), y, ⟨s.take i, rfl, hline⟩, ?_, ?_⟩
    · rw [List.cons_append, List.append_assoc, hy, List.take_append_drop]
    · rw [← List.drop_drop, ← hy, List.drop_left] at hj
      exact Option.isSome_of_eq_some hj
  · rintro ⟨h, y, ⟨x, rfl, hx⟩, rfl, hclosed⟩
    have hline : newline ∉ x ++ mention := by simp [hx, newline_not_mem_mention]
    have hat : mention <+: (firstLine (x ++ mention ++ y)).drop x.length := by
      rw [Text.firstLine_append y hline, List.append_assoc, List.drop_left]
      exact List.prefix_append _ _
    obtain ⟨i, hi, hfound⟩ := indexOf?_le hat
    have hdrop : (x ++ mention ++ y).drop (i + mention.length)
        = (x ++ mention).drop (i + mention.length) ++ y := by
      rw [List.drop_append_of_le_length]
      rw [List.length_append]
      omega
    have hj := closedLine?_append_left hmark (fun hm => hline (List.mem_of_mem_drop hm)) hclosed
      (a := (x ++ mention).drop (i + mention.length))
    rw [← hdrop] at hj
    obtain ⟨j, hj⟩ := Option.isSome_iff_exists.1 hj
    rw [List.cons_append, validationOption?_bracket, hfound, Option.bind_some, hj]
    rfl

/-- **Attributes that go.** -/
theorem headed_validationOption : Headed validationOption? OptionHead ']'.toUInt8 where
  stop := by decide
  iff := validationOption?_isSome
  head := by
    rintro h ⟨x, rfl, hx⟩
    refine ⟨?_, _, _, rfl, by decide⟩
    have hbracket : newline ≠ 0x5B := by decide
    simp [hx, newline_not_mem_mention, hbracket]
  size {s k} h := by
    obtain ⟨s, rfl⟩ := validationOption?_head h
    rw [validationOption?_bracket] at h
    obtain ⟨i, hi, h⟩ := Option.bind_eq_some_iff.1 h
    obtain ⟨j, hj, hk⟩ := Option.bind_eq_some_iff.1 h
    cases hk
    exact ⟨1 + (i + mention.length), j, by rw [Nat.add_comm 1, List.drop_succ_cons, hj], rfl⟩

/-! ## Using directives of workflow namespaces -/

def IsCharacter (ch : Bytes) : Prop := anyCharacter? ch = some ch.length

/-- The beginning of a using directive for a workflow namespace. -/
def WorkflowHead (h : Bytes) : Prop :=
  ∃ ch, IsCharacter ch ∧ h = ("using System" : Bytes) ++ (ch ++ ("Workflow" : Bytes))

theorem dropStart?_eq_some {s pfx r : Bytes} : s.dropStart? pfx = some r ↔ s = pfx ++ r := by
  unfold Bytes.dropStart?
  constructor
  · intro h
    split at h
    · rename_i hpre
      obtain ⟨t, rfl⟩ := List.isPrefixOf_iff_prefix.1 hpre
      rw [List.drop_left] at h
      rw [Option.some.inj h]
    · cases h
  · rintro rfl
    rw [if_pos (List.isPrefixOf_iff_prefix.2 (List.prefix_append pfx r)), List.drop_left]

/-- How many bytes a text begins with is the same in front of every byte that continues none. -/
theorem decode_size_append {a : Bytes} {x : UInt8} (r : Bytes) (ha : a ≠ [])
    (hx : Utf8.isTail x = false) :
    (Utf8.decode (a ++ x :: r)).2 = a.length ↔ (Utf8.decode a).2 = a.length := by
  unfold Utf8.decode
  cases hd : Utf8.decode? a with
  | some p => rw [Utf8.decode?_append _ hd]
  | none =>
    have hnone := Utf8.decode?_append_of_none ha hd (r := x :: r) fun y hy => by
      cases hy
      exact hx
    rw [hnone]

theorem isCharacter_iff {ch : Bytes} {x : UInt8} (r : Bytes) (hx : Utf8.isTail x = false) :
    anyCharacter? (ch ++ x :: r) = some ch.length ↔ IsCharacter ch := by
  unfold IsCharacter
  cases ch with
  | nil =>
    rw [List.nil_append, anyCharacter?, anyCharacter?]
    have hpos := Utf8.decode_size_pos (x :: r)
    split
    · simp
    · simp only [Option.some.injEq, List.length_nil]
      simp
      omega
  | cons c s =>
    rw [List.cons_append, anyCharacter?, anyCharacter?]
    split
    · simp
    · rw [Option.some_inj, Option.some_inj, ← List.cons_append]
      exact decode_size_append r (List.cons_ne_nil c s) hx

/-- The bytes after the first one of a character continue it. -/
theorem isTail_of_isCharacter {c : UInt8} {s : Bytes} (h : IsCharacter (c :: s)) :
    c ≠ newline ∧ ∀ x ∈ s, Utf8.isTail x = true := by
  unfold IsCharacter at h
  rw [anyCharacter?] at h
  split at h
  · cases h
  · rename_i hc
    have hsize := Option.some.inj h
    unfold Utf8.decode at hsize
    refine ⟨hc, ?_⟩
    cases hd : Utf8.decode? (c :: s) with
    | none =>
      rw [hd] at hsize
      rw [List.eq_nil_of_length_eq_zero (Nat.succ.inj hsize).symm]
      simp
    | some p =>
      rw [hd] at hsize
      have hall := Source.isTail_of_decode? hd
      rwa [show p.2 = (c :: s).length from hsize, List.take_length, List.tail_cons] at hall

theorem newline_not_mem_of_isCharacter {ch : Bytes} (h : IsCharacter ch) : newline ∉ ch := by
  cases ch with
  | nil => exact List.not_mem_nil
  | cons c s =>
    obtain ⟨hc, htail⟩ := isTail_of_isCharacter h
    rw [List.mem_cons, not_or]
    exact ⟨Ne.symm hc, fun hm => absurd (htail newline hm) (by decide)⟩

theorem workflowUsingHead?_eq_some {s : Bytes} {n : Nat} : workflowUsingHead? s = some n ↔
    ∃ h y, WorkflowHead h ∧ s = h ++ y ∧ n = h.length := by
  have hw : Utf8.isTail 'W'.toUInt8 = false := by decide
  unfold workflowUsingHead?
  constructor
  · intro h
    obtain ⟨rest, hrest, h⟩ := Option.bind_eq_some_iff.1 h
    obtain ⟨k, hk, h⟩ := Option.bind_eq_some_iff.1 h
    obtain ⟨y, hy, h⟩ := Option.bind_eq_some_iff.1 h
    rw [dropStart?_eq_some] at hrest hy
    cases h
    subst hrest
    have hle : k ≤ rest.length := by
      have := congrArg List.length hy
      rw [List.length_drop, List.length_append] at this
      have hpos : 0 < (Bytes.ofString "Workflow").length := by decide
      omega
    have hwhole : rest = rest.take k ++ (("Workflow" : Bytes) ++ y) := by
      rw [← hy, List.take_append_drop]
    have hlen : (rest.take k).length = k := by rw [List.length_take, Nat.min_eq_left hle]
    refine ⟨_, y, ⟨rest.take k, ?_, rfl⟩, ?_, ?_⟩
    · rw [hwhole] at hk
      exact (isCharacter_iff _ hw).1 (hk.trans (congrArg some hlen.symm))
    · conv_lhs => rw [hwhole]
      simp only [List.append_assoc]
    · rw [List.length_append, List.length_append, hlen, Nat.add_assoc]
  · rintro ⟨h, y, ⟨ch, hch, rfl⟩, rfl, rfl⟩
    rw [List.append_assoc, List.append_assoc]
    have hk : anyCharacter? (ch ++ (("Workflow" : Bytes) ++ y)) = some ch.length :=
      (isCharacter_iff _ hw).2 hch
    rw [show Bytes.dropStart? _ "using System" = some (ch ++ (("Workflow" : Bytes) ++ y)) from
      dropStart?_eq_some.2 rfl]
    simp only [bind, Option.bind_some, hk, List.drop_left]
    rw [show Bytes.dropStart? (("Workflow" : Bytes) ++ y) "Workflow" = some y from
      dropStart?_eq_some.2 rfl]
    simp only [Option.bind_some, pure, List.length_append, Nat.add_assoc]

/-- **Using directives that go.** -/
theorem headed_workflowUsingLine : Headed workflowUsingLine? WorkflowHead ';'.toUInt8 where
  stop := by decide
  iff {s} := by
    unfold workflowUsingLine?
    constructor
    · intro hsome
      obtain ⟨k, hk⟩ := Option.isSome_iff_exists.1 hsome
      obtain ⟨n, hn, hk⟩ := Option.bind_eq_some_iff.1 hk
      obtain ⟨j, hj, -⟩ := Option.bind_eq_some_iff.1 hk
      obtain ⟨h, y, hhead, rfl, rfl⟩ := workflowUsingHead?_eq_some.1 hn
      rw [List.drop_left] at hj
      exact ⟨h, y, hhead, rfl, Option.isSome_of_eq_some hj⟩
    · rintro ⟨h, y, hhead, rfl, hclosed⟩
      obtain ⟨j, hj⟩ := Option.isSome_iff_exists.1 hclosed
      rw [workflowUsingHead?_eq_some.2 ⟨h, y, hhead, rfl, rfl⟩]
      simp only [bind, Option.bind_some, List.drop_left, hj, pure, Option.isSome_some]
  head := by
    rintro h ⟨ch, hch, rfl⟩
    have hfixed : newline ∉ Bytes.ofString "using System" ∧ newline ∉ Bytes.ofString "Workflow" := by
      decide
    refine ⟨?_, 0x75, _, rfl, by decide⟩
    simp only [List.mem_append, not_or]
    exact ⟨hfixed.1, newline_not_mem_of_isCharacter hch, hfixed.2⟩
  size {s k} h := by
    obtain ⟨n, -, h⟩ := Option.bind_eq_some_iff.1 h
    obtain ⟨j, hj, hk⟩ := Option.bind_eq_some_iff.1 h
    cases hk
    exact ⟨n, j, hj, rfl⟩

/-! ## Imports -/

/-- A using directive for the namespace stands at the beginning of the text. -/
def BeginsUsing (space s : Bytes) : Prop := ∃ g b r, s = ("using" : Bytes) ++ (g ++ (space ++ (b ++ 0x3B :: r))) ∧
  g ≠ [] ∧ (∀ c ∈ g, isSpace c = true) ∧ ∀ c ∈ b, isSpace c = true

theorem holdsAfterSpaces_iff {p : Bytes → Bool} {s : Bytes} : Text.holdsAfterSpaces p s = true ↔
    ∃ g t, s = g ++ t ∧ g ≠ [] ∧ (∀ c ∈ g, isSpace c = true) ∧ p t = true := by
  induction s with
  | nil =>
    refine iff_of_false (by simp [Text.holdsAfterSpaces]) ?_
    rintro ⟨g, t, heq, hg, -⟩
    exact hg (List.append_eq_nil_iff.1 heq.symm).1
  | cons c s ih =>
    rw [Text.holdsAfterSpaces, Bool.and_eq_true, Bool.or_eq_true, ih]
    constructor
    · rintro ⟨hc, hp | ⟨g, t, rfl, hg, hspace, hp⟩⟩
      · exact ⟨[c], s, rfl, by simp, by simpa using hc, hp⟩
      · exact ⟨c :: g, t, rfl, by simp, List.forall_mem_cons.2 ⟨hc, hspace⟩, hp⟩
    · rintro ⟨g, t, heq, hg, hspace, hp⟩
      obtain ⟨d, g, rfl⟩ := List.exists_cons_of_ne_nil hg
      obtain ⟨rfl, rfl⟩ := List.cons.inj heq
      rw [List.forall_mem_cons] at hspace
      refine ⟨hspace.1, ?_⟩
      cases g with
      | nil => exact Or.inl hp
      | cons e g => exact Or.inr ⟨e :: g, t, rfl, by simp, hspace.2, hp⟩

/-- What follows blanks is found by dropping them. -/
theorem dropWhile_isSpace {a t : Bytes} (ha : ∀ c ∈ a, isSpace c = true)
    (ht : ∀ c, t.head? = some c → isSpace c = false) : (a ++ t).dropWhile isSpace = t := by
  rw [List.dropWhile_append_of_pos ha]
  cases t with
  | nil => rfl
  | cons c t => exact List.dropWhile_cons_of_neg (by simp [ht c rfl])

theorem importsAt_iff {space s : Bytes} : importsAt space s = true ↔
    ∃ a t, s = a ++ t ∧ (∀ c ∈ a, isSpace c = true) ∧ BeginsUsing space t := by
  have htake : ∀ s : Bytes, s = s.takeWhile isSpace ++ s.dropWhile isSpace := fun s =>
    (List.takeWhile_append_dropWhile ..).symm
  have hall : ∀ s : Bytes, ∀ c ∈ s.takeWhile isSpace, isSpace c = true := fun s c hc =>
    List.mem_takeWhile_imp hc
  unfold importsAt
  constructor
  · intro h
    split at h
    · cases h
    · rename_i rest hrest
      rw [dropStart?_eq_some] at hrest
      obtain ⟨g, t, rfl, hg, hspace, hp⟩ := holdsAfterSpaces_iff.1 h
      split at hp
      · cases hp
      · rename_i tail htail
        rw [dropStart?_eq_some] at htail
        obtain ⟨r, hr⟩ := List.head?_eq_some_iff.1 (beq_iff_eq.1 hp)
        refine ⟨s.takeWhile isSpace, _, htake s, hall s, g, tail.takeWhile isSpace, r, ?_, hg, hspace,
          hall tail⟩
        rw [hrest, htail]
        conv_lhs => rw [htake tail, hr]
        rfl
  · rintro ⟨a, t, rfl, ha, g, b, r, rfl, hg, hspace, hb⟩
    rw [dropWhile_isSpace ha (fun c hc => by cases hc; decide)]
    rw [show Bytes.dropStart? _ "using" = some (g ++ (space ++ (b ++ 0x3B :: r))) from
      dropStart?_eq_some.2 rfl]
    refine holdsAfterSpaces_iff.2 ⟨g, _, rfl, hg, hspace, ?_⟩
    rw [show Bytes.dropStart? (space ++ (b ++ 0x3B :: r)) space = some (b ++ 0x3B :: r) from
      dropStart?_eq_some.2 rfl]
    simp only
    rw [dropWhile_isSpace hb (fun c hc => by cases hc; decide)]
    rfl

theorem importsLater_iff {space s : Bytes} : importsLater space s = true ↔
    ∃ a t, s = a ++ newline :: t ∧ importsAt space t = true := by
  induction s with
  | nil => simp [importsLater]
  | cons c s ih =>
    rw [importsLater, Bool.or_eq_true, Bool.and_eq_true, ih]
    constructor
    · rintro (⟨hc, h⟩ | ⟨a, t, rfl, h⟩)
      · exact ⟨[], s, by rw [beq_iff_eq.1 hc]; rfl, h⟩
      · exact ⟨c :: a, t, rfl, h⟩
    · rintro ⟨a, t, heq, h⟩
      cases a with
      | nil =>
        obtain ⟨rfl, rfl⟩ := List.cons.inj heq
        exact Or.inl ⟨beq_self_eq_true _, h⟩
      | cons d a =>
        obtain ⟨rfl, rfl⟩ := List.cons.inj heq
        exact Or.inr ⟨a, t, rfl, h⟩

/-- **Imports.** A text imports a namespace when a using directive for it stands behind nothing but
blanks on its line. -/
theorem imports_iff {space s : Bytes} : imports s space = true ↔
    ∃ u t, s = u ++ t ∧ Text.leads isSpace u = true ∧ BeginsUsing space t := by
  unfold imports
  rw [Bool.or_eq_true, importsLater_iff, importsAt_iff]
  constructor
  · rintro (⟨a, t, rfl, ha, ht⟩ | ⟨u, v, rfl, hv⟩)
    · exact ⟨a, t, rfl, Text.leads_append_all Text.leads_nil ha, ht⟩
    · obtain ⟨a, t, rfl, ha, ht⟩ := importsAt_iff.1 hv
      refine ⟨u ++ [newline] ++ a, t, by simp, ?_, ht⟩
      exact Text.leads_append_all (Text.leads_newline u) ha
  · rintro ⟨u, t, rfl, hu, ht⟩
    obtain ⟨l, b, rfl, hl, hb⟩ := Text.exists_of_leads hu
    rcases hl with rfl | ⟨l, rfl⟩
    · exact Or.inl ⟨b, t, rfl, hb, ht⟩
    · exact Or.inr ⟨l, b ++ t, by simp, importsAt_iff.2 ⟨b, t, rfl, hb, ht⟩⟩

/-! ## Conventional sources -/

/-- A source in which every using directive, and every attribute that goes, stands behind a margin. -/
def Conventional (text : Bytes) : Prop :=
  ∀ n < text.length, (("using " : Bytes) <+: text.drop n ∨ (validationOption? (text.drop n)).isSome = true) →
    leads isMargin (text.take n) = true

instance (text : Bytes) : Decidable (Conventional text) := by
  unfold Conventional
  infer_instance

/-- A namespace that may be added: a dotted name that is not the word `using` and that no pass drops. -/
structure Importable (space : Bytes) : Prop where
  dotted : IsDotted space
  other : space ≠ "using"
  kept : workflowUsingHead? (usingLine space) = none

theorem Conventional.leads {text v t : Bytes} (h : Conventional text) (heq : text = v ++ t)
    (ht : ("using " : Bytes) <+: t ∨ (validationOption? t).isSome = true) :
    leads isMargin v = true := by
  subst heq
  have hne : t ≠ [] := by
    rintro rfl
    rcases ht with ht | ht
    · exact absurd (List.prefix_nil.1 ht) (by decide)
    · cases ht
  have hlen := List.length_pos_iff.2 hne
  have hlead := h v.length (by rw [List.length_append]; omega)
  rw [List.drop_left, List.take_left] at hlead
  exact hlead ht

theorem using_prefix_of_workflow {t : Bytes} (h : workflowUsingLine? t ≠ none) : ("using " : Bytes) <+: t := by
  obtain ⟨head, y, ⟨ch, -, rfl⟩, rfl, -⟩ :=
    headed_workflowUsingLine.iff.1 (Option.isSome_iff_ne_none.2 h)
  exact ⟨("System" : Bytes) ++ (ch ++ ("Workflow" : Bytes)) ++ y, rfl⟩

/-- What the first two passes leave of a conventional source. -/
theorem clear_of_conventional {text : Bytes} (h : Conventional text) :
    Clear validationOption? (dropWorkflowUsings (dropValidationOptions text)) ∧
      Clear workflowUsingLine? (dropWorkflowUsings (dropValidationOptions text)) ∧
      WordAtMargin "using " (dropWorkflowUsings (dropValidationOptions text)) := by
  have hoption := headed_validationOption.linePattern
  have hworkflow := headed_workflowUsingLine.linePattern
  have hmargin : AtMargin validationOption? [] text := fun v t heq ht =>
    h.leads heq (Or.inr (Option.isSome_iff_ne_none.2 ht))
  have hword : WordAtMargin "using " (dropValidationOptions text) :=
    WordAtMargin.eraseMatches hoption (c := 0x75) rfl (by decide) (by decide) hmargin
      fun v t heq ht => h.leads heq (Or.inl ht)
  have hmargin' : AtMargin workflowUsingLine? [] (dropValidationOptions text) := fun v t heq ht =>
    hword v t heq (using_prefix_of_workflow ht)
  exact ⟨Clear.eraseMatches hworkflow hoption hmargin' (clear_eraseMatches hoption hmargin),
    clear_eraseMatches hworkflow hmargin',
    WordAtMargin.eraseMatches hworkflow (c := 0x75) rfl (by decide) (by decide) hmargin' hword⟩

/-! ## Names of namespaces -/

/-- A byte of the ASCII range that is in no dotted name. -/
def isForeign (x : UInt8) : Bool :=
  x < 0x80 && !(Source.isWordPart x.toNat || x == '@'.toUInt8 || x == '.'.toUInt8)

theorem not_isForeign_of_mem {s : Bytes} (h : IsDotted s) {x : UInt8} (hx : x ∈ s) :
    isForeign x = false := by
  cases hforeign : isForeign x with
  | false => rfl
  | true =>
    simp only [isForeign, Bool.and_eq_true, decide_eq_true_eq, Bool.not_eq_true', Bool.or_eq_false_iff,
      beq_eq_false_iff_ne] at hforeign
    rcases Source.isWordPart_of_mem_dotted h hx hforeign.1 with hpart | hat | hdot
    · rw [hforeign.2.1.1] at hpart
      cases hpart
    · exact absurd hat hforeign.2.1.2
    · exact absurd hdot hforeign.2.2

theorem isForeign_of_isSpace {x : UInt8} (h : isSpace x = true) : isForeign x = true := by
  simp only [isSpace, Bool.or_eq_true, beq_iff_eq] at h
  rcases h with (((rfl | rfl) | rfl) | rfl) | rfl <;> decide

theorem not_isSpace_of_mem {s : Bytes} (h : IsDotted s) {x : UInt8} (hx : x ∈ s) : isSpace x = false := by
  cases hspace : isSpace x with
  | false => rfl
  | true =>
    have hforeign := not_isForeign_of_mem h hx
    rw [isForeign_of_isSpace hspace] at hforeign
    cases hforeign

theorem ne_nil_of_dotted {s : Bytes} (h : IsDotted s) : s ≠ [] := by
  rintro rfl
  have hword : Source.IsWord [] := h [] (by decide)
  exact absurd hword (by decide +kernel)

/-! ## Where a using directive can be cut -/

/-- A blank, or the semicolon that ends a directive. -/
def endsName (c : UInt8) : Bool := isSpace c || c == 0x3B

theorem endsName_head {b r : Bytes} (hb : ∀ c ∈ b, isSpace c = true) {c : UInt8}
    (hc : (b ++ 0x3B :: r).head? = some c) : endsName c = true := by
  cases b with
  | nil =>
    cases hc
    rfl
  | cons d b =>
    cases hc
    rw [endsName, hb c List.mem_cons_self, Bool.true_or]

/-- **A using directive that goes on over a place** behind which there is no blank and no semicolon is cut
in its first word or in the name; otherwise it ends in front of the place. -/
theorem BeginsUsing.cut {space w v : Bytes} (h : BeginsUsing space (w ++ v)) (hne : space ≠ [])
    (hv : ∀ c, v.head? = some c → endsName c = false) :
    (∀ s, BeginsUsing space (w ++ s)) ∨
      (∃ a : Bytes, a ≠ [] ∧ w ++ a = ("using" : Bytes)) ∨
      ∃ g n₁ n₂ b r, space = n₁ ++ n₂ ∧ n₂ ≠ [] ∧ w = ("using" : Bytes) ++ (g ++ n₁) ∧
        (∀ c ∈ g, isSpace c = true) ∧ v = n₂ ++ (b ++ 0x3B :: r) ∧ ∀ c ∈ b, isSpace c = true := by
  obtain ⟨g, b, r, heq, hg, hgspace, hb⟩ := h
  -- what follows is no part of the blanks or of the semicolon
  have hblank : ∀ {a : Bytes}, (∀ c ∈ a, isSpace c = true) → ∀ t, v = a ++ t → a = [] := by
    intro a ha t hvt
    cases a with
    | nil => rfl
    | cons c a =>
      have hc := hv c (by rw [hvt]; rfl)
      rw [endsName, ha c List.mem_cons_self] at hc
      cases hc
  have hend : ∀ {a : Bytes}, (∀ c ∈ a, isSpace c = true) → v ≠ a ++ 0x3B :: r := by
    intro a ha hvt
    obtain ⟨c, hc⟩ : ∃ c, v.head? = some c := by
      rw [hvt]
      cases a <;> exact ⟨_, rfl⟩
    have hname := hv c hc
    rw [hvt] at hc
    rw [endsName_head ha hc] at hname
    cases hname
  rcases List.append_eq_append_iff.1 heq with ⟨a, hw, ha⟩ | ⟨w₁, rfl, hw₁⟩
  · right
    left
    refine ⟨a, ?_, hw.symm⟩
    rintro rfl
    exact hg (hblank hgspace _ ha)
  rcases (List.append_eq_append_iff.1 hw₁).symm with ⟨a, rfl, ha⟩ | ⟨w₂, rfl, hw₂⟩
  · right
    right
    obtain rfl := hblank (fun c hc => hgspace c (List.mem_append_right _ hc)) _ ha
    exact ⟨w₁, [], space, b, r, rfl, hne, by rw [List.append_nil], by simpa using hgspace, ha, hb⟩
  rcases (List.append_eq_append_iff.1 hw₂).symm with ⟨a, rfl, ha⟩ | ⟨w₃, rfl, hw₃⟩
  · right
    right
    refine ⟨g, w₂, a, b, r, rfl, ?_, rfl, hgspace, ha, hb⟩
    rintro rfl
    exact hend hb ha
  rcases (List.append_eq_append_iff.1 hw₃).symm with ⟨a, rfl, ha⟩ | ⟨w₄, rfl, hw₄⟩
  · exact absurd ha (hend fun c hc => hb c (List.mem_append_right _ hc))
  cases w₄ with
  | nil => exact absurd hw₄.symm (hend (a := []) (by simp))
  | cons c w₄ =>
    obtain ⟨rfl, -⟩ := List.cons.inj hw₄
    left
    intro s
    refine ⟨g, b, w₄ ++ s, ?_, hg, hgspace, hb⟩
    simp only [List.append_assoc, List.cons_append]

/-! ## Adding using directives -/

/-- What stands behind a margin in a text whose last line is a margin has a line feed after it. -/
theorem newline_mem_of_leads {p : Bytes} {c : UInt8} {w : Bytes} (hc : c ≠ newline)
    (hblank : isMargin c = false) (h : leads isMargin (p ++ c :: w) = true) : newline ∈ w := by
  by_contra hw
  have hline : newline ∉ c :: w := by simp [Ne.symm hc, hw]
  rw [Text.leads_append p hline, List.all_cons, hblank, Bool.false_and, Bool.and_false] at h
  cases h

/-- Lines that come in behind a margin leave a pattern without matches when it has none in them. -/
theorem Clear.insert {f : Bytes → Option Nat} (hf : LinePattern f) {u added v : Bytes}
    (h : Clear f (u ++ v)) (hu : leads isMargin u = true)
    (hadded : ∀ a b, added = a ++ b → b ≠ [] → f (b ++ v) = none) : Clear f (u ++ (added ++ v)) := by
  intro p t heq
  rcases List.append_eq_append_iff.1 heq with ⟨a, rfl, hrest⟩ | ⟨w, rfl, rfl⟩
  · rcases List.append_eq_append_iff.1 hrest with ⟨a', rfl, hv⟩ | ⟨b, hb, rfl⟩
    · exact h (u ++ a') t (by rw [hv, List.append_assoc])
    · by_cases hnil : b = []
      · subst hnil
        exact h u v rfl
      · exact hadded a b hb hnil
  · by_contra hsome
    obtain ⟨k, hk⟩ := Option.ne_none_iff_exists'.1 hsome
    obtain ⟨c, r, hct, hc, hblank⟩ := hf.head hk
    cases w with
    | nil =>
      by_cases hnil : added = []
      · rw [hnil] at hsome
        exact hsome (h p v (by simp))
      · exact hsome (hadded [] added rfl hnil)
    | cons d w =>
      obtain ⟨rfl, -⟩ := List.cons.inj hct
      have hmem := newline_mem_of_leads hc hblank hu
      have hline := Text.fullLine_append_of_mem (added ++ v) v (List.mem_cons_of_mem d hmem)
      exact hsome ((hf.congr hline).2 (h p (d :: w ++ v) (by simp)))

/-- What is left of added directives begins in one of them. -/
theorem exists_of_suffix_usings {spaces : List Bytes} {a b : Bytes} (h : spaces.flatMap usingLine = a ++ b)
    (hb : b ≠ []) : ∃ space ∈ spaces, ∃ a' b' r, usingLine space = a' ++ b' ∧ b' ≠ [] ∧ b = b' ++ r := by
  induction spaces generalizing a with
  | nil =>
    obtain ⟨-, rfl⟩ := List.append_eq_nil_iff.1 h.symm
    exact absurd rfl hb
  | cons space spaces ih =>
    rw [List.flatMap_cons] at h
    rcases List.append_eq_append_iff.1 h with ⟨a', rfl, hrest⟩ | ⟨b', hb', rfl⟩
    · obtain ⟨x, hx, more⟩ := ih hrest
      exact ⟨x, List.mem_cons_of_mem _ hx, more⟩
    · by_cases hnil : b' = []
      · subst hnil
        obtain ⟨x, hx, more⟩ := ih (a := []) rfl
        exact ⟨x, List.mem_cons_of_mem _ hx, more⟩
      · exact ⟨space, List.mem_cons_self, a, b', _, hb', hnil, rfl⟩

theorem usingLine_eq (space : Bytes) : usingLine space = ("using " : Bytes) ++ (space ++ [0x3B, newline]) :=
  List.append_assoc _ _ _

theorem validationOption?_of_usingLine {space a b r : Bytes} (h : IsDotted space)
    (hline : usingLine space = a ++ b) (hb : b ≠ []) : validationOption? (b ++ r) = none := by
  by_contra hsome
  obtain ⟨k, hk⟩ := Option.ne_none_iff_exists'.1 hsome
  obtain ⟨s, hs⟩ := validationOption?_head hk
  obtain ⟨c, b, rfl⟩ := List.exists_cons_of_ne_nil hb
  obtain rfl : c = 0x5B := (List.cons.inj hs).1
  have hmem : (0x5B : UInt8) ∈ usingLine space := by simp [hline]
  rw [usingLine_eq] at hmem
  simp only [List.mem_append] at hmem
  rcases hmem with hmem | hmem | hmem
  · revert hmem
    decide
  · have hforeign := not_isForeign_of_mem h hmem
    revert hforeign
    decide
  · revert hmem
    decide

/-- Behind the first word of a using directive no other one begins on its line. -/
theorem not_using_prefix {space a b r : Bytes} (h : IsDotted space)
    (hline : space ++ [0x3B, newline] = a ++ b) (hb : b ≠ []) : ¬ ("using " : Bytes) <+: b ++ r := by
  intro hpre
  have hnewline : newline ∈ b := by
    have hlast := congrArg List.getLast? hline
    rw [List.getLast?_append, List.getLast?_append, List.getLast?_eq_some_getLast hb, Option.some_or] at hlast
    rw [show newline = b.getLast hb from Option.some.inj hlast]
    exact List.getLast_mem hb
  have hspace : (0x20 : UInt8) ∉ b := by
    intro hmem
    have hall : (0x20 : UInt8) ∈ space ++ [0x3B, newline] := by simp [hline, hmem]
    rcases List.mem_append.1 hall with hall | hall
    · have hfalse := not_isSpace_of_mem h hall
      revert hfalse
      decide
    · revert hall
      decide
  rcases List.prefix_or_prefix_of_prefix hpre (List.prefix_append b r) with hp | hp
  · exact hspace (hp.subset (by decide))
  · exact absurd (hp.subset hnewline) (by decide)

/-- No directive for a workflow namespace begins in one that may be added. -/
theorem workflowUsingLine?_of_usingLine {space a b r : Bytes} (h : Importable space)
    (hline : usingLine space = a ++ b) (hb : b ≠ []) : workflowUsingLine? (b ++ r) = none := by
  by_contra hsome
  have hpre := using_prefix_of_workflow hsome
  rw [usingLine_eq] at hline
  rcases List.append_eq_append_iff.1 hline with ⟨a', rfl, ha'⟩ | ⟨b', hb', rfl⟩
  · exact not_using_prefix h.dotted ha' hb hpre
  cases b' with
  | nil => exact not_using_prefix (a := []) h.dotted rfl (by simp) hpre
  | cons c b' =>
    cases a with
    | nil =>
      -- at the beginning of the line the name would have to be that of a workflow namespace
      obtain ⟨head, y, hhead, heq, -⟩ :=
        headed_workflowUsingLine.iff.1 (Option.isSome_iff_ne_none.2 hsome)
      rw [List.nil_append] at hb'
      rw [← hb', ← usingLine_eq] at heq
      have hline : newline ∉ ("using " : Bytes) ++ (space ++ [0x3B]) := by
        simp only [List.mem_append, not_or]
        refine ⟨by decide, fun hmem => ?_, by decide⟩
        have hfalse := not_isSpace_of_mem h.dotted hmem
        revert hfalse
        decide
      have hfull : fullLine (usingLine space ++ r) = usingLine space := by
        have happ : ∀ t : Bytes, usingLine space ++ t
            = (("using " : Bytes) ++ (space ++ [0x3B])) ++ newline :: t := fun t => by
          simp [usingLine_eq]
        rw [happ, Text.fullLine_append _ hline, Text.fullLine_newline, ← happ, List.append_nil]
      have hprefix : head <+: usingLine space := by
        rw [← hfull, Text.prefix_fullLine (headed_workflowUsingLine.head hhead).1, heq]
        exact List.prefix_append head y
      obtain ⟨y', hy'⟩ := hprefix
      have hsome' := workflowUsingHead?_eq_some.2 ⟨head, y', hhead, hy'.symm, rfl⟩
      rw [h.kept] at hsome'
      cases hsome'
    | cons d a =>
      have hu : c = 0x75 := (List.cons.inj hpre.choose_spec).1.symm
      have htail := congrArg List.tail hb'
      rw [List.cons_append, List.tail_cons] at htail
      have hmem : (0x75 : UInt8) ∈ ("using " : Bytes).tail := by
        rw [htail, hu]
        simp
      revert hmem
      decide

theorem leads_usings (spaces : List Bytes) :
    spaces.flatMap usingLine = [] ∨ ∃ a, spaces.flatMap usingLine = a ++ [newline] := by
  induction spaces using List.reverseRecOn with
  | nil => exact Or.inl rfl
  | append_singleton spaces space _ =>
    right
    refine ⟨spaces.flatMap usingLine ++ (("using " : Bytes) ++ (space ++ [0x3B])), ?_⟩
    rw [List.flatMap_append, List.flatMap_cons, List.flatMap_nil, List.append_nil, usingLine_eq]
    simp

theorem isSpace_of_isMargin {c : UInt8} (h : isMargin c = true) : isSpace c = true := by
  simp only [isMargin, Bool.or_eq_true, beq_iff_eq] at h
  rcases h with rfl | rfl <;> decide

/-- A line that begins behind added directives still begins behind blanks. -/
theorem leads_insert {u w : Bytes} (spaces : List Bytes) (h : leads isSpace (u ++ w) = true) :
    leads isSpace (u ++ spaces.flatMap usingLine ++ w) = true := by
  rcases leads_usings spaces with hnil | ⟨a, ha⟩
  · rwa [hnil, List.append_nil]
  by_cases hw : newline ∈ w
  · rwa [Text.leads_append_of_mem _ u hw]
  · rw [Text.leads_append u hw, Bool.and_eq_true, List.all_eq_true] at h
    rw [ha, ← List.append_assoc]
    exact Text.leads_append_all (Text.leads_newline _) h.2

/-- A using directive that stands in front of the place where others come in stays one. -/
theorem beginsUsing_insert {space u p w v added : Bytes} (h : Importable space) (hp : u = p ++ w)
    (hw : w ≠ []) (hu : leads isMargin u = true) (hv : u = [] ∨ ("using " : Bytes) <+: v)
    (hbegins : BeginsUsing space (w ++ v)) : BeginsUsing space (w ++ (added ++ v)) := by
  subst hp
  obtain ⟨v, rfl⟩ := hv.resolve_left (by simp [hw])
  have hhead : ∀ c, (("using " : Bytes) ++ v).head? = some c → endsName c = false := fun c hc => by
    cases hc
    decide
  obtain ⟨c, w', rfl⟩ := List.exists_cons_of_ne_nil hw
  -- the directive begins with a letter, behind which there is a line feed
  have hc : c = 0x75 := by
    obtain ⟨g, b, r, heq, -⟩ := hbegins
    exact (List.cons.inj heq).1
  have hmem : newline ∈ w' := by
    subst hc
    exact newline_mem_of_leads (by decide) (by decide) hu
  rcases hbegins.cut (ne_nil_of_dotted h.dotted) hhead with hall | ⟨a, -, ha⟩ |
    ⟨g, n₁, n₂, b, r, hspace, hn₂, hwg, hg, hrest, hb⟩
  · exact hall _
  · exfalso
    have hline : newline ∈ ("using" : Bytes) := by
      rw [← ha]
      simp [hmem]
    revert hline
    decide
  exfalso
  cases n₁ using List.reverseRecOn with
  | nil =>
    -- the name would be the word that follows
    rw [List.nil_append] at hspace
    subst hspace
    have hsplit : ("using" : Bytes) ++ (0x20 :: v) = space ++ (b ++ 0x3B :: r) := hrest
    rcases List.append_eq_append_iff.1 hsplit with ⟨a, ha, hv'⟩ | ⟨a, ha, hb'⟩
    · cases a with
      | nil => exact h.other (by rw [ha, List.append_nil])
      | cons d a =>
        obtain rfl := (List.cons.inj hv').1
        have hfalse := not_isSpace_of_mem h.dotted (x := 0x20) (by simp [ha])
        revert hfalse
        decide
    · cases a with
      | nil => exact h.other (by rw [ha, List.append_nil])
      | cons d a =>
        have hend := endsName_head hb (c := d) (by rw [hb']; rfl)
        have hmem : d ∈ ("using" : Bytes) := by simp [ha]
        have hall : ∀ d ∈ ("using" : Bytes), (!endsName d) = true := List.all_eq_true.1 rfl
        rw [show endsName d = false by simpa using hall d hmem] at hend
        cases hend
  | append_singleton n₁ x =>
    have hx : isSpace x = false := not_isSpace_of_mem h.dotted (by simp [hspace])
    have hconcat : p ++ c :: w' = (p ++ (("using" : Bytes) ++ (g ++ n₁))) ++ [x] := by
      rw [hwg]
      simp
    have hblank : isMargin x = false := by
      cases hm : isMargin x with
      | false => rfl
      | true =>
        rw [isSpace_of_isMargin hm] at hx
        cases hx
    rw [hconcat, Text.leads_concat, hblank, Bool.false_and, Bool.or_false, beq_iff_eq] at hu
    subst hu
    revert hx
    decide

/-- What a text imports is imported when using directives are added in front of the first one. -/
theorem imports_insert {space u v : Bytes} (spaces : List Bytes) (h : Importable space)
    (hu : leads isMargin u = true) (hv : u = [] ∨ ("using " : Bytes) <+: v)
    (himports : imports (u ++ v) space = true) :
    imports (u ++ (spaces.flatMap usingLine ++ v)) space = true := by
  rw [imports_iff] at himports ⊢
  obtain ⟨p, t, heq, hp, ht⟩ := himports
  rcases List.append_eq_append_iff.1 heq with ⟨w, rfl, rfl⟩ | ⟨w, hw, rfl⟩
  · refine ⟨u ++ spaces.flatMap usingLine ++ w, t, by simp, leads_insert spaces hp, ht⟩
  · by_cases hnil : w = []
    · subst hnil
      rw [List.append_nil] at hw
      subst hw
      refine ⟨u ++ spaces.flatMap usingLine ++ [], v, by simp, leads_insert spaces ?_, ht⟩
      rwa [List.append_nil]
    · refine ⟨p, w ++ (spaces.flatMap usingLine ++ v), ?_, hp, beginsUsing_insert h hw hnil hu hv ht⟩
      rw [hw, List.append_assoc]

theorem imports_of_mem {space u : Bytes} {spaces : List Bytes} (v : Bytes) (h : space ∈ spaces)
    (hu : leads isMargin u = true) : imports (u ++ (spaces.flatMap usingLine ++ v)) space = true := by
  rw [imports_iff]
  obtain ⟨before, after, rfl⟩ := List.append_of_mem h
  refine ⟨u ++ before.flatMap usingLine, usingLine space ++ (after.flatMap usingLine ++ v), by simp, ?_,
    [0x20], [], newline :: (after.flatMap usingLine ++ v), ?_, by simp, by simp; decide, by simp⟩
  · have hlead := leads_insert (w := []) before (u := u)
      (by rw [List.append_nil]; exact Text.leads_mono (fun c => isSpace_of_isMargin) hu)
    rwa [List.append_nil] at hlead
  · rw [usingLine_eq]
    simp
    rfl

theorem addUsings_eq (spaces : List Bytes) {s : Bytes} (h : WordAtMargin "using " s) :
    ∃ u v, s = u ++ v ∧ leads isMargin u = true ∧ (u = [] ∨ ("using " : Bytes) <+: v) ∧
      addUsings spaces s = u ++ ((spaces.filter fun space => !imports s space).flatMap usingLine ++ v) := by
  unfold addUsings
  cases hi : Bytes.indexOf? "using " s with
  | none => exact ⟨[], s, rfl, Text.leads_nil, Or.inl rfl, rfl⟩
  | some i =>
    have hpre := (indexOf?_found hi).2
    exact ⟨s.take i, s.drop i, (List.take_append_drop i s).symm,
      h _ _ (List.take_append_drop i s).symm hpre, Or.inr hpre, List.append_assoc _ _ _⟩

/-! ## Sources with which the first passes are done -/

/-- A source that the first three passes leave alone. -/
structure Done (spaces : List Bytes) (s : Bytes) : Prop where
  options : Clear validationOption? s
  workflows : Clear workflowUsingLine? s
  imported : ∀ space ∈ spaces, imports s space = true

theorem addUsings_of_imported {spaces : List Bytes} {s : Bytes}
    (h : ∀ space ∈ spaces, imports s space = true) : addUsings spaces s = s := by
  have hnil : spaces.filter (fun space => !imports s space) = [] :=
    List.filter_eq_nil_iff.2 fun space hspace => by simp [h space hspace]
  unfold addUsings
  rw [hnil]
  simp only [List.flatMap_nil, List.append_nil]
  exact List.take_append_drop _ s

theorem Done.passes {spaces : List Bytes} {s : Bytes} (h : Done spaces s) :
    addUsings spaces (dropWorkflowUsings (dropValidationOptions s)) = s := by
  rw [dropValidationOptions, Text.eraseMatches_of_clear h.options, dropWorkflowUsings,
    Text.eraseMatches_of_clear h.workflows, addUsings_of_imported h.imported]

/-- **The first three passes are done once.** -/
theorem done_of_conventional {spaces : List Bytes} {text : Bytes} (h : Conventional text)
    (hspaces : ∀ space ∈ spaces, Importable space) :
    Done spaces (addUsings spaces (dropWorkflowUsings (dropValidationOptions text))) := by
  obtain ⟨hoption, hworkflow, hword⟩ := clear_of_conventional h
  obtain ⟨u, v, heq, hu, hv, hadd⟩ := addUsings_eq spaces hword
  rw [hadd]
  rw [heq] at hoption hworkflow
  -- what begins in an added line begins in one of the directives
  have hlines : ∀ f : Bytes → Option Nat, LinePattern f → Clear f (u ++ v) →
      (∀ space a b r, Importable space → usingLine space = a ++ b → b ≠ [] → f (b ++ r) = none) →
      Clear f (u ++ ((spaces.filter fun space => !imports (dropWorkflowUsings (dropValidationOptions text))
        space).flatMap usingLine ++ v)) := by
    intro f hf hclear hnone
    refine Clear.insert hf hclear hu fun a b hab hb => ?_
    obtain ⟨space, hspace, a', b', r, hline, hb', rfl⟩ := exists_of_suffix_usings hab hb
    rw [List.append_assoc]
    exact hnone space a' b' _ (hspaces space (List.mem_filter.1 hspace).1) hline hb'
  refine ⟨hlines _ headed_validationOption.linePattern hoption fun space a b r h =>
      validationOption?_of_usingLine h.dotted,
    hlines _ headed_workflowUsingLine.linePattern hworkflow fun space a b r h =>
      workflowUsingLine?_of_usingLine h, fun space hspace => ?_⟩
  by_cases himports : imports (dropWorkflowUsings (dropValidationOptions text)) space = true
  · apply imports_insert _ (hspaces space hspace) hu hv
    rwa [heq] at himports
  · apply imports_of_mem v _ hu
    exact List.mem_filter.2 ⟨hspace, by simp [himports]⟩

end Flowsmith.Activity
