import Flowsmith.Text.Utf8

/-!
# Well-formed sequences of UTF-8

* `Encodes` : a byte string is the one sequence of a code point;
* `decode?_eq_some_iff` : what a text begins with is such a sequence;
* `rune_induction`, `isRune_of_mem` : the runes of a text are its sequences and its stray bytes, in order.
-/

namespace Flowsmith.Utf8

/-- A byte string is a sequence of one of the four sizes. -/
inductive Encodes : Bytes → Nat → Prop where
  | one {a : UInt8} (ha : a < 0x80) : Encodes [a] a.toNat
  | two {a b : UInt8} {n : Nat} (ha : ¬ a < 0x80) (h : two? a b = some n) : Encodes [a, b] n
  | three {a b c : UInt8} {n : Nat} (ha : ¬ a < 0x80) (hab : two? a b = none)
    (h : three? a b c = some n) : Encodes [a, b, c] n
  | four {a b c d : UInt8} {n : Nat} (ha : ¬ a < 0x80) (hab : two? a b = none)
    (habc : three? a b c = none) (h : four? a b c d = some n) : Encodes [a, b, c, d] n

namespace Encodes

variable {u : Bytes} {n : Nat}

theorem ne_nil (h : Encodes u n) : u ≠ [] := by
  cases h <;> simp

theorem decode? (h : Encodes u n) (w : Bytes) : Utf8.decode? (u ++ w) = some (n, u.length) := by
  cases h with
  | one ha => simp [Utf8.decode?, ha]
  | two ha h => simp [Utf8.decode?, ha, h]
  | three ha hab h => simp [Utf8.decode?, ha, hab, h]
  | four ha hab habc h => simp [Utf8.decode?, ha, hab, habc, h]

/-- A sequence is one byte of ASCII, or stands outside of it altogether. -/
theorem ascii_or (h : Encodes u n) :
    (∃ a : UInt8, u = [a] ∧ a < 0x80 ∧ n = a.toNat) ∨ 0x80 ≤ n ∧ ∀ c ∈ u, 0x80 ≤ c := by
  cases h with
  | @one a ha => exact .inl ⟨a, rfl, ha, rfl⟩
  | @two a b n ha h =>
    refine .inr ?_
    unfold two? at h
    split at h
    · rename_i hc
      cases h
      simp only [isTail, Bool.and_eq_true, decide_eq_true_eq, UInt8.le_iff_toNat_le] at hc
      simp only [UInt8.toNat_ofNat] at hc
      refine ⟨by omega, fun c hc' => ?_⟩
      rw [UInt8.le_iff_toNat_le]
      simp only [List.mem_cons, List.not_mem_nil, or_false] at hc'
      rcases hc' with rfl | rfl <;> simp only [UInt8.toNat_ofNat] <;> omega
    · cases h
  | @three a b c n ha hab h =>
    refine .inr ?_
    unfold three? at h
    split at h
    · rename_i hc
      cases h
      simp only [isTail, Bool.and_eq_true, Bool.not_eq_true', Bool.and_eq_false_iff,
        decide_eq_true_eq, decide_eq_false_iff_not, beq_eq_false_iff_ne, UInt8.le_iff_toNat_le,
        UInt8.lt_iff_toNat_lt, ne_eq, ← UInt8.toNat_inj] at hc
      simp only [UInt8.toNat_ofNat] at hc
      refine ⟨by simp only [payload]; omega, fun c hc' => ?_⟩
      rw [UInt8.le_iff_toNat_le]
      simp only [List.mem_cons, List.not_mem_nil, or_false] at hc'
      rcases hc' with rfl | rfl | rfl <;> simp only [UInt8.toNat_ofNat] <;> omega
    · cases h
  | @four a b c d n ha hab habc h =>
    refine .inr ?_
    unfold four? at h
    split at h
    · rename_i hc
      cases h
      simp only [isTail, Bool.and_eq_true, Bool.not_eq_true', Bool.and_eq_false_iff,
        decide_eq_true_eq, decide_eq_false_iff_not, beq_eq_false_iff_ne, UInt8.le_iff_toNat_le,
        UInt8.lt_iff_toNat_lt, ne_eq, ← UInt8.toNat_inj] at hc
      simp only [UInt8.toNat_ofNat] at hc
      refine ⟨by simp only [payload]; omega, fun c hc' => ?_⟩
      rw [UInt8.le_iff_toNat_le]
      simp only [List.mem_cons, List.not_mem_nil, or_false] at hc'
      rcases hc' with rfl | rfl | rfl | rfl <;> simp only [UInt8.toNat_ofNat] <;> omega
    · cases h

end Encodes

/-- A text begins with a sequence when it is one and something that follows. -/
theorem decode?_eq_some_iff {s : Bytes} {n k : Nat} :
    decode? s = some (n, k) ↔ ∃ u w, s = u ++ w ∧ Encodes u n ∧ k = u.length := by
  constructor
  · intro h
    unfold decode? at h
    split at h
    · cases h
    rename_i a s
    split at h
    · rename_i ha
      cases h
      exact ⟨[a], s, rfl, .one ha, rfl⟩
    rename_i ha
    split at h
    · cases h
    rename_i b s
    split at h
    · rename_i n' hab
      cases h
      exact ⟨[a, b], s, rfl, .two ha hab, rfl⟩
    rename_i hab
    split at h
    · cases h
    rename_i c s
    split at h
    · rename_i n' habc
      cases h
      exact ⟨[a, b, c], s, rfl, .three ha hab habc, rfl⟩
    rename_i habc
    split at h
    · cases h
    rename_i d s
    obtain ⟨n', hn, heq⟩ := Option.map_eq_some_iff.1 h
    cases heq
    exact ⟨[a, b, c, d], s, rfl, .four ha hab habc hn, rfl⟩
  · rintro ⟨u, w, rfl, hu, rfl⟩
    exact hu.decode? w

/-- A rune is the sequence of its code point, or a stray byte that counts as the replacement
character. -/
def IsRune (r : Nat × Bytes) : Prop :=
  Encodes r.2 r.1 ∨ r.1 = replacement ∧ ∃ c : UInt8, r.2 = [c] ∧ 0x80 ≤ c

theorem IsRune.ne_nil {r : Nat × Bytes} (h : IsRune r) : r.2 ≠ [] := by
  rcases h with hu | ⟨-, c, hc, -⟩
  · exact hu.ne_nil
  · simp [hc]

/-- A text is a rune and what follows. The rune is a sequence, or a byte that begins none. -/
theorem runes_cons (c : UInt8) (rest : Bytes) :
    ∃ r w, IsRune r ∧ c :: rest = r.2 ++ w ∧ runes (c :: rest) = r :: runes w ∧
      (Encodes r.2 r.1 ∨ decode? (c :: rest) = none) := by
  rw [runes]
  cases h : decode? (c :: rest) with
  | none =>
    have hdecode : decode (c :: rest) = (replacement, 1) := by rw [decode, h]; rfl
    have hc : 0x80 ≤ c := UInt8.not_lt.1 fun hlow => by simp [decode?, hlow] at h
    refine ⟨(replacement, [c]), rest, .inr ⟨rfl, c, rfl, hc⟩, rfl, ?_, .inr rfl⟩
    rw [hdecode]
    rfl
  | some p =>
    obtain ⟨n, k⟩ := p
    obtain ⟨u, w, hs, hu, rfl⟩ := decode?_eq_some_iff.1 h
    have hdecode : decode (c :: rest) = (n, u.length) := by rw [decode, h]; rfl
    refine ⟨(n, u), w, .inl hu, hs, ?_, .inl hu⟩
    have hdrop : rest.drop (u.length - 1) = w := by
      cases u with
      | nil => exact absurd rfl hu.ne_nil
      | cons a u =>
        rw [(List.cons.inj hs).2]
        simp
    simp only [hdecode, hdrop]
    rw [hs, List.take_left' rfl]

/-- What holds of the empty text and of a rune before a text of which it holds, holds of all texts. -/
theorem rune_induction {P : Bytes → Prop} (nil : P [])
    (rune : ∀ (r : Nat × Bytes) (w : Bytes), IsRune r → runes (r.2 ++ w) = r :: runes w →
      (Encodes r.2 r.1 ∨ decode? (r.2 ++ w) = none) → P w → P (r.2 ++ w))
    (s : Bytes) : P s := by
  induction hlen : s.length using Nat.strongRecOn generalizing s with
  | _ len ih =>
  cases s with
  | nil => exact nil
  | cons c rest =>
    obtain ⟨r, w, hr, hs, hrunes, hdecode⟩ := runes_cons c rest
    have hlt : w.length < len := by
      rw [← hlen, hs, List.length_append]
      have := List.length_pos_iff.2 hr.ne_nil
      omega
    rw [hs] at hrunes hdecode ⊢
    exact rune r w hr hrunes hdecode (ih w.length hlt w rfl)

theorem isRune_of_mem {s : Bytes} {r : Nat × Bytes} (h : r ∈ runes s) : IsRune r := by
  induction s using rune_induction with
  | nil =>
    rw [runes] at h
    cases h
  | rune r' w hr' hrunes _ ih =>
    rw [hrunes] at h
    rcases List.mem_cons.1 h with rfl | h
    · exact hr'
    · exact ih h

end Flowsmith.Utf8
