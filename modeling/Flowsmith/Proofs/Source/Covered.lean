import Flowsmith.Proofs.Source.Tiling

/-!
# Tokens and blanks make up a source

Every token advances, stays within the source and is what stands there; tokens follow one another,
and whatever lies between them is a blank. None of it depends on the encoding of the source: a byte
that begins no code point is a mark of its own.

* `exists_place` : what stands in front of a token, and what follows it;
* `Token.Lies` : a token as it lies in a source;
* `tokens_cover` : the tokens of a source, and the blanks between them.
-/

namespace Flowsmith.Source

/-- A token stands between what precedes it and what follows it, and is the lexeme that begins
there. -/
theorem exists_place {s : Bytes} {pos : Nat} {fresh : Bool} {t : Token}
    (ht : t ∈ tokensFrom pos fresh s) : ∃ front c b rest, s = front ++ c :: (b ++ rest) ∧
      t.start = pos + front.length ∧ t.text = c :: b ∧ isBlankByte c = false ∧
      ∃ fresh', lexeme fresh' c (b ++ rest) = (t.kind, b.length) := by
  match s with
  | [] => rw [tokensFrom_nil] at ht; cases ht
  | c :: s =>
    rcases tokensFrom_cases pos fresh c s with ⟨_, heq⟩ | ⟨hc, kind, b, r, rfl, hlex, heq⟩
    · rw [heq] at ht
      obtain ⟨front, d, b, rest, rfl, hstart, hrest⟩ := exists_place ht
      exact ⟨c :: front, d, b, rest, rfl, by rw [hstart, List.length_cons]; omega, hrest⟩
    · rw [heq] at ht
      rcases List.mem_cons.1 ht with rfl | ht
      · exact ⟨[], c, b, r, rfl, rfl, rfl, hc, fresh, hlex⟩
      · obtain ⟨front, d, b', rest, rfl, hstart, hrest⟩ := exists_place ht
        refine ⟨c :: b ++ front, d, b', rest, by simp, ?_, hrest⟩
        rw [hstart, List.length_append, Nat.add_assoc]
termination_by s.length

/-- A token lies in a source: it takes at least one byte, all its bytes are there, and it is the
lexeme that begins at its start. -/
structure Token.Lies (src : Bytes) (t : Token) : Prop where
  advances : t.start < t.stop
  within : t.stop ≤ src.length
  text : t.text = src.slice t.start t.stop
  lexeme : ∃ fresh c rest, src.drop t.start = c :: rest ∧ isBlankByte c = false ∧
    Source.lexeme fresh c rest = (t.kind, t.stop - t.start - 1)

theorem lies_of_mem {src : Bytes} {t : Token} (ht : t ∈ tokens src) : t.Lies src := by
  obtain ⟨front, c, b, rest, hsrc, hstart, htext, hc, fresh, hlex⟩ := exists_place ht
  have hdrop : src.drop t.start = c :: (b ++ rest) := by
    rw [hsrc, hstart, Nat.zero_add, List.drop_left]
  have hsize : t.stop - t.start = b.length + 1 := by
    rw [Token.stop, htext, List.length_cons]
    omega
  exact {
    advances := (le_start_of_mem ht).2
    within := by simpa using stop_le_of_mem ht
    text := by rw [Bytes.slice, hdrop, hsize, htext, List.take_succ_cons, List.take_left]
    lexeme := ⟨fresh, c, b ++ rest, hdrop, hc, by rw [hsize, hlex, Nat.add_sub_cancel]⟩ }

theorem isBlankByte_iff (c : UInt8) :
    isBlankByte c = true ↔ c ∈ ([0x20, 0x09, 0x0A, 0x0D, 0x0C, 0x0B] : List UInt8) := by
  simp only [isBlankByte, isGap, Bool.or_eq_true, beq_iff_eq, List.mem_cons, List.not_mem_nil,
    or_false]
  grind

/-- **No byte of a source is lost.** Whatever its bytes are, the tokens of a source lie in it, one
after the other, and a byte that belongs to none of them is a space, a tab, a line feed, a carriage
return, a form feed or a vertical tab. -/
theorem tokens_cover (src : Bytes) : (∀ t ∈ tokens src, t.Lies src) ∧
    (tokens src).Pairwise (fun a b => a.stop ≤ b.start) ∧
    ∀ i c, src[i]? = some c → (∀ t ∈ tokens src, i < t.start ∨ t.stop ≤ i) →
      c ∈ ([0x20, 0x09, 0x0A, 0x0D, 0x0C, 0x0B] : List UInt8) := by
  refine ⟨fun t ht => lies_of_mem ht, sorted_tokensFrom src 0 true, fun i c hc hout => ?_⟩
  rcases exists_token src 0 true hc with hblank | ⟨t, ht, hle, hlt⟩
  · exact (isBlankByte_iff c).1 hblank
  · rcases hout t ht with h | h <;> omega

-- a code point of two bytes, an invalid byte and a literal whose last byte is a backslash
example : (tokens [0xC2, 0xA0, 0xFF, 0x20, 0x22, 0x5C]).map (fun t => (t.kind, t.start, t.stop))
    = [(.mark, 0, 2), (.mark, 2, 3), (.string, 4, 6)] := by decide +kernel

end Flowsmith.Source
