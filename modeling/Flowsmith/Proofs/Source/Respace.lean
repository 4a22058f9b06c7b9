import Flowsmith.Proofs.Source.Blank

/-!
# Texts that differ in their blanks

A declaration that is carried over changes its blanks: lines get another indentation, lines of blanks
become empty, and the blanks of a type become single spaces.

* `Respaced` : two texts that differ in their blanks, between lines or on one line;
* `Resumes` : what is left of two such texts after a token;
* `decode_of_respaced`, `wordSize_of_respaced`, `numberSize_of_respaced` : code points, words and
  numbers of such texts.
-/

namespace Flowsmith.Source

open Utf8 (isTail decode decode?)

/-! ## Texts that differ in their blanks -/

/-- Blanks that stand for one another. The end of a line loses the blanks in front of it, and the next
line may get another indentation. Otherwise any blanks become one space. -/
inductive Run : Bool → Bytes → Bytes → Prop where
  | lines {u g g' : Bytes} (hu : Blank u) (hg : IsGapText g) (hg' : IsGapText g') :
      Run true (u ++ Bytes.newline :: g) (Bytes.newline :: g')
  | space {u : Bytes} (hu : Blank u) (hne : u ≠ []) : Run false u [0x20]

/-- Two texts that differ in their blanks only. -/
inductive Respaced (lines : Bool) : Bytes → Bytes → Prop where
  | nil : Respaced lines [] []
  | byte {c : UInt8} {s t : Bytes} (hc : c ≠ Bytes.newline) (h : Respaced lines s t) :
      Respaced lines (c :: s) (c :: t)
  | run {u v s t : Bytes} (hr : Run lines u v) (h : Respaced lines s t) :
      Respaced lines (u ++ s) (v ++ t)
  | last {u : Bytes} (hu : Blank u) : Respaced lines u []

def isBlankPart (c : UInt8) : Bool := isBlankByte c || 0x80 ≤ c

theorem isBlankPart_of_mem {e : Bytes} (h : e ∈ Text.blankEncodings) : ∀ c ∈ e, isBlankPart c = true := by
  have hall : Text.blankEncodings.all (·.all isBlankPart) = true := by decide
  exact List.all_eq_true.1 (List.all_eq_true.1 hall e h)

theorem Blank.parts {u : Bytes} (h : Blank u) : ∀ c ∈ u, isBlankPart c = true := by
  induction h with
  | nil => simp
  | unit he _ ih =>
    intro c hc
    rcases List.mem_append.1 hc with hc | hc
    · exact isBlankPart_of_mem he c hc
    · exact ih c hc

theorem IsGapText.parts {g : Bytes} (h : IsGapText g) : ∀ c ∈ g, isBlankPart c = true :=
  fun c hc => by simp [isBlankPart, isBlankByte_of_isGap (h c hc)]

theorem Run.parts {lines : Bool} {u v : Bytes} (h : Run lines u v) :
    (∀ c ∈ u, isBlankPart c = true) ∧ ∀ c ∈ v, isBlankPart c = true := by
  cases h with
  | @lines u g g' hu hg hg' =>
    have hn : isBlankPart Bytes.newline = true := by decide
    constructor
    · intro c hc
      rcases List.mem_append.1 hc with hc | hc
      · exact hu.parts c hc
      · rcases List.mem_cons.1 hc with rfl | hc
        · exact hn
        · exact hg.parts c hc
    · intro c hc
      rcases List.mem_cons.1 hc with rfl | hc
      · exact hn
      · exact hg'.parts c hc
  | space hu _ =>
    refine ⟨hu.parts, fun c hc => ?_⟩
    rw [List.mem_singleton.1 hc]
    decide

/-- Blanks begin with a byte that continues no sequence. -/
theorem Blank.head_not_tail {u : Bytes} (h : Blank u) {x : UInt8} (hx : u.head? = some x) :
    isTail x = false := by
  cases h with
  | nil => cases hx
  | @unit e u he hu =>
    have hform := isBlankForm_of_mem he
    match e, hform with
    | [c], hc =>
      cases hx
      exact isTail_of_isStop (isStop_of_isBlankByte hc)
    | a :: b :: r, hform =>
      cases hx
      simp only [isBlankForm, Bool.and_eq_true, Bool.not_eq_true'] at hform
      exact hform.1.1.1.2

theorem Run.head {lines : Bool} {u v : Bytes} (h : Run lines u v) :
    ∃ x u' y v', u = x :: u' ∧ v = y :: v' ∧ isTail x = false ∧ isBlankByte y = true := by
  cases h with
  | @lines u g g' hu hg hg' =>
    cases u with
    | nil => exact ⟨_, _, _, _, rfl, rfl, by decide, by decide⟩
    | cons x u => exact ⟨x, _, _, _, rfl, rfl, hu.head_not_tail rfl, by decide⟩
  | @space u hu hne =>
    obtain ⟨x, u', rfl⟩ := List.exists_cons_of_ne_nil hne
    exact ⟨x, u', _, _, rfl, rfl, hu.head_not_tail rfl, by decide⟩

theorem Respaced.tame {lines : Bool} {s t : Bytes} (h : Respaced lines s t) : Tame s t := by
  induction h with
  | nil => exact .done []
  | byte _ _ ih => exact .byte _ ih
  | run hr _ _ =>
    obtain ⟨x, u', y, v', -, rfl, -, hy⟩ := hr.head
    exact .stop _ _ (isStop_of_isBlankByte hy)
  | last _ => exact .done _

theorem Respaced.head? {lines : Bool} {s t : Bytes} (h : Respaced lines s t) {x : UInt8}
    (hx : t.head? = some x) (hb : isBlankByte x = false) : s.head? = some x := by
  cases h with
  | nil => cases hx
  | byte _ _ => exact hx
  | run hr _ =>
    obtain ⟨_, _, y, v', -, rfl, -, hy⟩ := hr.head
    cases hx
    rw [hy] at hb
    cases hb
  | last _ => cases hx

theorem Respaced.bytes {lines : Bool} {x s t : Bytes} (hx : Bytes.newline ∉ x)
    (h : Respaced lines s t) : Respaced lines (x ++ s) (x ++ t) := by
  induction x with
  | nil => exact h
  | cons c x ih =>
    simp only [List.mem_cons, not_or] at hx
    exact .byte (fun hc => hx.1 hc.symm) (ih hx.2)

theorem Respaced.append_blank {lines : Bool} {s t u : Bytes} (h : Respaced lines s t) (hu : Blank u) :
    Respaced lines (s ++ u) t := by
  induction h with
  | nil => exact .last hu
  | byte hc _ ih => exact .byte hc ih
  | run hr _ ih => rw [List.append_assoc]; exact .run hr ih
  | last hv => exact .last (hv.append hu)

/-- The first bytes of two such texts: they are the same, or blanks begin among them. -/
theorem Respaced.peel {lines : Bool} {s t : Bytes} (h : Respaced lines s t) (k : Nat)
    (hk : k ≤ s.length) :
    (∃ b r r', s = b ++ r ∧ t = b ++ r' ∧ b.length = k ∧ Respaced lines r r') ∨
    ∃ a x r, s = a ++ x :: r ∧ a.length < k ∧ isTail x = false := by
  induction h generalizing k with
  | nil =>
    obtain rfl : k = 0 := Nat.le_zero.1 hk
    exact Or.inl ⟨[], [], [], rfl, rfl, rfl, .nil⟩
  | @byte c s t hc h ih =>
    cases k with
    | zero => exact Or.inl ⟨[], _, _, rfl, rfl, rfl, .byte hc h⟩
    | succ k =>
      rcases ih k (Nat.le_of_succ_le_succ hk) with ⟨b, r, r', rfl, rfl, rfl, hr⟩ | ⟨a, x, r, rfl, ha, hx⟩
      · exact Or.inl ⟨c :: b, r, r', rfl, rfl, rfl, hr⟩
      · exact Or.inr ⟨c :: a, x, r, rfl, Nat.succ_lt_succ ha, hx⟩
  | @run u v s t hr h ih =>
    cases k with
    | zero => exact Or.inl ⟨[], _, _, rfl, rfl, rfl, .run hr h⟩
    | succ k =>
      obtain ⟨x, u', y, v', rfl, -, hx, -⟩ := hr.head
      exact Or.inr ⟨[], x, u' ++ s, rfl, Nat.succ_pos k, hx⟩
  | @last u hu =>
    cases k with
    | zero => exact Or.inl ⟨[], _, _, rfl, rfl, rfl, .last hu⟩
    | succ k =>
      cases u with
      | nil => cases hk
      | cons x u => exact Or.inr ⟨[], x, u, rfl, Nat.succ_pos k, hu.head_not_tail rfl⟩

/-- A code point does not reach over a byte that continues no sequence. -/
theorem decode_size_le_of_stop (c : UInt8) (a : Bytes) {x : UInt8} (r : Bytes) (hx : isTail x = false) :
    (decode (c :: (a ++ x :: r))).2 ≤ a.length + 1 := by
  unfold decode
  cases hd : decode? (c :: (a ++ x :: r)) with
  | none => simp
  | some p =>
    have hle := (Utf8.decode?_take (v := p.1) (k := p.2) hd).1
    cases hs : decode? (c :: a) with
    | none =>
      have := Utf8.decode?_append_of_none (List.cons_ne_nil c a) hs (r := x :: r) (by
        intro y hy
        cases hy
        exact hx)
      rw [List.cons_append, hd] at this
      cases this
    | some q =>
      have hq := Utf8.decode?_append (x :: r) hs
      rw [List.cons_append, hd] at hq
      cases hq
      exact (Utf8.decode?_take (v := p.1) (k := p.2) hs).1

/-- A code point is the same in both texts. -/
theorem decode_of_respaced {lines : Bool} {s t : Bytes} (h : Respaced lines s t) (c : UInt8) :
    ∃ b r r', s = b ++ r ∧ t = b ++ r' ∧ Respaced lines r r' ∧
      (decode (c :: s)).2 - 1 = b.length ∧ decode (c :: t) = decode (c :: s) := by
  have hle := decode_size_le c s
  have hpos := Utf8.decode_size_pos (c :: s)
  rcases h.peel ((decode (c :: s)).2 - 1) (by omega) with
    ⟨b, r, r', rfl, rfl, hb, hr⟩ | ⟨a, x, r, rfl, ha, hx⟩
  · refine ⟨b, r, r', rfl, rfl, hr, hb.symm, ?_⟩
    exact decode_of_tame hr.tame (List.cons_ne_nil c b) (by
      rw [List.length_cons, List.cons_append]
      omega)
  · have := decode_size_le_of_stop c a r hx
    omega

/-! ## Words and numbers -/

theorem wordSize_blank {u : Bytes} (hu : Blank u) (hne : u ≠ []) (s : Bytes) :
    wordSize (u ++ s) = 0 := by
  cases hu with
  | nil => exact absurd rfl hne
  | @unit e u he hu =>
    have hform := isBlankForm_of_mem he
    match e, hform with
    | [c], hc =>
      rw [List.append_assoc, List.singleton_append]
      exact wordSize_eq_zero_of_tame (.stop [] (u ++ s) (isStop_of_isBlankByte hc)) wordSize_nil
    | a :: b :: r, hform =>
      simp only [isBlankForm, Bool.and_eq_true, Bool.not_eq_true', Option.any_eq_true] at hform
      obtain ⟨p, hp, -, hword⟩ := hform.2
      have hdec : decode (a :: (b :: r ++ (u ++ s))) = p := by
        unfold decode
        rw [← List.cons_append, Utf8.decode?_append (u ++ s) hp]
        rfl
      rw [List.append_assoc, List.cons_append, wordSize_cons, hdec, if_neg (by simp [hword])]

theorem Run.wordSize {lines : Bool} {u v : Bytes} (h : Run lines u v) (s : Bytes) :
    wordSize (u ++ s) = 0 := by
  cases h with
  | @lines u g g' hu hg hg' =>
    have hblank : Blank (u ++ Bytes.newline :: g) := by
      refine hu.append ?_
      rw [← List.singleton_append]
      exact .unit (by decide) hg.blank
    exact wordSize_blank hblank (by simp) s
  | space hu hne => exact wordSize_blank hu hne s

theorem wordSize_of_respaced {lines : Bool} {s t : Bytes} (h : Respaced lines s t) :
    ∃ b r r', s = b ++ r ∧ t = b ++ r' ∧ Respaced lines r r' ∧ wordSize s = b.length := by
  match s, t, h with
  | _, _, .nil => exact ⟨[], [], [], rfl, rfl, .nil, wordSize_nil⟩
  | _, _, .byte (c := c) (s := s) (t := t) hc h =>
    obtain ⟨b, r, r', rfl, rfl, hr, hb, hdec⟩ := decode_of_respaced h c
    have hpos := Utf8.decode_size_pos (c :: (b ++ r))
    cases hword : isWordPart (decode (c :: (b ++ r))).1 with
    | false =>
      refine ⟨[], _, _, rfl, rfl, .byte hc h, ?_⟩
      rw [wordSize_cons, hword]
      rfl
    | true =>
      obtain ⟨b', r₂, r₂', rfl, rfl, hr₂, hb'⟩ := wordSize_of_respaced hr
      refine ⟨c :: b ++ b', r₂, r₂', by simp, by simp, hr₂, ?_⟩
      rw [wordSize_cons, hword, if_pos rfl, hb, List.drop_left, hb']
      simp only [List.length_append, List.length_cons]
      omega
  | _, _, .run hr h => exact ⟨[], _, _, rfl, rfl, .run hr h, hr.wordSize _⟩
  | u, _, .last hu =>
    refine ⟨[], _, _, rfl, rfl, .last hu, ?_⟩
    by_cases hne : u = []
    · rw [hne, wordSize_nil]
      rfl
    · have := wordSize_blank hu hne []
      rwa [List.append_nil] at this
termination_by s.length

/-- Blanks in front of two texts that differ in their blanks, after a token. -/
inductive Lead : Bool → Bytes → Bytes → Prop where
  | none {lines : Bool} : Lead lines [] []
  | lines {u g g' : Bytes} (hu : Loose u) (hg : IsGapText g) (hg' : IsGapText g') :
      Lead true (u ++ Bytes.newline :: g) (Bytes.newline :: g')
  | space {u v : Bytes} (hu : Loose u) (hv : IsGapText v) : Lead false u v

theorem Run.lead {lines : Bool} {u v : Bytes} (h : Run lines u v) : Lead lines u v := by
  cases h with
  | lines hu hg hg' => exact .lines hu.loose hg hg'
  | space hu hne =>
    refine .space hu.loose fun c hc => ?_
    rw [List.mem_singleton.1 hc]
    decide

/-- What is left of two texts that differ in their blanks, after a token. -/
inductive Resumes (lines : Bool) : Bytes → Bytes → Prop where
  | lead {u v s t : Bytes} (h : Lead lines u v) (hs : Respaced lines s t) :
      Resumes lines (u ++ s) (v ++ t)
  | last {u : Bytes} (hu : Loose u) : Resumes lines u []

theorem Respaced.resumes {lines : Bool} {s t : Bytes} (h : Respaced lines s t) : Resumes lines s t :=
  .lead .none h

theorem isNumberPart_of_isBlankByte {c : UInt8} (h : isBlankByte c = true) :
    (isWordPart c.toNat || c == '.'.toUInt8) = false := by
  have hstop := isStop_of_isBlankByte h
  have hdot : c ≠ '.'.toUInt8 := by
    rintro rfl
    revert h
    decide
  simp [not_isWordPart_of_isStop hstop, hdot]

theorem numberSize_blank {u : Bytes} (hu : Blank u) (s : Bytes) (hs : u = [] → numberSize s = 0) :
    ∃ a u', u = a ++ u' ∧ Loose u' ∧ numberSize (u ++ s) = a.length := by
  cases hu with
  | nil => exact ⟨[], [], rfl, .nil, hs rfl⟩
  | @unit e u he hu =>
    have hform := isBlankForm_of_mem he
    match e, hform, he with
    | [c], hc, he =>
      refine ⟨[], [c] ++ u, rfl, .unit he hu.loose, ?_⟩
      unfold numberSize
      rw [List.append_assoc, List.singleton_append,
        List.takeWhile_cons_of_neg (by rw [isNumberPart_of_isBlankByte hc]; decide)]
    | a :: b :: r, hform, he =>
      simp only [isBlankForm, Bool.and_eq_true, Bool.not_eq_true', decide_eq_true_eq] at hform
      obtain ⟨⟨⟨-, htail⟩, hword⟩, -⟩ := hform
      have hloose : Loose (b :: r ++ u) := by
        have hrest : ∀ w : Bytes, w.all isTail = true → Loose (w ++ u) := by
          intro w hw
          induction w with
          | nil => exact hu.loose
          | cons c w ih =>
            simp only [List.all_cons, Bool.and_eq_true] at hw
            exact .rest hw.1 (ih hw.2)
        exact hrest _ htail
      have hdot : b ≠ '.'.toUInt8 := by
        rintro rfl
        simp only [List.all_cons, Bool.and_eq_true] at htail
        exact absurd htail.1 (by decide)
      have hb : (isWordPart b.toNat || b == '.'.toUInt8) = false := by simp [hword, hdot]
      cases ha : (isWordPart a.toNat || a == '.'.toUInt8) with
      | false =>
        refine ⟨[], a :: b :: r ++ u, rfl, .unit he hu.loose, ?_⟩
        unfold numberSize
        rw [List.append_assoc, List.cons_append, List.takeWhile_cons_of_neg (by rw [ha]; decide)]
      | true =>
        refine ⟨[a], b :: r ++ u, rfl, hloose, ?_⟩
        unfold numberSize
        rw [List.append_assoc, List.cons_append, List.takeWhile_cons_of_pos (by exact ha),
          List.cons_append,
          List.takeWhile_cons_of_neg (by rw [hb]; decide)]

/-- A number goes on in both texts up to the same blanks, of which it may take the first byte. -/
theorem numberSize_of_respaced {lines : Bool} {s t : Bytes} (h : Respaced lines s t) :
    ∃ b r b' r', s = b ++ r ∧ t = b' ++ r' ∧ numberSize s = b.length ∧ numberSize t = b'.length ∧
      Resumes lines r r' := by
  induction h with
  | nil => exact ⟨[], [], [], [], rfl, rfl, rfl, rfl, Respaced.nil.resumes⟩
  | @byte c s t hc h ih =>
    cases hnum : (isWordPart c.toNat || c == '.'.toUInt8) with
    | false =>
      refine ⟨[], _, [], _, rfl, rfl, ?_, ?_, (Respaced.byte hc h).resumes⟩
      all_goals
        unfold numberSize
        rw [List.takeWhile_cons_of_neg (by rw [hnum]; decide)]
    | true =>
      obtain ⟨b, r, b', r', rfl, rfl, hb, hb', hr⟩ := ih
      refine ⟨c :: b, r, c :: b', r', rfl, rfl, ?_, ?_, hr⟩
      all_goals
        unfold numberSize at hb hb' ⊢
        rw [List.takeWhile_cons_of_pos (by exact hnum), List.length_cons, List.length_cons]
      · rw [hb]
      · rw [hb']
  | @run u v s t hr h _ =>
    cases hr with
    | @lines u g g' hu hg hg' =>
      have hnl : ∀ w : Bytes, numberSize (Bytes.newline :: w) = 0 := by
        intro w
        unfold numberSize
        rw [List.takeWhile_cons_of_neg (by decide)]
        rfl
      obtain ⟨a, u', rfl, hloose, hsize⟩ := numberSize_blank hu (Bytes.newline :: g ++ s) fun _ => hnl _
      refine ⟨a, u' ++ Bytes.newline :: g ++ s, [], _, by simp, rfl, by simpa using hsize, hnl _,
        .lead (.lines hloose hg hg') h⟩
    | @space u hu hne =>
      obtain ⟨a, u', rfl, hloose, hsize⟩ := numberSize_blank hu s fun hnil => absurd hnil hne
      refine ⟨a, u' ++ s, [], [0x20] ++ t, by simp, rfl, hsize, ?_, .lead (.space hloose ?_) h⟩
      · unfold numberSize
        rw [List.cons_append, List.takeWhile_cons_of_neg (by decide)]
      · exact fun c hc => by rw [List.mem_singleton.1 hc]; decide
  | @last u hu =>
    obtain ⟨a, u', rfl, hloose, hsize⟩ := numberSize_blank hu [] fun _ => rfl
    rw [List.append_nil] at hsize
    exact ⟨a, u', [], [], rfl, rfl, hsize, rfl, .last hloose⟩

end Flowsmith.Source
