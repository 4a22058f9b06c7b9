import Flowsmith.Proofs.Source.Through

/-!
# Nested brackets

The scanner finds the end of a group by counting brackets. Where the brackets of a source are properly
nested, this is the bracket that closes the group.

* `unclosed` : the brackets that are still to be closed after some tokens;
* `Nested` : tokens whose brackets are properly nested;
* `exists_close` : the bracket that closes an open one;
* `goes_pair`, `goes_member` : the scanner passes over what lies inside brackets;
* `splitPair_nested`, `goes_brackets` : and over a pair of them.
-/

namespace Flowsmith.Source

/-! ## Brackets -/

def Token.closer? (t : Token) : Option Bytes :=
  if t.is "(" then some ")"
  else if t.is "[" then some "]"
  else if t.is Bytes.leftBrace then some Bytes.rightBrace
  else none

/-- The brackets that are to be closed after some tokens, the innermost first; none when a bracket is
closed that is not the innermost one. -/
def unclosed (stack : List Bytes) : List Token → Option (List Bytes)
  | [] => some stack
  | t :: ts =>
    match t.closer? with
    | some c => unclosed (c :: stack) ts
    | none =>
      if closes t then
        match stack with
        | [] => none
        | c :: stack => if t.is c then unclosed stack ts else none
      else unclosed stack ts

/-- The brackets among the tokens are properly nested. -/
def Nested (ts : List Token) : Prop := unclosed [] ts = some []

instance (ts : List Token) : Decidable (Nested ts) := inferInstanceAs (Decidable (_ = _))

def bracketPairs : List (Bytes × Bytes) :=
  [("(", ")"), ("[", "]"), (Bytes.leftBrace, Bytes.rightBrace)]

theorem Token.is_inj {t : Token} {v w : Bytes} (hv : t.is v = true) (hw : t.is w = true) : v = w := by
  simp only [Token.is, Bool.and_eq_true, beq_iff_eq] at hv hw
  exact hv.2.symm.trans hw.2

theorem Token.not_is {t : Token} {v w : Bytes} (hv : t.is v = true) (h : v ≠ w) : t.is w = false := by
  cases hw : t.is w with
  | false => rfl
  | true => exact absurd (Token.is_inj hv hw) h

theorem opens_eq (t : Token) : opens t = t.closer?.isSome := by
  unfold opens Token.closer?
  cases t.is "(" <;> cases t.is "[" <;> cases t.is Bytes.leftBrace <;> rfl

theorem exists_of_closer? {t : Token} {c : Bytes} (h : t.closer? = some c) :
    ∃ o, (o, c) ∈ bracketPairs ∧ t.is o = true ∧ closes t = false := by
  have hclose : ∀ o, t.is o = true → o ≠ ")" → o ≠ "]" → o ≠ Bytes.rightBrace → closes t = false := by
    intro o ho h₁ h₂ h₃
    simp [closes, Token.not_is ho h₁, Token.not_is ho h₂, Token.not_is ho h₃]
  unfold Token.closer? at h
  split at h
  · rename_i ho
    cases h
    exact ⟨_, by simp [bracketPairs], ho, hclose _ ho (by decide) (by decide) (by decide)⟩
  · split at h
    · rename_i ho
      cases h
      exact ⟨_, by simp [bracketPairs], ho, hclose _ ho (by decide) (by decide) (by decide)⟩
    · split at h
      · rename_i ho
        cases h
        exact ⟨_, by simp [bracketPairs], ho, hclose _ ho (by decide) (by decide) (by decide)⟩
      · cases h

theorem closer?_of_is {t : Token} {o c : Bytes} (hp : (o, c) ∈ bracketPairs) (h : t.is o = true) :
    t.closer? = some c := by
  simp only [bracketPairs, List.mem_cons, Prod.mk.injEq, List.not_mem_nil, or_false] at hp
  rcases hp with ⟨rfl, rfl⟩ | ⟨rfl, rfl⟩ | ⟨rfl, rfl⟩
  · simp [Token.closer?, h]
  · simp [Token.closer?, h, Token.not_is h (show ("[" : Bytes) ≠ "(" by decide)]
  · simp [Token.closer?, h, Token.not_is h (show Bytes.leftBrace ≠ ("(" : Bytes) by decide),
      Token.not_is h (show Bytes.leftBrace ≠ ("[" : Bytes) by decide)]

theorem closes_of_is {t : Token} {o c : Bytes} (hp : (o, c) ∈ bracketPairs) (h : t.is c = true) :
    closes t = true ∧ t.closer? = none := by
  have hnone : ∀ c, t.is c = true → c ≠ "(" → c ≠ "[" → c ≠ Bytes.leftBrace → t.closer? = none := by
    intro c hc h₁ h₂ h₃
    simp [Token.closer?, Token.not_is hc h₁, Token.not_is hc h₂, Token.not_is hc h₃]
  refine ⟨?_, ?_⟩
  · simp only [bracketPairs, List.mem_cons, Prod.mk.injEq, List.not_mem_nil, or_false] at hp
    rcases hp with ⟨rfl, rfl⟩ | ⟨rfl, rfl⟩ | ⟨rfl, rfl⟩ <;> simp [closes, h]
  · simp only [bracketPairs, List.mem_cons, Prod.mk.injEq, List.not_mem_nil, or_false] at hp
    rcases hp with ⟨rfl, rfl⟩ | ⟨rfl, rfl⟩ | ⟨rfl, rfl⟩ <;>
      exact hnone _ h (by decide) (by decide) (by decide)

theorem bracketPairs_inj {o c o' c' : Bytes} (h : (o, c) ∈ bracketPairs) (h' : (o', c') ∈ bracketPairs) :
    (o = o' ↔ c = c') ∧ o ≠ c' := by
  have hall : ∀ p ∈ bracketPairs, ∀ q ∈ bracketPairs, (p.1 = q.1 ↔ p.2 = q.2) ∧ p.1 ≠ q.2 := by decide
  exact hall _ h _ h'

theorem plain_of_is {t : Token} {w : Bytes} (h : t.is w = true)
    (hw : ∀ p ∈ bracketPairs, w ≠ p.1 ∧ w ≠ p.2) : t.closer? = none ∧ closes t = false := by
  have hnot : ∀ p ∈ bracketPairs, t.is p.1 = false ∧ t.is p.2 = false := fun p hp =>
    ⟨Token.not_is h (hw p hp).1, Token.not_is h (hw p hp).2⟩
  have h₁ := hnot ("(", ")") (by decide)
  have h₂ := hnot ("[", "]") (by decide)
  have h₃ := hnot (Bytes.leftBrace, Bytes.rightBrace) (by decide)
  constructor
  · simp [Token.closer?, h₁.1, h₂.1, h₃.1]
  · simp [closes, h₁.2, h₂.2, h₃.2]

/-! ## What is left to be closed -/

theorem unclosed_open {t : Token} {c : Bytes} (stack : List Bytes) (ts : List Token)
    (h : t.closer? = some c) : unclosed stack (t :: ts) = unclosed (c :: stack) ts := by
  rw [unclosed.eq_def]
  simp only [h]

theorem unclosed_close {t : Token} {c : Bytes} (stack : List Bytes) (ts : List Token)
    (hn : t.closer? = none) (hc : closes t = true) (h : t.is c = true) :
    unclosed (c :: stack) (t :: ts) = unclosed stack ts := by
  rw [unclosed.eq_def]
  simp only [hn, hc, h, if_true]

theorem unclosed_plain {t : Token} (stack : List Bytes) (ts : List Token) (hn : t.closer? = none)
    (hc : closes t = false) : unclosed stack (t :: ts) = unclosed stack ts := by
  rw [unclosed.eq_def]
  simp only [hn, hc, Bool.false_eq_true, if_false]

theorem unclosed_cases {t : Token} {ts : List Token} {stack stack' : List Bytes}
    (h : unclosed stack (t :: ts) = some stack') :
    (∃ o c, (o, c) ∈ bracketPairs ∧ t.is o = true ∧ t.closer? = some c ∧ closes t = false ∧
      unclosed (c :: stack) ts = some stack') ∨
    (∃ c rest, stack = c :: rest ∧ t.is c = true ∧ t.closer? = none ∧ closes t = true ∧
      unclosed rest ts = some stack') ∨
    (t.closer? = none ∧ closes t = false ∧ unclosed stack ts = some stack') := by
  rw [unclosed.eq_def] at h
  simp only at h
  split at h
  · rename_i c hc
    obtain ⟨o, hp, ho, hclose⟩ := exists_of_closer? hc
    exact Or.inl ⟨o, c, hp, ho, hc, hclose, h⟩
  · rename_i hnone
    split at h
    · rename_i hclose
      split at h
      · cases h
      · split at h
        · rename_i c rest his
          exact Or.inr (Or.inl ⟨c, rest, rfl, his, hnone, hclose, h⟩)
        · cases h
    · rename_i hclose
      exact Or.inr (Or.inr ⟨hnone, by simpa using hclose, h⟩)

theorem unclosed_append (stack : List Bytes) (xs ys : List Token) :
    unclosed stack (xs ++ ys) = (unclosed stack xs).bind (unclosed · ys) := by
  fun_induction unclosed stack xs <;> simp_all [unclosed]

theorem unclosed_suffix {ts s : List Token} {stack : List Bytes} (h : unclosed stack ts = some [])
    (hs : s <:+ ts) : ∃ stack', unclosed stack' s = some [] := by
  obtain ⟨p, rfl⟩ := hs
  rw [unclosed_append] at h
  obtain ⟨stack', -, hstack⟩ := Option.bind_eq_some_iff.1 h
  exact ⟨stack', hstack⟩

theorem unclosed_add {stack stack' : List Bytes} {xs : List Token} (more : List Bytes)
    (h : unclosed stack xs = some stack') :
    unclosed (stack ++ more) xs = some (stack' ++ more) := by
  induction xs generalizing stack with
  | nil =>
    cases h
    rfl
  | cons t ts ih =>
    rcases unclosed_cases h with ⟨o, c, _, _, hc, _, hrest⟩ | ⟨c, rest, rfl, his, hn, hc, hrest⟩ |
      ⟨hn, hc, hrest⟩
    · rw [unclosed_open _ _ hc]
      exact ih hrest
    · rw [List.cons_append, unclosed_close _ _ hn hc his]
      exact ih hrest
    · rw [unclosed_plain _ _ hn hc]
      exact ih hrest

theorem Nested.unclosed {xs : List Token} (h : Nested xs) (stack : List Bytes) :
    unclosed stack xs = some stack := unclosed_add stack h

theorem Nested.append {xs ys : List Token} (hx : Nested xs) (hy : Nested ys) : Nested (xs ++ ys) := by
  unfold Nested
  rw [unclosed_append, hx.unclosed]
  exact hy

theorem nested_nil : Nested [] := rfl

theorem Nested.cons {t : Token} {ts : List Token} (hn : t.closer? = none) (hc : closes t = false)
    (h : Nested ts) : Nested (t :: ts) := by
  unfold Nested
  rwa [unclosed_plain _ _ hn hc]

theorem nested_of_plain {ts : List Token} (h : ∀ t ∈ ts, t.closer? = none ∧ closes t = false) :
    Nested ts := by
  induction ts with
  | nil => exact nested_nil
  | cons t ts ih =>
    obtain ⟨hopen, hclose⟩ := h t List.mem_cons_self
    exact (ih fun x hx => h x (List.mem_cons_of_mem _ hx)).cons hopen hclose

theorem Nested.pair {o c : Bytes} (hp : (o, c) ∈ bracketPairs) {t u : Token} {xs ys : List Token}
    (ht : t.is o = true) (hu : u.is c = true) (hx : Nested xs) (hy : Nested ys) :
    Nested (t :: xs ++ u :: ys) := by
  obtain ⟨hclose, hnone⟩ := closes_of_is hp hu
  unfold Nested
  rw [List.cons_append, unclosed_open _ _ (closer?_of_is hp ht), unclosed_append, hx.unclosed,
    Option.bind_some, unclosed_close _ _ hnone hclose hu]
  exact hy

/-- A bracket that is open is closed by some token, and what lies between is nested. -/
theorem exists_close (xs : List Token) {c : Bytes} {stack stack' : List Bytes}
    (h : unclosed (c :: stack) xs = some stack') (hlen : stack'.length ≤ stack.length) :
    ∃ ys t zs, xs = ys ++ t :: zs ∧ Nested ys ∧ t.is c = true ∧ unclosed stack zs = some stack' := by
  match xs with
  | [] =>
    cases h
    simp only [List.length_cons] at hlen
    omega
  | t :: ts =>
    rcases unclosed_cases h with ⟨o, c', hp, ho, _, _, hrest⟩ | ⟨c', rest, hstack, his, _, _, hrest⟩ |
      ⟨hn, hc, hrest⟩
    · obtain ⟨ys, u, zs, rfl, hys, hu, hzs⟩ := exists_close ts hrest (by
        rw [List.length_cons]
        omega)
      obtain ⟨ys', v, zs', rfl, hys', hv, hzs'⟩ := exists_close zs hzs hlen
      exact ⟨t :: ys ++ u :: ys', v, zs', by simp, hys.pair hp ho hu hys', hv, hzs'⟩
    · obtain ⟨rfl, rfl⟩ := List.cons.inj hstack
      exact ⟨[], t, ts, rfl, nested_nil, his, hrest⟩
    · obtain ⟨ys, u, zs, rfl, hys, hu, hzs⟩ := exists_close ts hrest hlen
      exact ⟨t :: ys, u, zs, rfl, hys.cons hn hc, hu, hzs⟩
termination_by xs.length

theorem nested_induction {P : List Token → Prop} (nil : P [])
    (plain : ∀ t ts, t.closer? = none → closes t = false → Nested ts → P ts → P (t :: ts))
    (pair : ∀ o c t u xs ys, (o, c) ∈ bracketPairs → t.is o = true → u.is c = true → Nested xs →
      Nested ys → P xs → P ys → P (t :: xs ++ u :: ys)) {ts : List Token} (h : Nested ts) : P ts := by
  induction hn : ts.length using Nat.strongRecOn generalizing ts with
  | _ n ih =>
    subst hn
    cases ts with
    | nil => exact nil
    | cons t ts =>
      rcases unclosed_cases h with ⟨o, c, hp, ho, -, -, hrest⟩ | ⟨c, rest, hnil, -⟩ | ⟨hn, hc, hrest⟩
      · obtain ⟨xs, u, ys, rfl, hxs, hu, hys⟩ := exists_close ts hrest (by simp)
        have hlen : xs.length < (t :: (xs ++ u :: ys)).length ∧ ys.length < (t :: (xs ++ u :: ys)).length := by
          simp only [List.length_cons, List.length_append]
          omega
        exact pair o c t u xs ys hp ho hu hxs hys (ih _ hlen.1 hxs rfl) (ih _ hlen.2 hys rfl)
      · cases hnil
      · exact plain t ts hn hc hrest (ih _ (by simp) hrest rfl)

/-- A text without the word or mark `w` outside of brackets. -/
def TopFree (w : Bytes) (ts : List Token) : Prop :=
  ∀ pre t post, ts = pre ++ t :: post → Nested pre → t.is w = false

theorem topFree_iff {w : Bytes} {ts : List Token} :
    TopFree w ts ↔ ∀ i, ∀ h : i < ts.length, Nested (ts.take i) → ts[i].is w = false := by
  constructor
  · intro h i hi hpre
    refine h (ts.take i) ts[i] (ts.drop (i + 1)) ?_ hpre
    rw [← List.drop_eq_getElem_cons hi, List.take_append_drop]
  · rintro h pre t post rfl hpre
    have hmark := h pre.length (by simp) (by rwa [List.take_left])
    simpa using hmark

instance (w : Bytes) (ts : List Token) : Decidable (TopFree w ts) := decidable_of_iff _ topFree_iff.symm

theorem TopFree.tail {w : Bytes} {t : Token} {ts : List Token} (h : TopFree w (t :: ts))
    (hn : t.closer? = none) (hc : closes t = false) : t.is w = false ∧ TopFree w ts :=
  ⟨h [] t ts rfl nested_nil,
    fun pre u post hts hpre => h (t :: pre) u post (by rw [hts]; rfl) (hpre.cons hn hc)⟩

theorem TopFree.after {o c w : Bytes} {t u : Token} {xs ys : List Token} (hp : (o, c) ∈ bracketPairs)
    (ht : t.is o = true) (hu : u.is c = true) (hx : Nested xs) (h : TopFree w (t :: xs ++ u :: ys)) :
    TopFree w ys :=
  fun pre v post hys hpre => h (t :: xs ++ u :: pre) v post (by rw [hys]; simp) (hx.pair hp ht hu hpre)

/-! ## The scanner inside brackets -/

theorem not_is_opener {o c : Bytes} (hp : (o, c) ∈ bracketPairs) {t : Token} (h : t.closer? = none) :
    t.is o = false := by
  cases ho : t.is o with
  | false => rfl
  | true =>
    rw [closer?_of_is hp ho] at h
    cases h

theorem not_is_closer {o c : Bytes} (hp : (o, c) ∈ bracketPairs) {t : Token} (h : closes t = false) :
    t.is c = false := by
  cases hc : t.is c with
  | false => rfl
  | true =>
    rw [(closes_of_is hp hc).1] at h
    cases h

/-- Counting one kind of brackets from inside a pair of it passes over tokens that close no more than
they open. -/
theorem goes_pair {o c : Bytes} (hp : (o, c) ∈ bracketPairs) {stack stack' : List Bytes}
    {xs : List Token} (h : unclosed stack xs = some stack') (d : Nat) :
    Goes (pairStep o c) (d + 1 + stack.count c) xs (d + 1 + stack'.count c) := by
  induction xs generalizing stack with
  | nil =>
    cases h
    exact .nil _
  | cons t ts ih =>
    rcases unclosed_cases h with ⟨o', c', hp', ho, _, _, hrest⟩ | ⟨c', rest, rfl, his, hn, hc, hrest⟩ |
      ⟨hn, hc, hrest⟩
    · refine .cons (fun _ => ?_) (ih hrest)
      by_cases hkind : o' = o
      · subst hkind
        obtain rfl := (bracketPairs_inj hp' hp).1.1 rfl
        rw [pairStep_open ho, List.count_cons_self, Nat.add_assoc]
      · have hc' : c' ≠ c := fun hh => hkind ((bracketPairs_inj hp' hp).1.2 hh)
        rw [pairStep_other (Token.not_is ho hkind) (Token.not_is ho (bracketPairs_inj hp' hp).2),
          List.count_cons_of_ne hc']
    · refine .cons (fun _ => ?_) (ih hrest)
      have hopen := not_is_opener hp hn
      by_cases hkind : c' = c
      · subst hkind
        rw [List.count_cons_self, show d + 1 + (rest.count c' + 1) = d + rest.count c' + 2 by omega,
          pairStep_close hopen his, Nat.add_right_comm]
      · rw [pairStep_other hopen (Token.not_is his hkind), List.count_cons_of_ne hkind]
    · exact .cons (fun _ => pairStep_other (not_is_opener hp hn) (not_is_closer hp hc)) (ih hrest)

/-- The group of a bracket that is closed after nested tokens. -/
theorem splitPair_nested {o c : Bytes} (hp : (o, c) ∈ bracketPairs) {t u : Token} {xs : List Token}
    (ht : t.is o = true) (hx : Nested xs) (hu : u.is c = true) (ys : List Token) :
    splitPair o c (t :: xs ++ u :: ys) = (t :: xs ++ [u], ys) :=
  splitPair_of_goes ht (goes_pair hp hx 0) (not_is_opener hp (closes_of_is hp hu).2) hu ys

/-- Where all brackets are closed a brace is closed by one of the tokens after it. -/
theorem exists_block {t : Token} {ts : List Token} {stack : List Bytes}
    (ht : t.is Bytes.leftBrace = true) (h : unclosed stack (t :: ts) = some []) :
    ∃ inner u rest, ts = inner ++ u :: rest ∧ Nested inner ∧ unclosed stack rest = some [] ∧
      splitPair Bytes.leftBrace Bytes.rightBrace (t :: ts) = (t :: inner ++ [u], rest) := by
  have hp : (Bytes.leftBrace, Bytes.rightBrace) ∈ bracketPairs := by simp [bracketPairs]
  rw [unclosed_open _ _ (closer?_of_is hp ht)] at h
  obtain ⟨inner, u, rest, rfl, hinner, hu, hrest⟩ := exists_close ts h (Nat.zero_le _)
  exact ⟨inner, u, rest, rfl, hinner, hrest, splitPair_nested hp ht hinner hu rest⟩

theorem opens_of_closer? {t : Token} (h : t.closer? = none) : opens t = false := by
  rw [opens_eq, h]
  rfl

theorem opens_of_is {o c : Bytes} (hp : (o, c) ∈ bracketPairs) {t : Token} (h : t.is o = true) :
    opens t = true := by
  rw [opens_eq, closer?_of_is hp h]
  rfl

/-- The end of a member is not found inside of brackets. -/
theorem goes_member {stack stack' : List Bytes} {xs : List Token} (h : unclosed stack xs = some stack')
    (d : Nat) (assigned operator : Bool) :
    Goes memberStep ⟨((d + 1 + stack.length : Nat) : Int), assigned, operator⟩ xs
      ⟨((d + 1 + stack'.length : Nat) : Int), assigned, operator⟩ := by
  induction xs generalizing stack with
  | nil =>
    cases h
    exact .nil _
  | cons t ts ih =>
    rcases unclosed_cases h with ⟨o, c, hp, ho, _, _, hrest⟩ | ⟨c, rest, rfl, his, hn, hc, hrest⟩ |
      ⟨hn, hc, hrest⟩
    · refine .cons (fun _ => ?_) (ih hrest)
      rw [memberStep_open (opens_of_is hp ho), List.length_cons]
      rfl
    · refine .cons (fun _ => ?_) (ih hrest)
      have hdepth : ((d + 1 + (c :: rest).length : Nat) : Int) ≠ 1 := by
        rw [List.length_cons]
        omega
      rw [memberStep_close (opens_of_closer? hn) hc
        (by rw [beq_eq_false_iff_ne.2 hdepth, Bool.and_false, Bool.false_and])]
      simp only [List.length_cons, Option.some.injEq, Inside.mk.injEq, and_true]
      omega
    · exact .cons (fun _ => memberStep_inner (opens_of_closer? hn) hc (by simp only; omega)) (ih hrest)

theorem goes_opened {o c : Bytes} (hp : (o, c) ∈ bracketPairs) {t : Token} {xs : List Token}
    (ht : t.is o = true) (hx : Nested xs) (a op : Bool) :
    Goes memberStep ⟨0, a, op⟩ (t :: xs) ⟨1, a, op⟩ :=
  .cons (fun _ => memberStep_open (opens_of_is hp ht)) (goes_member hx 0 a op)

/-- A pair of brackets is passed over outside of all others, unless it may be the block that ends a
member. -/
theorem goes_brackets {o c : Bytes} (hp : (o, c) ∈ bracketPairs) {t u : Token} {xs : List Token}
    (ht : t.is o = true) (hx : Nested xs) (hu : u.is c = true) {a : Bool}
    (h : c ≠ Bytes.rightBrace ∨ a = true) (op : Bool) :
    Goes memberStep ⟨0, a, op⟩ (t :: xs ++ [u]) ⟨0, a, op⟩ := by
  obtain ⟨hcloses, hnone⟩ := closes_of_is hp hu
  have hkeep : (u.is Bytes.rightBrace && (1 : Int) == 1 && !a) = false := by
    rcases h with hc | rfl
    · rw [Token.not_is hu hc]
      rfl
    · exact Bool.and_false _
  exact (goes_opened hp ht hx a op).append
    (.single fun _ => memberStep_close (opens_of_closer? hnone) hcloses hkeep)

end Flowsmith.Source
