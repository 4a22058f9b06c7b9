import Flowsmith.Source.Scan

/-!
# Readers that stop

The scanner takes the tokens of a group and the tokens of a member in the same way: one after the other,
in a state that says what is open, through the token at which it stops.

* `through` : the tokens through the one at which a reader stops, and the tokens after it;
* `through_inv` : how it gets through tokens that end where it stops;
* `Goes` : tokens at which a reader does not stop, whatever follows them; `Goes.through` : it passes over
  them;
* `pairStep`, `memberStep` : what one token does to the state, for a group and for a member;
* `splitPairFrom_eq`, `memberSplitFrom_eq` : the groups and members of the scanner are read so.
-/

namespace Flowsmith.Source

section Reader

variable {σ : Type} {step : σ → Token → Bool → Option σ} {s s' s'' : σ} {t : Token} {ts xs ys : List Token}

/-- The tokens through the first one at which a reader stops, and the tokens after it. At each token the
reader sees whether an equals sign follows; it goes on in another state, or stops. -/
def through (step : σ → Token → Bool → Option σ) (s : σ) : List Token → List Token × List Token
  | [] => ([], [])
  | t :: ts =>
    match step s t (startsWith ts "=") with
    | none => ([t], ts)
    | some s' => (t :: (through step s' ts).1, (through step s' ts).2)

theorem through_stop (h : step s t (startsWith ts "=") = none) : through step s (t :: ts) = ([t], ts) := by
  rw [through, h]

theorem through_go (h : step s t (startsWith ts "=") = some s') :
    through step s (t :: ts) = (t :: (through step s' ts).1, (through step s' ts).2) := by
  rw [through, h]

theorem eq_nil_of_through (h : through step s ts = ([], xs)) : ts = [] := by
  cases ts with
  | nil => rfl
  | cons t ts =>
    cases hstep : step s t (startsWith ts "=") with
    | none => simp [through_stop hstep] at h
    | some s' => simp [through_go hstep] at h

/-- How a reader gets through tokens that end where it stops: it stops at the first and only one, or goes
on. -/
theorem through_inv (h : through step s (t :: xs ++ ys) = (t :: xs, ys)) :
    (step s t (startsWith (xs ++ ys) "=") = none ∧ xs = []) ∨
    ∃ s', step s t (startsWith (xs ++ ys) "=") = some s' ∧ through step s' (xs ++ ys) = (xs, ys) := by
  rw [List.cons_append] at h
  cases hstep : step s t (startsWith (xs ++ ys) "=") with
  | none =>
    rw [through_stop hstep] at h
    exact .inl ⟨rfl, (List.cons.inj (Prod.mk.inj h).1).2.symm⟩
  | some s' =>
    rw [through_go hstep] at h
    obtain ⟨h₁, h₂⟩ := Prod.mk.inj h
    exact .inr ⟨s', rfl, Prod.ext (List.cons.inj h₁).2 h₂⟩

/-- Tokens that lead a reader from one state to another without a stop, whatever follows them. -/
inductive Goes (step : σ → Token → Bool → Option σ) : σ → List Token → σ → Prop
  | nil (s : σ) : Goes step s [] s
  | cons {s s' s'' : σ} {t : Token} {ts : List Token} (first : ∀ equals, step s t equals = some s')
      (rest : Goes step s' ts s'') : Goes step s (t :: ts) s''

theorem Goes.single (h : ∀ equals, step s t equals = some s') : Goes step s [t] s' := .cons h (.nil s')

theorem Goes.append (hx : Goes step s xs s') (hy : Goes step s' ys s'') : Goes step s (xs ++ ys) s'' := by
  induction hx with
  | nil => exact hy
  | cons first _ ih => exact .cons first (ih hy)

/-- **A reader passes over** tokens that do not stop it. -/
theorem Goes.through (h : Goes step s xs s') (ys : List Token) :
    through step s (xs ++ ys) = (xs ++ (Source.through step s' ys).1, (Source.through step s' ys).2) := by
  induction h with
  | nil => rfl
  | cons first _ ih => rw [List.cons_append, through_go (first _), ih, List.cons_append]

/-- A reader that does not look ahead stops where it stops, whatever follows. -/
theorem through_congr (hstep : ∀ s t e e', step s t e = step s t e') (h : through step s (xs ++ ys) = (xs, ys))
    (hys : ys ≠ []) (zs : List Token) : through step s (xs ++ zs) = (xs, zs) := by
  induction xs generalizing s with
  | nil => exact absurd (eq_nil_of_through h) hys
  | cons t xs ih =>
    rcases through_inv h with ⟨hstop, rfl⟩ | ⟨s', hgo, hrest⟩
    · exact through_stop ((hstep s t _ _).trans hstop)
    · rw [List.cons_append, through_go ((hstep s t _ _).trans hgo), ih hrest]

/-- A map that changes nothing of what a reader sees changes nothing of where it stops. -/
theorem through_map {f : Token → Token} (hstep : ∀ s t equals, step s (f t) equals = step s t equals)
    (hahead : ∀ ts, startsWith (ts.map f) "=" = startsWith ts "=") (s : σ) (ts : List Token) :
    through step s (ts.map f) = ((through step s ts).1.map f, (through step s ts).2.map f) := by
  induction ts generalizing s with
  | nil => rfl
  | cons t ts ih =>
    have hsame : step s (f t) (startsWith (ts.map f) "=") = step s t (startsWith ts "=") := by
      rw [hstep, hahead]
    cases h : step s t (startsWith ts "=") with
    | none =>
      rw [List.map_cons, through_stop (hsame.trans h), through_stop h]
      rfl
    | some s' =>
      rw [List.map_cons, through_go (hsame.trans h), through_go h, ih]
      rfl

end Reader

/-! ## Groups -/

/-- One token of a group. The state is how many of its brackets are open. -/
def pairStep (opener closer : Bytes) (depth : Nat) (t : Token) (_ : Bool) : Option Nat :=
  if t.is opener then some (depth + 1)
  else if t.is closer then if depth ≤ 1 then none else some (depth - 1)
  else some depth

theorem splitPairFrom_eq (o c : Bytes) (d : Nat) (ts : List Token) :
    splitPairFrom o c d ts = through (pairStep o c) d ts := by
  induction ts generalizing d with
  | nil => rfl
  | cons t ts ih =>
    rw [splitPairFrom, through, pairStep]
    simp only [ih]
    split
    · rfl
    · split
      · split <;> rfl
      · rfl

section Pair

variable {o c : Bytes} {d : Nat} {t : Token} {equals : Bool}

theorem pairStep_open (h : t.is o = true) : pairStep o c d t equals = some (d + 1) := by
  rw [pairStep, if_pos h]

theorem pairStep_close (ho : t.is o = false) (hc : t.is c = true) :
    pairStep o c (d + 2) t equals = some (d + 1) := by
  rw [pairStep, if_neg (by simp [ho]), if_pos hc, if_neg (by omega)]
  rfl

theorem pairStep_last (ho : t.is o = false) (hc : t.is c = true) : pairStep o c 1 t equals = none := by
  rw [pairStep, if_neg (by simp [ho]), if_pos hc, if_pos (Nat.le_refl 1)]

theorem pairStep_other (ho : t.is o = false) (hc : t.is c = false) : pairStep o c d t equals = some d := by
  rw [pairStep, if_neg (by simp [ho]), if_neg (by simp [hc])]

/-- What stands between a bracket and the one that closes it. -/
theorem splitPair_of_goes {u : Token} {xs : List Token} (ht : t.is o = true)
    (hx : Goes (pairStep o c) 1 xs 1) (ho : u.is o = false) (hu : u.is c = true) (ys : List Token) :
    splitPair o c (t :: xs ++ u :: ys) = (t :: xs ++ [u], ys) := by
  have hopen : Goes (pairStep o c) 0 (t :: xs) 1 := .cons (fun _ => pairStep_open ht) hx
  rw [splitPair, splitPairFrom_eq, hopen.through, through_stop (pairStep_last ho hu)]

end Pair

/-! ## Members -/

/-- What the scanner knows inside of a member: how many brackets are open, whether a value has been
assigned, and whether the word `operator` has been read. -/
structure Inside where
  depth : Int
  assigned : Bool
  operator : Bool

def memberStep (s : Inside) (t : Token) (equals : Bool) : Option Inside :=
  if opens t then some { s with depth := s.depth + 1 }
  else if closes t then
    if t.is Bytes.rightBrace && s.depth == 1 && !s.assigned then
      if equals then some { s with depth := 0, assigned := true } else none
    else some { s with depth := s.depth - 1 }
  else if s.depth == 0 && t.is ";" then none
  else some
    ⟨s.depth, s.assigned || (s.depth == 0 && !s.operator && (t.is "=" || t.is "=>")),
      s.operator || (s.depth == 0 && t.is "operator")⟩

theorem memberSplitFrom_eq (d : Int) (a o : Bool) (ts : List Token) :
    memberSplitFrom d a o ts = through memberStep ⟨d, a, o⟩ ts := by
  induction ts generalizing d a o with
  | nil => rfl
  | cons t ts ih =>
    rw [memberSplitFrom, through, memberStep]
    simp only [ih]
    split
    · rfl
    · split
      · split
        · split <;> rfl
        · rfl
      · split <;> rfl

section Member

variable {s s' : Inside} {a op equals : Bool} {t : Token}

/-- The search for the end of a member passes over tokens that do not stop it. -/
theorem Goes.memberSplit {d d' : Int} {a a' op op' : Bool} {xs : List Token}
    (h : Goes memberStep ⟨d, a, op⟩ xs ⟨d', a', op'⟩) (ys : List Token) :
    memberSplitFrom d a op (xs ++ ys)
      = (xs ++ (memberSplitFrom d' a' op' ys).1, (memberSplitFrom d' a' op' ys).2) := by
  simp only [memberSplitFrom_eq]
  exact h.through ys

theorem memberStep_open (h : opens t = true) : memberStep s t equals = some { s with depth := s.depth + 1 } := by
  rw [memberStep, if_pos h]

theorem memberStep_close (ho : opens t = false) (hc : closes t = true)
    (h : (t.is Bytes.rightBrace && s.depth == 1 && !s.assigned) = false) :
    memberStep s t equals = some { s with depth := s.depth - 1 } := by
  rw [memberStep, if_neg (by simp [ho]), if_pos hc, if_neg (by simp [h])]

/-- The brace that closes the first block, when no equals sign follows it. -/
theorem memberStep_block (ho : opens t = false) (hc : closes t = true) (h : t.is Bytes.rightBrace = true) :
    memberStep ⟨1, false, op⟩ t false = none := by
  rw [memberStep, if_neg (by simp [ho]), if_pos hc, if_pos (by simp [h])]
  rfl

theorem memberStep_inner (ho : opens t = false) (hc : closes t = false) (h : s.depth ≠ 0) :
    memberStep s t equals = some s := by
  rw [memberStep, if_neg (by simp [ho]), if_neg (by simp [hc]), beq_eq_false_iff_ne.2 h]
  simp

theorem memberStep_semicolon (ho : opens t = false) (hc : closes t = false) (h : t.is ";" = true) :
    memberStep ⟨0, a, op⟩ t equals = none := by
  rw [memberStep, if_neg (by simp [ho]), if_neg (by simp [hc]), if_pos (by simp [h])]

theorem memberStep_outer (ho : opens t = false) (hc : closes t = false) (h : t.is ";" = false) :
    memberStep ⟨0, a, op⟩ t equals
      = some ⟨0, a || (!op && (t.is "=" || t.is "=>")), op || t.is "operator"⟩ := by
  rw [memberStep, if_neg (by simp [ho]), if_neg (by simp [hc]), if_neg (by simp [h])]
  simp

/-- An equals sign that follows changes nothing where a member goes on without it. -/
theorem memberStep_ahead (h : memberStep s t false = some s') : memberStep s t true = some s' := by
  unfold memberStep at h ⊢
  split
  · rwa [if_pos ‹_›] at h
  · rw [if_neg ‹_›] at h
    split
    · rw [if_pos ‹_›] at h
      split
      · rw [if_pos ‹_›] at h
        cases h
      · rwa [if_neg ‹_›] at h
    · rwa [if_neg ‹_›] at h

end Member

end Flowsmith.Source
