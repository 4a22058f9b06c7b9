import Flowsmith.Files.Store

/-!
# Steps that keep a state

Operations on files and steps of a migration go from a state to a result or a fault, and a new state.
`ran` is both, `Ends x s a s'` says that `x` succeeds: from `s` it gives `a` and leaves `s'`, and
`Keeps I x` says that `x` leaves `I` true also when it fails, `Spares I x` that it does when it fails.
`Agree R x y` compares steps on two kinds of states, and `Meets R x y s t` from two of them. One lemma
for each way to build a step takes it apart.
-/

namespace Flowsmith

variable {τ α β : Type} {s s' : τ}

/-- The result or fault of a step, and the state it leaves. -/
def ran (x : ExceptT Fault (StateM τ) α) (s : τ) : Except Fault α × τ := x.run s

theorem ran_bind (x : ExceptT Fault (StateM τ) α) (f : α → ExceptT Fault (StateM τ) β) (s : τ) :
    ran (x >>= f) s =
      match ran x s with
      | (.ok a, t) => ran (f a) t
      | (.error e, t) => (.error e, t) := by
  show (ExceptT.bindCont f (ran x s).1).run (ran x s).2 = _
  rcases ran x s with ⟨r, t⟩
  cases r <;> rfl

@[simp] theorem ran_pure (a : α) : ran (pure a) s = (.ok a, s) := rfl

@[simp] theorem ran_throw (e : Fault) :
    ran (throw e : ExceptT Fault (StateM τ) α) s = (.error e, s) := rfl

@[simp] theorem ran_get_bind (f : τ → ExceptT Fault (StateM τ) β) :
    ran (get >>= f) s = ran (f s) s := rfl

@[simp] theorem ran_modify (g : τ → τ) :
    ran (modify g : ExceptT Fault (StateM τ) PUnit) s = (.ok ⟨⟩, g s) := rfl

@[simp] theorem ran_modify_bind (g : τ → τ) (f : PUnit → ExceptT Fault (StateM τ) β) :
    ran (modify g >>= f) s = ran (f ⟨⟩) (g s) := rfl

theorem ran_ofExcept (r : Except Fault α) : ran (MonadExcept.ofExcept r) s = (r, s) := by
  cases r <;> rfl

theorem ran_tryCatch (x : ExceptT Fault (StateM τ) α) (g : Fault → ExceptT Fault (StateM τ) α)
    (s : τ) :
    ran (tryCatch x g) s =
      match ran x s with
      | (.ok a, t) => (.ok a, t)
      | (.error e, t) => ran (g e) t := by
  unfold ran
  simp only [tryCatch, tryCatchThe, MonadExceptOf.tryCatch, ExceptT.tryCatch, ExceptT.run,
    ExceptT.mk]
  rcases h : x s with ⟨r, t⟩
  simp only [bind, StateT.bind, h]
  cases r <;> rfl

/-- Of two steps one after the other, the first fails or the second does. -/
theorem ran_bind_error_iff {x : ExceptT Fault (StateM τ) α} {f : α → ExceptT Fault (StateM τ) β}
    {e : Fault} :
    ran (x >>= f) s = (.error e, s') ↔
      ran x s = (.error e, s') ∨ ∃ a t, ran x s = (.ok a, t) ∧ ran (f a) t = (.error e, s') := by
  rw [ran_bind]
  rcases ran x s with ⟨r, t⟩
  cases r with
  | error e' => simp
  | ok a =>
    constructor
    · exact fun hf => .inr ⟨a, t, rfl, hf⟩
    · rintro (h | ⟨_, _, ⟨⟩, hf⟩)
      · cases h
      · exact hf

/-- From the state `s` the step gives `a` and leaves the state `s'`. -/
def Ends (x : ExceptT Fault (StateM τ) α) (s : τ) (a : α) (s' : τ) : Prop :=
  ran x s = (.ok a, s')

namespace Ends

theorem bind_iff {x : ExceptT Fault (StateM τ) α} {f : α → ExceptT Fault (StateM τ) β} {b : β} :
    Ends (x >>= f) s b s' ↔ ∃ a t, Ends x s a t ∧ Ends (f a) t b s' := by
  unfold Ends
  rw [ran_bind]
  rcases ran x s with ⟨r, t⟩
  cases r with
  | error e => simp
  | ok a =>
    constructor
    · intro hf
      exact ⟨a, t, rfl, hf⟩
    · rintro ⟨_, _, ⟨⟩, hf⟩
      exact hf

@[simp] theorem pure_iff {a b : α} : Ends (pure a) s b s' ↔ a = b ∧ s = s' := by
  simp [Ends]

@[simp] theorem throw_iff {e : Fault} {a : α} : ¬ Ends (throw e) s a s' := by
  simp [Ends]

@[simp] theorem get_iff {t : τ} : Ends get s t s' ↔ s = t ∧ s = s' := by
  show (Except.ok s, s) = (Except.ok t, s') ↔ _
  simp

@[simp] theorem get_bind_iff {f : τ → ExceptT Fault (StateM τ) β} {b : β} :
    Ends (get >>= f) s b s' ↔ Ends (f s) s b s' := Iff.rfl

@[simp] theorem modify_iff {g : τ → τ} {u : PUnit} : Ends (modify g) s u s' ↔ g s = s' := by
  simp [Ends]

@[simp] theorem modify_bind_iff {g : τ → τ} {f : PUnit → ExceptT Fault (StateM τ) β} {b : β} :
    Ends (modify g >>= f) s b s' ↔ Ends (f ⟨⟩) (g s) b s' := Iff.rfl

@[simp] theorem ofExcept_iff {r : Except Fault α} {a : α} :
    Ends (MonadExcept.ofExcept r) s a s' ↔ r = .ok a ∧ s = s' := by
  simp [Ends, ran_ofExcept]

/-- A fault that is only dressed in words leaves the successes as they are. -/
@[simp] theorem tryCatch_iff {x : ExceptT Fault (StateM τ) α} {g : Fault → Fault} {a : α} :
    Ends (tryCatch x fun f => throw (g f)) s a s' ↔ Ends x s a s' := by
  unfold Ends
  rw [ran_tryCatch]
  rcases ran x s with ⟨r, t⟩
  cases r <;> simp

end Ends

theorem Ends.det {x : ExceptT Fault (StateM τ) α} {a a' : α} {t t' : τ} (h : Ends x s a t)
    (h' : Ends x s a' t') : a = a' ∧ t = t' := by
  have heq := h.symm.trans h'
  simpa using heq

/-- The step leaves `I` true of the state, whether it succeeds or fails. -/
def Keeps (I : τ → Prop) (x : ExceptT Fault (StateM τ) α) : Prop := ∀ ⦃s⦄, I s → I (ran x s).2

namespace Keeps

variable {I : τ → Prop}

theorem pure (a : α) : Keeps I (pure a) := fun _ h => h

theorem throw (e : Fault) : Keeps I (throw e : ExceptT Fault (StateM τ) α) := fun _ h => h

theorem ofExcept (r : Except Fault α) : Keeps I (MonadExcept.ofExcept r) := by
  intro s h
  rw [ran_ofExcept]
  exact h

/-- What follows a step may count on the step having succeeded. -/
theorem bind_of {x : ExceptT Fault (StateM τ) α} {f : α → ExceptT Fault (StateM τ) β}
    (hx : Keeps I x) (hf : ∀ s a t, I s → Ends x s a t → I (ran (f a) t).2) :
    Keeps I (x >>= f) := by
  intro s hs
  have hxs := hx hs
  obtain ⟨r, t, h⟩ : ∃ r t, ran x s = (r, t) := ⟨_, _, rfl⟩
  rw [ran_bind, h]
  rw [h] at hxs
  cases r with
  | error e => exact hxs
  | ok a => exact hf s a t hs h

theorem bind {x : ExceptT Fault (StateM τ) α} {f : α → ExceptT Fault (StateM τ) β}
    (hx : Keeps I x) (hf : ∀ a, Keeps I (f a)) : Keeps I (x >>= f) := by
  refine hx.bind_of fun s a t hs h => hf a ?_
  have hxs := hx hs
  rwa [h] at hxs

theorem get_bind {f : τ → ExceptT Fault (StateM τ) β} (hf : ∀ s, Keeps I (f s)) :
    Keeps I (get >>= f) := fun s hs => hf s hs

theorem modify {g : τ → τ} (hg : ∀ s, I s → I (g s)) :
    Keeps I (modify g : ExceptT Fault (StateM τ) PUnit) := hg

theorem ite {c : Prop} [Decidable c] {x y : ExceptT Fault (StateM τ) α} (hx : Keeps I x)
    (hy : Keeps I y) : Keeps I (if c then x else y) := by
  split
  · exact hx
  · exact hy

theorem tryCatch {x : ExceptT Fault (StateM τ) α} (hx : Keeps I x)
    {g : Fault → ExceptT Fault (StateM τ) α} (hg : ∀ e, Keeps I (g e)) :
    Keeps I (tryCatch x g) := by
  intro s hs
  have hxs := hx hs
  obtain ⟨r, t, h⟩ : ∃ r t, ran x s = (r, t) := ⟨_, _, rfl⟩
  rw [ran_tryCatch, h]
  rw [h] at hxs
  cases r with
  | error e => exact hg e hxs
  | ok a => exact hxs

/-- A step that keeps a predicate and ends leaves it true. -/
theorem ends {x : ExceptT Fault (StateM τ) α} (hx : Keeps I x) {a : α} (hs : I s)
    (h : Ends x s a s') : I s' := by
  have hxs := hx hs
  rwa [h] at hxs

theorem forM {xs : List α} {f : α → ExceptT Fault (StateM τ) PUnit}
    (hf : ∀ x ∈ xs, Keeps I (f x)) : Keeps I (xs.forM f) := by
  induction xs with
  | nil => exact pure _
  | cons x xs ih =>
    have hrest := ih fun y hy => hf y (List.mem_cons_of_mem _ hy)
    exact (hf x List.mem_cons_self).bind fun _ => hrest

end Keeps

/-- A step that leaves `I` true, and then one that leads from `I` to `J`, leave `J` true if `I` implies it. -/
theorem Keeps.then {τ α β : Type} {I J : τ → Prop} {x : ExceptT Fault (StateM τ) α}
    {f : α → ExceptT Fault (StateM τ) β} (hx : Keeps I x) (hstop : ∀ s, I s → J s)
    (hf : ∀ a t, I t → J (ran (f a) t).2) {s : τ} (hs : I s) : J (ran (x >>= f) s).2 := by
  have hxs := hx hs
  obtain ⟨r, t, h⟩ : ∃ r t, ran x s = (r, t) := ⟨_, _, rfl⟩
  rw [ran_bind, h]
  rw [h] at hxs
  cases r with
  | error e => exact hstop t hxs
  | ok a => exact hf a t hxs

/-- The step leaves `I` true of the state when it fails. -/
def Spares (I : τ → Prop) (x : ExceptT Fault (StateM τ) α) : Prop :=
  ∀ ⦃s e t⦄, I s → ran x s = (.error e, t) → I t

namespace Spares

variable {I : τ → Prop}

/-- Only the last of several steps may break `I`, and then it must not fail. -/
theorem bind {x : ExceptT Fault (StateM τ) α} {f : α → ExceptT Fault (StateM τ) β} (hx : Keeps I x)
    (hf : ∀ a, Spares I (f a)) : Spares I (x >>= f) := by
  intro s e t hs h
  have hxs := hx hs
  rw [ran_bind] at h
  obtain ⟨r, s', hran⟩ : ∃ r s', ran x s = (r, s') := ⟨_, _, rfl⟩
  rw [hran] at h hxs
  cases r with
  | error e' =>
    cases h
    exact hxs
  | ok a => exact hf a hxs h

theorem get_bind {f : τ → ExceptT Fault (StateM τ) β} (hf : ∀ s, Spares I (f s)) :
    Spares I (get >>= f) := fun s _ _ hs h => hf s hs h

end Spares

/-- Steps for each of a list that all end lead on from what is true at the beginning: what holds after
some of them holds after one more. -/
theorem Ends.forM_induct {xs : List α} {f : α → ExceptT Fault (StateM τ) PUnit} {u : PUnit}
    {P : List α → τ → Prop} (h : Ends (xs.forM f) s u s') (hnil : P [] s)
    (hstep : ∀ done x t u t', x ∈ xs → P done t → Ends (f x) t u t' → P (done ++ [x]) t') :
    P xs s' := by
  suffices hall : ∀ done rest s, done ++ rest = xs → P done s → Ends (rest.forM f) s u s' → P xs s' by
    exact hall [] xs s rfl hnil h
  intro done rest
  induction rest generalizing done with
  | nil =>
    intro s hxs hP hrest
    obtain ⟨-, rfl⟩ := Ends.pure_iff.1 hrest
    rw [List.append_nil] at hxs
    rwa [← hxs]
  | cons x rest ih =>
    intro s hxs hP hrest
    obtain ⟨v, t, hx, hrest⟩ := Ends.bind_iff.1 hrest
    refine ih (done ++ [x]) t (by simpa using hxs) (hstep done x s v t ?_ hP hx) hrest
    rw [← hxs]
    simp

/-- From states that `R` relates, both steps give the same result or the same fault, and leave states
that `R` relates. -/
def Agree {υ : Type} (R : τ → υ → Prop) (x : ExceptT Fault (StateM τ) α)
    (y : ExceptT Fault (StateM υ) α) : Prop :=
  ∀ ⦃s t⦄, R s t → (ran x s).1 = (ran y t).1 ∧ R (ran x s).2 (ran y t).2

namespace Agree

variable {υ : Type} {R : τ → υ → Prop}

theorem pure (a : α) : Agree R (pure a) (pure a) := fun _ _ h => ⟨rfl, h⟩

theorem throw (e : Fault) :
    Agree R (throw e : ExceptT Fault (StateM τ) α) (throw e) := fun _ _ h => ⟨rfl, h⟩

theorem ofExcept (r : Except Fault α) :
    Agree R (MonadExcept.ofExcept r) (MonadExcept.ofExcept r) := by
  intro s t h
  rw [ran_ofExcept, ran_ofExcept]
  exact ⟨rfl, h⟩

theorem bind {x : ExceptT Fault (StateM τ) α} {y : ExceptT Fault (StateM υ) α}
    {f : α → ExceptT Fault (StateM τ) β} {g : α → ExceptT Fault (StateM υ) β} (h : Agree R x y)
    (hfg : ∀ a, Agree R (f a) (g a)) : Agree R (x >>= f) (y >>= g) := by
  intro s t hst
  obtain ⟨hres, hnext⟩ := h hst
  rw [ran_bind, ran_bind]
  generalize ran x s = out at hres hnext
  generalize ran y t = out' at hres hnext
  obtain ⟨r, s'⟩ := out
  obtain ⟨r', t'⟩ := out'
  obtain rfl : r = r' := hres
  cases r with
  | error e => exact ⟨rfl, hnext⟩
  | ok a => exact hfg a hnext

theorem get_bind {f : τ → ExceptT Fault (StateM τ) β} {g : υ → ExceptT Fault (StateM υ) β}
    (h : ∀ s t, R s t → Agree R (f s) (g t)) : Agree R (get >>= f) (get >>= g) :=
  fun s t hst => h s t hst hst

theorem modify {f : τ → τ} {g : υ → υ} (h : ∀ s t, R s t → R (f s) (g t)) :
    Agree R (modify f : ExceptT Fault (StateM τ) PUnit) (modify g) := fun s t hst => ⟨rfl, h s t hst⟩

theorem ite {c : Prop} [Decidable c] {x x' : ExceptT Fault (StateM τ) α}
    {y y' : ExceptT Fault (StateM υ) α} (h : Agree R x y) (h' : Agree R x' y') :
    Agree R (if c then x else x') (if c then y else y') := by
  split
  · exact h
  · exact h'

theorem tryCatch {x : ExceptT Fault (StateM τ) α} {y : ExceptT Fault (StateM υ) α}
    {f : Fault → ExceptT Fault (StateM τ) α} {g : Fault → ExceptT Fault (StateM υ) α}
    (h : Agree R x y) (hfg : ∀ e, Agree R (f e) (g e)) : Agree R (tryCatch x f) (tryCatch y g) := by
  intro s t hst
  obtain ⟨hres, hnext⟩ := h hst
  rw [ran_tryCatch, ran_tryCatch]
  generalize ran x s = out at hres hnext
  generalize ran y t = out' at hres hnext
  obtain ⟨r, s'⟩ := out
  obtain ⟨r', t'⟩ := out'
  obtain rfl : r = r' := hres
  cases r with
  | error e => exact hfg e hnext
  | ok a => exact ⟨rfl, hnext⟩

theorem forM {xs : List α} {f : α → ExceptT Fault (StateM τ) PUnit}
    {g : α → ExceptT Fault (StateM υ) PUnit} (h : ∀ x, Agree R (f x) (g x)) :
    Agree R (xs.forM f) (xs.forM g) := by
  induction xs with
  | nil => exact pure _
  | cons x xs ih => exact (h x).bind fun _ => ih

end Agree

/-- From the states `s` and `t` both steps give the same result or the same fault, and leave states that
`R` relates. -/
structure Meets {υ : Type} (R : τ → υ → Prop) (x : ExceptT Fault (StateM τ) α)
    (y : ExceptT Fault (StateM υ) α) (s : τ) (t : υ) : Prop where
  result : (ran x s).1 = (ran y t).1
  state : R (ran x s).2 (ran y t).2

theorem Agree.of_meets {υ : Type} {R : τ → υ → Prop} {x : ExceptT Fault (StateM τ) α}
    {y : ExceptT Fault (StateM υ) α} (h : ∀ s t, R s t → Meets R x y s t) : Agree R x y :=
  fun s t hst => ⟨(h s t hst).result, (h s t hst).state⟩

theorem Agree.meets {υ : Type} {R : τ → υ → Prop} {x : ExceptT Fault (StateM τ) α}
    {y : ExceptT Fault (StateM υ) α} (h : Agree R x y) {t : υ} (hst : R s t) : Meets R x y s t :=
  ⟨(h hst).1, (h hst).2⟩

namespace Meets

variable {υ : Type} {R : τ → υ → Prop} {x : ExceptT Fault (StateM τ) α}
  {y : ExceptT Fault (StateM υ) α} {t : υ}

theorem of_ends {a : α} {t' : υ} (hx : Ends x s a s') (hy : Ends y t a t') (h : R s' t') :
    Meets R x y s t := by
  refine ⟨?_, ?_⟩ <;> rw [show ran x s = _ from hx, show ran y t = _ from hy]
  exact h

/-- What follows may count on both steps having succeeded. -/
theorem bind {f : α → ExceptT Fault (StateM τ) β} {g : α → ExceptT Fault (StateM υ) β}
    (h : Meets R x y s t)
    (hfg : ∀ a s' t', Ends x s a s' → Ends y t a t' → R s' t' → Meets R (f a) (g a) s' t') :
    Meets R (x >>= f) (y >>= g) s t := by
  obtain ⟨r, s', hx⟩ : ∃ r s', ran x s = (r, s') := ⟨_, _, rfl⟩
  obtain ⟨r', t', hy⟩ : ∃ r' t', ran y t = (r', t') := ⟨_, _, rfl⟩
  have hres := h.result
  have hnext := h.state
  rw [hx, hy] at hres hnext
  obtain rfl : r = r' := hres
  cases r with
  | error e => refine ⟨?_, ?_⟩ <;> simp only [ran_bind, hx, hy, hnext]
  | ok a =>
    have hrest := hfg a s' t' hx hy hnext
    refine ⟨?_, ?_⟩ <;> simp only [ran_bind, hx, hy]
    · exact hrest.result
    · exact hrest.state

theorem get_bind {f : τ → ExceptT Fault (StateM τ) β} {g : υ → ExceptT Fault (StateM υ) β}
    (h : Meets R (f s) (g t) s t) : Meets R (get >>= f) (get >>= g) s t :=
  ⟨h.result, h.state⟩

theorem tryCatch {g : Fault → Fault} (h : Meets R x y s t) :
    Meets R (tryCatch x fun f => throw (g f)) (tryCatch y fun f => throw (g f)) s t := by
  obtain ⟨r, s', hx⟩ : ∃ r s', ran x s = (r, s') := ⟨_, _, rfl⟩
  obtain ⟨r', t', hy⟩ : ∃ r' t', ran y t = (r', t') := ⟨_, _, rfl⟩
  have hres := h.result
  have hnext := h.state
  rw [hx, hy] at hres hnext
  obtain rfl : r = r' := hres
  cases r <;> refine ⟨?_, ?_⟩ <;> simp only [ran_tryCatch, hx, hy, ran_throw, hnext]

theorem ends (h : Meets R x y s t) {a : α} {t' : υ} (hy : Ends y t a t') :
    ∃ s', Ends x s a s' ∧ R s' t' := by
  have hres := h.result
  have hnext := h.state
  rw [show ran y t = _ from hy] at hres hnext
  exact ⟨_, Prod.ext hres rfl, hnext⟩

end Meets

end Flowsmith
