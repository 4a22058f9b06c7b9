import Flowsmith.Fault
import Mathlib.Control.Monad.Basic

/-!
# Outcomes

Operations that can fail end in an `Except`. Outcomes can be compared, and an outcome of steps one
after the other is taken apart into those of the steps.

* `bind_eq_ok`, `map_eq_ok` : a sequence of steps that succeeds;
* `decidableExistsOk` : what is said of an outcome can be decided;
* `map_bind_eq` : outcomes that go on alike;
* `Fault.code?_withDetail` : a detail leaves the code of a fault as it is.
-/

namespace Flowsmith

variable {ε α β γ δ : Type}

theorem bind_eq_ok {x : Except ε α} {f : α → Except ε β} {c : β} (h : x >>= f = .ok c) :
    ∃ a, x = .ok a ∧ f a = .ok c := by
  cases x with
  | error e => cases h
  | ok a => exact ⟨a, rfl, h⟩

theorem map_eq_ok {x : Except ε α} {f : α → β} {c : β} (h : x.map f = .ok c) :
    ∃ a, x = .ok a ∧ f a = c := by
  cases x with
  | error e => cases h
  | ok a =>
    cases h
    exact ⟨a, rfl, rfl⟩

theorem eq_ok_of_toOption {x : Except ε α} {a : α} (h : x.toOption = some a) : x = .ok a := by
  cases x with
  | error e => cases h
  | ok b =>
    cases h
    rfl

/-- What is said of the outcome of an operation is found out by running it. -/
instance decidableExistsOk (x : Except ε α) (P : α → Prop) [DecidablePred P] :
    Decidable (∃ a, x = .ok a ∧ P a) :=
  match x with
  | .error _ => isFalse nofun
  | .ok a => decidable_of_iff (P a) ⟨fun h => ⟨a, rfl, h⟩, fun ⟨_, hb, h⟩ => Except.ok.inj hb ▸ h⟩

/-- Two outcomes that are the same seen through `k` stay the same when they go on alike. -/
theorem map_bind_eq {k : α → γ} {p : β → δ} {x y : Except ε α} {f g : α → Except ε β}
    (h : x.map k = y.map k) (hfg : ∀ a b, k a = k b → (f a).map p = (g b).map p) :
    (x >>= f).map p = (y >>= g).map p := by
  cases x with
  | error e =>
    cases y with
    | error e' => cases h; rfl
    | ok b => cases h
  | ok a =>
    cases y with
    | error e' => cases h
    | ok b => exact hfg a b (Except.ok.inj h)

theorem Fault.code?_withDetail (key : Bytes) (value : Detail) (f : Fault) :
    (f.withDetail key value).code? = f.code? := by
  induction f with
  | plain m => rfl
  | noted n => rfl
  | wrapped n cause ih => rfl
  | captioned m cause ih => exact ih
  | aborted r => rfl

end Flowsmith
