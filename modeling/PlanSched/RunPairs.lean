/-
# Two runs side by side

A library for comparing two checked computations step by step: they agree up to a
relation if both return, with related values, or both stop at the same fault.  Nothing
here names the scheduler.

* `Agree R x y` and its introduction;
* `Agree.bind`: sequences of agreeing steps agree;
* `Agree.map_eq`: what agreement says about the values returned.

Trust base: `[propext, Classical.choice, Quot.sound]`.
-/
import PlanSched.CheckedRun

namespace RunPairs

open CheckedRun

variable {α β γ δ : Type} {R : α → β → Prop} {S : γ → δ → Prop}

/-- Both runs return related values, or both stop at one fault. -/
inductive Agree (R : α → β → Prop) : Run α → Run β → Prop
  | ok {a : α} {b : β} (h : R a b) : Agree R (.ok a) (.ok b)
  | error (fault : Fault) : Agree R (.error fault) (.error fault)

variable {x : Run α} {y : Run β}

/-- A run agrees with itself. -/
theorem Agree.self (x : Run α) : Agree Eq x x := by
  cases x with
  | ok a => exact .ok rfl
  | error fault => exact .error fault

/-- Sequences of agreeing steps agree. -/
theorem Agree.bind {f : α → Run γ} {g : β → Run δ} (h : Agree R x y)
    (hnext : ∀ a b, R a b → Agree S (f a) (g b)) : Agree S (x >>= f) (y >>= g) := by
  cases h with
  | ok hab => exact hnext _ _ hab
  | error fault => exact .error fault

/-- The same run goes before both. -/
theorem Agree.bind_self {z : Run α} {f : α → Run γ} {g : α → Run δ}
    (hnext : ∀ a, Agree S (f a) (g a)) : Agree S (z >>= f) (z >>= g) :=
  (Agree.self z).bind (fun a _ hab => hab ▸ hnext a)

/-- What related values have in common, the runs have. -/
theorem Agree.map_eq {f : α → γ} {g : β → γ} (h : Agree R x y) (hfg : ∀ a b, R a b → f a = g b) :
    x.map f = y.map g := by
  cases h with
  | ok hab => exact congrArg Except.ok (hfg _ _ hab)
  | error fault => rfl

end RunPairs
