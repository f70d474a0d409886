/-
# Bisection of a range

A library for the recursive search that halves a range of indices with inclusive bounds.  It
keeps the indices it halves at, so that one can say what a search looks at.  The keys are taken
from any linear order.  Nothing here names the scheduler.

* `bisect key x budget a b`: the search for the key `x` at the indices `a..b`;
* `bisect_visits`: it halves at indices of the range only;
* `bisect_found`: what it finds has the key, and it has halved there;
* `bisect_found_iff`: with increasing keys it finds the index that has the key;
* `bisect_stable`: a budget beyond the length of the range changes nothing.

Trust base: `[propext, Classical.choice, Quot.sound]`.
-/
import Mathlib.Order.Monotone.Basic
import Mathlib.Order.Interval.Set.Defs
import Mathlib.Tactic

namespace Bisection

/-- What a search does: the indices it halves at, in order, and the index it finds. -/
structure Outcome : Type where
  visits : List ℤ
  found : Option ℤ
  deriving DecidableEq, Repr

/-- The search that halves at `m` first. -/
def Outcome.startingAt (m : ℤ) (outcome : Outcome) : Outcome := ⟨m :: outcome.visits, outcome.found⟩

variable {α : Type*} [LinearOrder α]

/-- The search for the key `x` at the indices `a..b`, with a budget of halvings. -/
def bisect (key : ℤ → α) (x : α) : ℕ → ℤ → ℤ → Outcome
  | 0, _, _ => ⟨[], none⟩
  | budget + 1, a, b =>
      if b < a then ⟨[], none⟩
      else if key ((a + b) / 2) = x then ⟨[(a + b) / 2], some ((a + b) / 2)⟩
      else if key ((a + b) / 2) < x then
        Outcome.startingAt ((a + b) / 2) (bisect key x budget ((a + b) / 2 + 1) b)
      else Outcome.startingAt ((a + b) / 2) (bisect key x budget a ((a + b) / 2 - 1))

variable {key : ℤ → α} {x : α}

/-- An empty range has nothing to halve. -/
theorem bisect_of_lt {budget : ℕ} {a b : ℤ} (h : b < a) :
    bisect key x budget a b = ⟨[], none⟩ := by
  cases budget with
  | zero => rfl
  | succ budget => rw [bisect, if_pos h]

/-- All halvings are inside the range. -/
theorem bisect_visits (budget : ℕ) :
    ∀ {a b m : ℤ}, m ∈ (bisect key x budget a b).visits → a ≤ m ∧ m ≤ b := by
  induction budget with
  | zero =>
      intro a b m hm
      cases hm
  | succ budget ih =>
      intro a b m hm
      rw [bisect] at hm
      split at hm
      · cases hm
      · split at hm
        · obtain rfl := List.mem_singleton.mp hm
          omega
        · split at hm
          · rcases List.mem_cons.mp hm with rfl | hm
            · omega
            · have := ih hm
              omega
          · rcases List.mem_cons.mp hm with rfl | hm
            · omega
            · have := ih hm
              omega

/-- The index that is found has the key, and the search has halved there. -/
theorem bisect_found (budget : ℕ) :
    ∀ {a b i : ℤ}, (bisect key x budget a b).found = some i →
      i ∈ (bisect key x budget a b).visits ∧ key i = x := by
  induction budget with
  | zero =>
      intro a b i hi
      cases hi
  | succ budget ih =>
      intro a b i hi
      rw [bisect] at hi ⊢
      split at hi
      · cases hi
      · next hrange =>
          rw [if_neg hrange]
          split at hi
          · next hkey =>
              obtain rfl := Option.some.inj hi
              rw [if_pos hkey]
              exact ⟨List.mem_singleton_self _, hkey⟩
          · next hkey =>
              rw [if_neg hkey]
              split at hi
              · next hless =>
                  rw [if_pos hless]
                  obtain ⟨hvisit, hfound⟩ := ih hi
                  exact ⟨List.mem_cons_of_mem _ hvisit, hfound⟩
              · next hless =>
                  rw [if_neg hless]
                  obtain ⟨hvisit, hfound⟩ := ih hi
                  exact ⟨List.mem_cons_of_mem _ hvisit, hfound⟩

/-- With increasing keys the search misses no index. -/
theorem bisect_complete (budget : ℕ) :
    ∀ {a b i : ℤ}, StrictMonoOn key (Set.Icc a b) → b - a < budget → i ∈ Set.Icc a b →
      key i = x → (bisect key x budget a b).found = some i := by
  induction budget with
  | zero =>
      intro a b i _ hbudget hi _
      obtain ⟨hai, hib⟩ := hi
      omega
  | succ budget ih =>
      intro a b i hmono hbudget hi hkey
      obtain ⟨hai, hib⟩ := hi
      have hmiddle : (a + b) / 2 ∈ Set.Icc a b := ⟨by omega, by omega⟩
      rw [bisect, if_neg (by omega)]
      -- on which side of the middle the index is
      rcases lt_trichotomy i ((a + b) / 2) with hside | hside | hside
      · have hless : x < key ((a + b) / 2) := hkey ▸ hmono ⟨hai, hib⟩ hmiddle hside
        rw [if_neg hless.ne', if_neg (not_lt.mpr hless.le)]
        apply ih
        · exact hmono.mono (Set.Icc_subset_Icc le_rfl (by omega))
        · omega
        · exact ⟨hai, by omega⟩
        · exact hkey
      · rw [← hside, if_pos hkey]
      · have hless : key ((a + b) / 2) < x := hkey ▸ hmono hmiddle ⟨hai, hib⟩ hside
        rw [if_neg hless.ne, if_pos hless]
        apply ih
        · exact hmono.mono (Set.Icc_subset_Icc (by omega) le_rfl)
        · omega
        · exact ⟨by omega, hib⟩
        · exact hkey

/-- With increasing keys the search finds the index that has the key, and nothing else. -/
theorem bisect_found_iff (budget : ℕ) {a b i : ℤ} (hmono : StrictMonoOn key (Set.Icc a b))
    (hbudget : b - a < budget) :
    (bisect key x budget a b).found = some i ↔ i ∈ Set.Icc a b ∧ key i = x := by
  constructor
  · intro hfound
    obtain ⟨hvisit, hkey⟩ := bisect_found budget hfound
    exact ⟨bisect_visits budget hvisit, hkey⟩
  · rintro ⟨hi, hkey⟩
    exact bisect_complete budget hmono hbudget hi hkey

/-- A budget beyond the length of the range changes nothing. -/
theorem bisect_stable (budget : ℕ) : ∀ (budget' : ℕ) {a b : ℤ}, b - a < budget → b - a < budget' →
    bisect key x budget a b = bisect key x budget' a b := by
  induction budget with
  | zero =>
      intro budget' a b hbudget _
      rw [bisect_of_lt (by omega), bisect_of_lt (by omega)]
  | succ budget ih =>
      intro budget' a b hbudget hbudget'
      by_cases hrange : b < a
      · rw [bisect_of_lt hrange, bisect_of_lt hrange]
      · cases budget' with
        | zero => omega
        | succ budget' =>
            rw [bisect, bisect, ih budget' (by omega) (by omega), ih budget' (by omega) (by omega)]

end Bisection
