/-
# Dense numberings

A library for a map from keys to numbers kept beside a vector of its keys: the number of a key
is its place in the vector, so the numbers are those below the length of the vector.  Nothing
here names the scheduler.

* `Numbers map names`: the map numbers the keys of the vector by their places;
* `Numbers.concat`: a key that is not there gets the next number;
* `Numbers.inj`, `Numbers.lt_iff`: no number is given twice, and there are no gaps.

Trust base: `[propext, Classical.choice, Quot.sound]`.
-/
import Mathlib.Data.List.Basic
import Mathlib.Tactic

namespace DenseNumbering

variable {κ : Type*} [DecidableEq κ]

/-- The map gives each key of the vector its place there, and no other key a number. -/
def Numbers (map : List (κ × ℕ)) (names : List κ) : Prop :=
  ∀ a i, map.lookup a = some i ↔ names[i]? = some a

variable {map : List (κ × ℕ)} {names : List κ} {a b : κ} {i : ℕ}

/-- Nothing is numbered by the empty map. -/
theorem numbers_nil : Numbers ([] : List (κ × ℕ)) [] := by
  intro a i
  simp

/-- What a map finds behind a new entry. -/
theorem lookup_cons_entry (map : List (κ × ℕ)) (a b : κ) (i : ℕ) :
    ((a, i) :: map).lookup b = if b = a then some i else map.lookup b := by
  rw [List.lookup_cons]
  by_cases hkey : b = a
  · simp [hkey]
  · rw [if_neg hkey, beq_false_of_ne hkey]

/-- A number is a place of the vector. -/
theorem Numbers.lt (h : Numbers map names) (ha : map.lookup a = some i) : i < names.length := by
  have hname := (h a i).mp ha
  exact (List.getElem?_eq_some_iff.mp hname).1

/-- Every place has a key with its number. -/
theorem Numbers.lt_iff (h : Numbers map names) :
    i < names.length ↔ ∃ a, map.lookup a = some i := by
  constructor
  · intro hi
    exact ⟨names[i], (h _ i).mpr (List.getElem?_eq_getElem hi)⟩
  · rintro ⟨a, ha⟩
    exact h.lt ha

/-- No number is given twice. -/
theorem Numbers.inj (h : Numbers map names) (ha : map.lookup a = some i)
    (hb : map.lookup b = some i) : a = b := by
  have hname := (h a i).mp ha
  rw [(h b i).mp hb] at hname
  exact (Option.some.inj hname).symm

/-- A key without a number gets the next one. -/
theorem Numbers.concat (h : Numbers map names) (ha : map.lookup a = none) :
    Numbers ((a, names.length) :: map) (names ++ [a]) := by
  intro b i
  rw [lookup_cons_entry]
  by_cases hkey : b = a
  · subst hkey
    rw [if_pos rfl, Option.some.injEq]
    constructor
    · rintro rfl
      simp
    · intro hname
      rcases lt_trichotomy i names.length with hi | hi | hi
      · -- it would have a number already
        rw [List.getElem?_append_left hi] at hname
        rw [(h b i).mpr hname] at ha
        cases ha
      · exact hi.symm
      · rw [List.getElem?_eq_none (by simp; omega)] at hname
        cases hname
  · rw [if_neg hkey, h b i]
    constructor
    · intro hname
      have hi := (List.getElem?_eq_some_iff.mp hname).1
      rw [List.getElem?_append_left hi]
      exact hname
    · intro hname
      rcases lt_trichotomy i names.length with hi | hi | hi
      · rwa [List.getElem?_append_left hi] at hname
      · subst hi
        simp only [List.getElem?_concat_length, Option.some.injEq] at hname
        exact absurd hname.symm hkey
      · rw [List.getElem?_eq_none (by simp; omega)] at hname
        cases hname

end DenseNumbering
