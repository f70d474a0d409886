/-
# Lazily filled caches

A library for a table of remembered counts: a key that is asked for and missing is counted
and entered, a key that is present is answered from the table, and an event that raises the
count of a key raises the entry it finds.  Nothing here names the scheduler.

* `ask` answers a query, `advance` takes an event;
* `lookup_ask` and `lookup_advance` say what the table then holds for every key.

Trust base: `[propext, Classical.choice, Quot.sound]`.
-/
import Mathlib

namespace LazyCache

variable {κ : Type} [DecidableEq κ]

/-- What is found after a new entry. -/
theorem lookup_entered (key key' : κ) (n : ℤ) (cache : List (κ × ℤ)) :
    ((key, n) :: cache).lookup key' = if key' = key then some n else cache.lookup key' := by
  rw [List.lookup_cons]
  by_cases hkey : key' = key
  · subst hkey
    simp
  · rw [if_neg hkey, beq_false_of_ne hkey]

/-! ## Queries -/

/-- Answer from the table; a missing key is entered with `fresh`, its true count. -/
def ask (key : κ) (fresh : ℤ) (cache : List (κ × ℤ)) : ℤ × List (κ × ℤ) :=
  match cache.lookup key with
  | some n => (n, cache)
  | none => (fresh, (key, fresh) :: cache)

/-- The answer is the entry, or the fresh count. -/
theorem ask_fst (key : κ) (fresh : ℤ) (cache : List (κ × ℤ)) :
    (ask key fresh cache).1 = (cache.lookup key).getD fresh := by
  unfold ask
  cases h : cache.lookup key with
  | none => rfl
  | some n => rfl

/-- After a query its key has the answer as its entry; nothing else changes. -/
theorem lookup_ask (key key' : κ) (fresh : ℤ) (cache : List (κ × ℤ)) :
    (ask key fresh cache).2.lookup key'
      = if key' = key then some ((cache.lookup key).getD fresh) else cache.lookup key' := by
  unfold ask
  cases h : cache.lookup key with
  | none =>
      show List.lookup key' ((key, fresh) :: cache) = _
      rw [lookup_entered]
      rfl
  | some n =>
      show cache.lookup key' = _
      by_cases hkey : key' = key
      · rw [if_pos hkey, hkey, h]
        rfl
      · rw [if_neg hkey]

/-! ## Events -/

/-- Raise the entries of the key by `amount`. -/
def raise (key : κ) (amount : ℤ) (cache : List (κ × ℤ)) : List (κ × ℤ) :=
  cache.map (fun entry => if entry.1 = key then (entry.1, entry.2 + amount) else entry)

/-- Raise the entry of the key, or enter `fresh`, its count after the event. -/
def advance (key : κ) (amount fresh : ℤ) (cache : List (κ × ℤ)) : List (κ × ℤ) :=
  match cache.lookup key with
  | some _ => raise key amount cache
  | none => (key, fresh) :: cache

/-- Only the entry of the key is raised. -/
theorem lookup_raise (key key' : κ) (amount : ℤ) (cache : List (κ × ℤ)) :
    (raise key amount cache).lookup key'
      = if key' = key then (cache.lookup key).map (· + amount) else cache.lookup key' := by
  induction cache with
  | nil => simp [raise]
  | cons entry cache ih =>
      have hcons : raise key amount (entry :: cache)
          = (if entry.1 = key then (entry.1, entry.2 + amount) else entry)
              :: raise key amount cache := rfl
      rw [hcons, List.lookup_cons, List.lookup_cons, List.lookup_cons, ih]
      by_cases hentry : entry.1 = key
      · rw [if_pos hentry]
        by_cases hkey : key' = key
        · subst hkey
          simp [hentry]
        · have hne : (key' == entry.1) = false := by
            rw [hentry]
            simpa using hkey
          simp [hne, hkey]
      · rw [if_neg hentry]
        by_cases hkey : key' = key
        · subst hkey
          have hne : (key' == entry.1) = false := by
            simpa using fun h : key' = entry.1 => hentry h.symm
          simp [hne]
        · simp [hkey]

/-- After an event its key has an entry, raised or fresh; nothing else changes. -/
theorem lookup_advance (key key' : κ) (amount fresh : ℤ) (cache : List (κ × ℤ)) :
    (advance key amount fresh cache).lookup key'
      = if key' = key then some (((cache.lookup key).map (· + amount)).getD fresh)
        else cache.lookup key' := by
  unfold advance
  cases h : cache.lookup key with
  | none =>
      show List.lookup key' ((key, fresh) :: cache) = _
      rw [lookup_entered]
      rfl
  | some n =>
      show (raise key amount cache).lookup key' = _
      rw [lookup_raise, h]
      rfl

/-- The same with the counts of all keys at hand. -/
theorem lookup_advance_count (key key' : κ) (amount : ℤ) (count : κ → ℤ) (cache : List (κ × ℤ)) :
    (advance key amount (count key) cache).lookup key'
      = if (key == key') = true then
          some (((cache.lookup key').map (· + amount)).getD (count key'))
        else cache.lookup key' := by
  rw [lookup_advance]
  by_cases h : key' = key
  · rw [if_pos h, h, if_pos (beq_self_eq_true key)]
  · rw [if_neg h, if_neg (by simpa using Ne.symm h)]

end LazyCache
