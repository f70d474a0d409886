/-
# Items kept in several lists

A library about items that are spread over a row of lists, one of which is rewritten at
a time.  What an item is known by is given by a function `f`; an operation on one list
neither makes nor doubles items if it keeps the multiset of their `f`-values from
growing.  Nothing here names the scheduler.

* `contents`: the items of all lists, and `contents_set` for another list in one place;
* `map_contents_set_le`: what a rewritten list brings in, all lists together bring in;
* `Once f`: no two items have the same `f`-value; `Once.mono` and `Once.add` carry it;
* `map_le_of_once`: items picked from a list by distinct keys are items of the list.

Trust base: `[propext, Classical.choice, Quot.sound]`.
-/
import Mathlib

namespace Pools

variable {α β κ : Type*}

/-! ## The items of all lists -/

/-- The items of all lists. -/
def contents (pools : List (List α)) : Multiset α := (pools.flatten : Multiset α)

@[simp] theorem contents_nil : contents ([] : List (List α)) = 0 := rfl

@[simp] theorem contents_cons (pool : List α) (pools : List (List α)) :
    contents (pool :: pools) = (pool : Multiset α) + contents pools := by
  unfold contents
  rw [List.flatten_cons, Multiset.coe_add]

@[simp] theorem contents_append (pools pools' : List (List α)) :
    contents (pools ++ pools') = contents pools + contents pools' := by
  unfold contents
  rw [List.flatten_append, Multiset.coe_add]

/-- The items of mapped lists. -/
theorem contents_map (f : α → β) (pools : List (List α)) :
    contents (pools.map (List.map f)) = (contents pools).map f := by
  unfold contents
  rw [← List.map_flatten, Multiset.map_coe]

/-- Another list in one place: the items of the two lists change places. -/
theorem contents_set {pools : List (List α)} {k : ℕ} {old : List α} (new : List α)
    (h : pools[k]? = some old) :
    contents (pools.set k new) + (old : Multiset α) = contents pools + (new : Multiset α) := by
  induction pools generalizing k with
  | nil => simp at h
  | cons pool pools ih =>
      cases k with
      | zero =>
          obtain rfl : pool = old := by simpa using h
          rw [List.set_cons_zero, contents_cons, contents_cons]
          abel
      | succ k =>
          rw [List.getElem?_cons_succ] at h
          rw [List.set_cons_succ, contents_cons, contents_cons, add_assoc, ih h, add_assoc]

/-! ## What is brought in -/

/-- What a rewritten list brings in, all lists together bring in. -/
theorem map_contents_set_le {f : α → κ} {pools : List (List α)} {k : ℕ} {old new : List α}
    {s : Multiset κ} (h : pools[k]? = some old)
    (hle : (new : Multiset α).map f ≤ s + (old : Multiset α).map f) :
    (contents (pools.set k new)).map f ≤ s + (contents pools).map f := by
  have hset := congrArg (Multiset.map f) (contents_set new h)
  rw [Multiset.map_add, Multiset.map_add] at hset
  refine le_of_add_le_add_right (a := (old : Multiset α).map f) ?_
  rw [hset, add_assoc, add_comm s, add_assoc]
  exact add_le_add_right (hle.trans_eq (add_comm _ _)) _

/-- If nothing is brought in, what was left out stays out. -/
theorem map_contents_set_add_le {f : α → κ} {pools : List (List α)} {k : ℕ} {old new : List α}
    {s : Multiset κ} (h : pools[k]? = some old)
    (hle : s + (new : Multiset α).map f ≤ (old : Multiset α).map f) :
    s + (contents (pools.set k new)).map f ≤ (contents pools).map f := by
  have hset := congrArg (Multiset.map f) (contents_set new h)
  rw [Multiset.map_add, Multiset.map_add] at hset
  refine le_of_add_le_add_right (a := (old : Multiset α).map f) ?_
  rw [add_assoc, hset, add_left_comm]
  exact add_le_add_right hle _

/-! ## Items that occur once -/

/-- No two items have the same value. -/
def Once (f : κ → β) (items : Multiset κ) : Prop := (items.map f).Nodup

theorem Once.mono {f : κ → β} {items items' : Multiset κ} (h : Once f items)
    (hle : items' ≤ items) : Once f items' :=
  Multiset.nodup_of_le (Multiset.map_le_map hle) h

/-- Items with new values. -/
theorem Once.add {f : κ → β} {items items' : Multiset κ} (h : Once f items) (h' : Once f items')
    (hnew : ∀ a ∈ items, ∀ b ∈ items', f a ≠ f b) : Once f (items + items') := by
  unfold Once
  rw [Multiset.map_add, Multiset.nodup_add]
  refine ⟨h, h', ?_⟩
  rw [Multiset.disjoint_left]
  intro c hc hc'
  obtain ⟨a, ha, rfl⟩ := Multiset.mem_map.mp hc
  obtain ⟨b, hb, heq⟩ := Multiset.mem_map.mp hc'
  exact hnew a ha b hb heq.symm

/-- Items of a list picked by distinct keys: the list has each of them. -/
theorem map_le_of_once {f : κ → β} {picked items : Multiset κ} (h : Once f picked)
    (hmem : ∀ a ∈ picked, a ∈ items) : picked ≤ items :=
  (Multiset.le_iff_subset h.of_map).mpr hmem

end Pools
