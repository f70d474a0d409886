/-
# Moving to the front

A library for a loop that takes the chosen items of a list to the front one after the
other: the last one taken is the first one then, so the chosen items come out in reverse
order, and the others stay as they are.  Nothing here names the scheduler.

* `moveToFront`, `moveToFront_perm`, `moveToFront_map`;
* `moveToFront_eq_self_iff`: which lists are left as they are;
* `moveToFront_again_iff`: when a second pass, which may choose more items, changes
  nothing.

Trust base: `[propext, Classical.choice, Quot.sound]`.
-/
import Mathlib.Data.List.Nodup

namespace MoveToFront

variable {α β : Type*}

/-- The chosen items in reverse order, then the others. -/
def moveToFront (p : α → Bool) (xs : List α) : List α :=
  (xs.filter p).reverse ++ xs.filter (fun x => !p x)

/-- Nothing is lost. -/
theorem moveToFront_perm (p : α → Bool) (xs : List α) : (moveToFront p xs).Perm xs :=
  ((List.reverse_perm _).append_right _).trans (List.filter_append_perm p xs)

/-- Moving and mapping. -/
theorem moveToFront_map (f : α → β) (p : β → Bool) (xs : List α) :
    moveToFront p (xs.map f) = (moveToFront (fun x => p (f x)) xs).map f := by
  unfold moveToFront
  rw [List.filter_map, List.filter_map, List.map_append, List.map_reverse]
  rfl

/-- Where no item is chosen. -/
theorem filter_of_none {p : α → Bool} {xs : List α} (h : ∀ x ∈ xs, p x = false) :
    xs.filter p = [] ∧ xs.filter (fun x => !p x) = xs := by
  constructor
  · rw [List.filter_eq_nil_iff]
    intro x hx
    rw [h x hx]
    exact Bool.false_ne_true
  · rw [List.filter_eq_self]
    intro x hx
    rw [h x hx]
    rfl

/-- The chosen items afterwards. -/
theorem filter_moveToFront {p q : α → Bool} (h : ∀ x, p x = true → q x = true) (xs : List α) :
    (moveToFront p xs).filter q =
      (xs.filter p).reverse ++ xs.filter (fun x => q x && !p x) := by
  unfold moveToFront
  rw [List.filter_append, List.filter_reverse, List.filter_filter, List.filter_filter]
  congr 2
  refine List.filter_congr (fun x _ => ?_)
  by_cases hp : p x = true
  · rw [hp, h x hp]
    rfl
  · rw [Bool.not_eq_true] at hp
    rw [hp, Bool.and_false]

/-- Without repetitions only short lists are their own reverse. -/
theorem reverse_eq_self_iff {xs : List α} (hnodup : xs.Nodup) :
    xs.reverse = xs ↔ xs = [] ∨ ∃ x, xs = [x] := by
  constructor
  · intro h
    cases xs with
    | nil => exact Or.inl rfl
    | cons x xs =>
        right
        -- the first item is the last one as well
        have hlast : (x :: xs).getLast? = some x := by
          rw [← List.head?_reverse, h, List.head?_cons]
        cases xs with
        | nil => exact ⟨x, rfl⟩
        | cons y ys =>
            rw [List.getLast?_cons_cons] at hlast
            have hmem : x ∈ y :: ys := List.mem_of_getLast? hlast
            exact absurd hmem (List.nodup_cons.mp hnodup).1
  · rintro (rfl | ⟨x, rfl⟩)
    · rfl
    · rfl

/-- A list is left as it is if nothing is chosen, or only its first item. -/
theorem moveToFront_eq_self_iff {p : α → Bool} {xs : List α} (hnodup : xs.Nodup) :
    moveToFront p xs = xs ↔
      xs.filter p = [] ∨ ∃ x, xs.filter p = [x] ∧ xs.head? = some x := by
  constructor
  · intro h
    have hchosen : (xs.filter p).reverse = xs.filter p := by
      have hfilter := filter_moveToFront (p := p) (q := p) (fun _ hx => hx) xs
      rw [h] at hfilter
      simpa using hfilter.symm
    rcases (reverse_eq_self_iff (hnodup.filter _)).mp hchosen with hnone | ⟨x, hx⟩
    · exact Or.inl hnone
    · refine Or.inr ⟨x, hx, ?_⟩
      rw [← h, moveToFront, hx]
      rfl
  · rintro (hnone | ⟨x, hx, hhead⟩)
    · have hall : ∀ x ∈ xs, p x = false := by
        intro x hx
        exact Bool.eq_false_iff.mpr (List.filter_eq_nil_iff.mp hnone x hx)
      rw [moveToFront, hnone, (filter_of_none hall).2]
      rfl
    · obtain ⟨rest, rfl⟩ : ∃ rest, xs = x :: rest := by
        cases xs with
        | nil => cases hhead
        | cons y ys =>
            cases hhead
            exact ⟨ys, rfl⟩
      have hpx : p x = true := (List.mem_filter.mp (hx ▸ List.mem_singleton_self x)).2
      rw [List.filter_cons_of_pos hpx, List.cons.injEq] at hx
      have hall : ∀ y ∈ rest, p y = false := by
        intro y hy
        exact Bool.eq_false_iff.mpr (List.filter_eq_nil_iff.mp hx.2 y hy)
      rw [moveToFront, List.filter_cons_of_pos hpx, hx.2,
        List.filter_cons_of_neg (by simp [hpx]), (filter_of_none hall).2]
      rfl

/-- **A second pass changes nothing exactly if it chooses no item at all, or a single one
that the first pass has moved or found in front.** -/
theorem moveToFront_again_iff {p q : α → Bool} (h : ∀ x, p x = true → q x = true) {xs : List α}
    (hnodup : xs.Nodup) :
    moveToFront q (moveToFront p xs) = moveToFront p xs ↔
      xs.filter q = [] ∨ ∃ x, xs.filter q = [x] ∧ (p x = true ∨ xs.head? = some x) := by
  have hperm := moveToFront_perm p xs
  have hchosen : ((moveToFront p xs).filter q).Perm (xs.filter q) := hperm.filter q
  rw [moveToFront_eq_self_iff (hperm.nodup_iff.mpr hnodup)]
  refine or_congr ?_ ?_
  · constructor
    · intro hnil
      rwa [hnil, List.nil_perm] at hchosen
    · intro hnil
      rwa [hnil, List.perm_nil] at hchosen
  · refine exists_congr (fun x => ?_)
    rw [← List.perm_singleton, hchosen.congr_left, List.perm_singleton]
    refine and_congr_right (fun hx => ?_)
    have hqx : x ∈ xs ∧ q x = true := List.mem_filter.mp (hx ▸ List.mem_singleton_self x)
    -- whatever the first pass moves is chosen again, so it is this item
    have honly : ∀ y ∈ xs.filter p, y = x := by
      intro y hy
      obtain ⟨hy, hpy⟩ := List.mem_filter.mp hy
      have hmem : y ∈ xs.filter q := List.mem_filter.mpr ⟨hy, h y hpy⟩
      rw [hx] at hmem
      exact List.mem_singleton.mp hmem
    by_cases hpx : p x = true
    · have hfirst : (moveToFront p xs).head? = some x := by
        have hmem : x ∈ xs.filter p := List.mem_filter.mpr ⟨hqx.1, hpx⟩
        rw [moveToFront, List.head?_append, List.head?_reverse]
        cases hlast : (xs.filter p).getLast? with
        | none =>
            rw [List.getLast?_eq_none_iff] at hlast
            rw [hlast] at hmem
            cases hmem
        | some y => rw [honly y (List.mem_of_getLast? hlast), Option.some_or]
      exact ⟨fun _ => Or.inl hpx, fun _ => hfirst⟩
    · have hnone : xs.filter p = [] := by
        rw [List.filter_eq_nil_iff]
        intro y hy hpy
        rw [honly y (List.mem_filter.mpr ⟨hy, hpy⟩)] at hpy
        exact hpx hpy
      have hsame : moveToFront p xs = xs :=
        (moveToFront_eq_self_iff hnodup).mpr (Or.inl hnone)
      rw [hsame]
      exact ⟨Or.inr, fun hor => hor.resolve_left hpx⟩

/-- Where a key tells the items apart, lists of items are told apart by their keys. -/
theorem map_key_inj {f : α → β} {xs ys zs : List α} (hnodup : (xs.map f).Nodup)
    (hys : ∀ y ∈ ys, y ∈ xs) (hzs : ∀ z ∈ zs, z ∈ xs) : ys.map f = zs.map f ↔ ys = zs := by
  constructor
  · intro h
    induction ys generalizing zs with
    | nil => exact (List.map_eq_nil_iff.mp h.symm).symm
    | cons y ys ih =>
        cases zs with
        | nil => cases h
        | cons z zs =>
            rw [List.map_cons, List.map_cons, List.cons.injEq] at h
            have heq : y = z := List.inj_on_of_nodup_map hnodup (hys y List.mem_cons_self)
              (hzs z List.mem_cons_self) h.1
            rw [heq, ih (fun x hx => hys x (List.mem_cons_of_mem _ hx))
              (fun x hx => hzs x (List.mem_cons_of_mem _ hx)) h.2]
  · intro h
    rw [h]

end MoveToFront
