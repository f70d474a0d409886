/-
# Sums over what comes later

A library for quantities that are held until a time: `tailSum time weight xs t` adds the
weights of the items of `xs` that are held beyond `t`.  What is held falls with time exactly if
no span of time gives back a negative amount in sum; the weights themselves may have any sign.
Nothing here names the scheduler.

* `tailSum_eq_span_add`: a tail is a span and the tail behind it;
* `tailSum_antitone_iff`: when the tails at the items' own times fall;
* `tailSum_nonneg_of_span`: then no tail is negative.

Trust base: `[propext, Classical.choice, Quot.sound]`.
-/
import Mathlib.Algebra.BigOperators.Group.List.Basic
import Mathlib.Algebra.Order.BigOperators.Group.List
import Mathlib.Tactic

namespace TailSums

variable {ι τ M : Type*} [LinearOrder τ] [AddCommGroup M]
variable (time : ι → τ) (weight : ι → M)

/-- The weights held beyond `t`. -/
def tailSum (xs : List ι) (t : τ) : M :=
  ((xs.filter (fun x => decide (t < time x))).map weight).sum

/-- The weights given back after `s` and by `t`. -/
def spanSum (xs : List ι) (s t : τ) : M :=
  ((xs.filter (fun x => decide (s < time x ∧ time x ≤ t))).map weight).sum

variable {time weight} {xs : List ι} {s t : τ}

/-- A tail is a span and the tail behind it. -/
theorem tailSum_eq_span_add (xs : List ι) (h : s ≤ t) :
    tailSum time weight xs s = spanSum time weight xs s t + tailSum time weight xs t := by
  unfold tailSum spanSum
  induction xs with
  | nil => simp
  | cons x xs ih =>
      by_cases hlate : t < time x
      · -- held beyond both times
        rw [List.filter_cons_of_pos (by simpa using h.trans_lt hlate),
          List.filter_cons_of_neg (by simpa using fun _ => hlate),
          List.filter_cons_of_pos (by simpa using hlate), List.map_cons, List.sum_cons,
          List.map_cons, List.sum_cons, ih, add_left_comm]
      · rw [List.filter_cons_of_neg (p := fun x => decide (t < time x)) (by simpa using hlate)]
        by_cases hspan : s < time x
        · rw [List.filter_cons_of_pos (by simpa using hspan),
            List.filter_cons_of_pos (by simpa using ⟨hspan, not_lt.mp hlate⟩), List.map_cons,
            List.sum_cons, List.map_cons, List.sum_cons, ih, add_assoc]
        · rw [List.filter_cons_of_neg (by simpa using hspan),
            List.filter_cons_of_neg (by simpa using fun hlt => absurd hlt hspan), ih]

/-- No time passes in a span that ends before it begins. -/
theorem spanSum_of_le (xs : List ι) (h : t ≤ s) : spanSum time weight xs s t = 0 := by
  unfold spanSum
  have hnone : xs.filter (fun x => decide (s < time x ∧ time x ≤ t)) = [] := by
    rw [List.filter_eq_nil_iff]
    intro x _ hx
    obtain ⟨hlt, hle⟩ := of_decide_eq_true hx
    exact absurd (hlt.trans_le (hle.trans h)) (lt_irrefl s)
  rw [hnone, List.map_nil, List.sum_nil]

/-- Nothing is held beyond the last time. -/
theorem tailSum_last (h : ∀ x ∈ xs, time x ≤ t) : tailSum time weight xs t = 0 := by
  unfold tailSum
  have hnone : xs.filter (fun x => decide (t < time x)) = [] := by
    rw [List.filter_eq_nil_iff]
    intro x hx hlt
    exact absurd (of_decide_eq_true hlt) (not_lt.mpr (h x hx))
  rw [hnone, List.map_nil, List.sum_nil]

/-- The tail of renamed items. -/
theorem tailSum_map {κ : Type*} (time : κ → τ) (weight : κ → M) (f : ι → κ) (xs : List ι) (t : τ) :
    tailSum time weight (xs.map f) t =
      tailSum (fun x => time (f x)) (fun x => weight (f x)) xs t := by
  unfold tailSum
  rw [List.filter_map, List.map_map]
  rfl

variable [PartialOrder M]

/-- If no span gives back a negative amount, no tail is negative. -/
theorem tailSum_nonneg_of_span (h : ∀ x ∈ xs, 0 ≤ spanSum time weight xs s (time x)) :
    0 ≤ tailSum time weight xs s := by
  classical
  by_cases hsome : ∃ x ∈ xs, s < time x
  · -- up to the item that is held longest
    obtain ⟨x, hx, hlt⟩ := hsome
    obtain ⟨y, hy, hlast⟩ := xs.toFinset.exists_max_image time ⟨x, List.mem_toFinset.mpr hx⟩
    have hle : s ≤ time y := hlt.le.trans (hlast x (List.mem_toFinset.mpr hx))
    rw [tailSum_eq_span_add xs hle,
      tailSum_last (fun z hz => hlast z (List.mem_toFinset.mpr hz)), add_zero]
    exact h y (List.mem_toFinset.mp hy)
  · rw [tailSum_last]
    intro x hx
    exact not_lt.mp (fun hlt => hsome ⟨x, hx, hlt⟩)

variable [IsOrderedAddMonoid M]

/-- The tail falls from `s` to `t` exactly if the span between them gives back no negative
amount. -/
theorem tailSum_le_iff (xs : List ι) (h : s ≤ t) :
    tailSum time weight xs t ≤ tailSum time weight xs s ↔ 0 ≤ spanSum time weight xs s t := by
  rw [tailSum_eq_span_add xs h, le_add_iff_nonneg_left]

/-- The tails at the items' times fall exactly if no span between two of them gives back a
negative amount. -/
theorem tailSum_antitone_iff (xs : List ι) :
    (∀ x ∈ xs, ∀ y ∈ xs, time x ≤ time y →
      tailSum time weight xs (time y) ≤ tailSum time weight xs (time x)) ↔
    ∀ x ∈ xs, ∀ y ∈ xs, 0 ≤ spanSum time weight xs (time x) (time y) := by
  constructor
  · intro h x hx y hy
    rcases le_total (time x) (time y) with hle | hge
    · exact (tailSum_le_iff xs hle).mp (h x hx y hy hle)
    · rw [spanSum_of_le xs hge]
  · intro h x hx y hy hle
    exact (tailSum_le_iff xs hle).mpr (h x hx y hy)

/-- Without negative weights no span gives back a negative amount. -/
theorem spanSum_nonneg (h : ∀ x ∈ xs, 0 ≤ weight x) (s t : τ) :
    0 ≤ spanSum time weight xs s t := by
  refine List.sum_nonneg ?_
  intro w hw
  obtain ⟨x, hx, rfl⟩ := List.mem_map.mp hw
  exact h x (List.mem_of_mem_filter hx)

end TailSums
