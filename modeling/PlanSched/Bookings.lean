/-
# Bookings of exclusive resources

A library about tables of "free from" times: every resource is free from some
time on, and a booking takes a set of resources for an interval that begins when
all of them are free and leaves them free at its end.  Nothing here names the
scheduler.

* `Booking` and the step relation `Books`;
* `Ledger free₀ bs free`: the bookings `bs`, made one after the other, lead from
  the table `free₀` to the table `free`;
* `Ledger.pairwise`: two bookings of one ledger never hold a resource at the same
  time; `Ledger.free_le_start`: none begins before the resource was free at first;
* `Idle`: a resource was left unused at a time its table has passed;
  `Ledger.idle_snoc` says which resources a booking leaves idle.

Trust base: `[propext, Classical.choice, Quot.sound]`.
-/
import Mathlib

namespace Bookings

variable {ι : Type*}

/-! ## Bookings and ledgers -/

/-- The resources in `holds` are taken from `start` to `stop`. -/
structure Booking (ι : Type*) where
  start : ℤ
  stop : ℤ
  holds : Set ι

/-- The booking holds resource `c` at time `t`. -/
def Booking.HoldsAt (b : Booking ι) (c : ι) (t : ℤ) : Prop :=
  c ∈ b.holds ∧ b.start ≤ t ∧ t < b.stop

/-- Booking `b` leads from table `free` to table `free'`. -/
structure Books (free free' : ι → ℤ) (b : Booking ι) : Prop where
  start_le_stop : b.start ≤ b.stop
  free_le : ∀ c ∈ b.holds, free c ≤ b.start
  taken : ∀ c ∈ b.holds, free' c = b.stop
  other : ∀ c, c ∉ b.holds → free' c = free c

/-- The bookings of the list, made in this order, lead from `free₀` to `free`. -/
inductive Ledger (free₀ : ι → ℤ) : List (Booking ι) → (ι → ℤ) → Prop
  | nil : Ledger free₀ [] free₀
  | snoc {bs : List (Booking ι)} {free free' : ι → ℤ} {b : Booking ι}
      (hbs : Ledger free₀ bs free) (hb : Books free free' b) : Ledger free₀ (bs ++ [b]) free'

/-! ## Safety of a ledger -/

/-- A booking only moves times up. -/
theorem Books.free_mono {free free' : ι → ℤ} {b : Booking ι} (h : Books free free' b) (c : ι) :
    free c ≤ free' c := by
  by_cases hc : c ∈ b.holds
  · rw [h.taken c hc]
    exact (h.free_le c hc).trans h.start_le_stop
  · rw [h.other c hc]

/-- Times never move down. -/
theorem Ledger.free_mono {free₀ free : ι → ℤ} {bs : List (Booking ι)}
    (h : Ledger free₀ bs free) (c : ι) : free₀ c ≤ free c := by
  induction h with
  | nil => exact le_rfl
  | snoc _ hb ih => exact ih.trans (hb.free_mono c)

/-- A resource is free after all of its bookings. -/
theorem Ledger.stop_le_free {free₀ free : ι → ℤ} {bs : List (Booking ι)}
    (h : Ledger free₀ bs free) {b : Booking ι} (hb : b ∈ bs) {c : ι} (hc : c ∈ b.holds) :
    b.stop ≤ free c := by
  induction h with
  | nil => cases hb
  | snoc _ hnew ih =>
      rcases List.mem_append.mp hb with hb | hb
      · exact (ih hb).trans (hnew.free_mono c)
      · obtain rfl := List.mem_singleton.mp hb
        rw [hnew.taken c hc]

/-- No booking begins before its resources were free at first. -/
theorem Ledger.free_le_start {free₀ free : ι → ℤ} {bs : List (Booking ι)}
    (h : Ledger free₀ bs free) {b : Booking ι} (hb : b ∈ bs) {c : ι} (hc : c ∈ b.holds) :
    free₀ c ≤ b.start := by
  induction h with
  | nil => cases hb
  | snoc hbs hnew ih =>
      rcases List.mem_append.mp hb with hb | hb
      · exact ih hb
      · obtain rfl := List.mem_singleton.mp hb
        exact (hbs.free_mono c).trans (hnew.free_le c hc)

/-- Of two bookings of one resource the earlier entry ends before the later one
begins. -/
theorem Ledger.pairwise {free₀ free : ι → ℤ} {bs : List (Booking ι)}
    (h : Ledger free₀ bs free) :
    bs.Pairwise (fun a b => ∀ c ∈ a.holds, c ∈ b.holds → a.stop ≤ b.start) := by
  induction h with
  | nil => exact List.Pairwise.nil
  | snoc hbs hnew ih =>
      refine List.pairwise_append.mpr ⟨ih, List.pairwise_singleton _ _, ?_⟩
      intro a ha b hb c hca hcb
      obtain rfl := List.mem_singleton.mp hb
      exact (hbs.stop_le_free ha hca).trans (hnew.free_le c hcb)

/-! ## Idle resources -/

/-- Resource `c` is left unused at the time `t`, which its table has passed. -/
def Idle (free₀ free : ι → ℤ) (bs : List (Booking ι)) (c : ι) (t : ℤ) : Prop :=
  free₀ c ≤ t ∧ t < free c ∧ ∀ b ∈ bs, ¬ b.HoldsAt c t

/-- No booking holds a resource at a time its table has not passed. -/
theorem Ledger.not_holdsAt {free₀ free : ι → ℤ} {bs : List (Booking ι)}
    (h : Ledger free₀ bs free) {c : ι} {t : ℤ} (ht : free c ≤ t) :
    ∀ b ∈ bs, ¬ b.HoldsAt c t := by
  rintro b hb ⟨hc, -, hstop⟩
  have hfree := h.stop_le_free hb hc
  omega

/-- A booking leaves those of its resources idle that have to wait for it. -/
theorem Ledger.idle_snoc {free₀ free free' : ι → ℤ} {bs : List (Booking ι)} {b : Booking ι}
    (h : Ledger free₀ bs free) (hb : Books free free' b) {c : ι} {t : ℤ}
    (hidle : Idle free₀ free bs c t ∨ (c ∈ b.holds ∧ free c ≤ t ∧ t < b.start)) :
    Idle free₀ free' (bs ++ [b]) c t := by
  rcases hidle with ⟨hfirst, hpassed, hunused⟩ | ⟨hc, hfree, hwaits⟩
  · refine ⟨hfirst, hpassed.trans_le (hb.free_mono c), ?_⟩
    intro b' hb'
    rcases List.mem_append.mp hb' with hold | hnew
    · exact hunused b' hold
    · rw [List.mem_singleton.mp hnew]
      rintro ⟨hc, hstart, -⟩
      have := hb.free_le c hc
      omega
  · refine ⟨(h.free_mono c).trans hfree, ?_, ?_⟩
    · rw [hb.taken c hc]
      exact hwaits.trans_le hb.start_le_stop
    · intro b' hb'
      rcases List.mem_append.mp hb' with hold | hnew
      · exact h.not_holdsAt hfree b' hold
      · rw [List.mem_singleton.mp hnew]
        rintro ⟨-, hstart, -⟩
        omega

end Bookings
