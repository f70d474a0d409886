/-
# The first index of least key

A library for the search of a loop that keeps the best index so far: among the indices below a
bound that pass a test, the one whose key is least, and the lowest of these.  Keys are taken
from any linear order.  Nothing here names the scheduler.

* `FirstLeast p key n c`: what the search returns;
* `FirstLeast.keep`, `FirstLeast.take`: the two outcomes of one more pass;
* `exists_firstLeast`, `FirstLeast.unique`: the search has exactly one result;
* `FirstLeast.comp_iff`: when the search by images of the keys returns the same index;
* `leastFrom`: the search as a loop over the values of the indices, with a bound for the keys;
* `leastFrom_end`: what the loop ends with.

Trust base: `[propext, Classical.choice, Quot.sound]`.
-/
import Mathlib.Order.Lattice
import Mathlib.Tactic

namespace LeastIndex

variable {α β γ : Type*} [LinearOrder α] [LinearOrder β]

/-- Index `c` passes the test, and among the indices below `n` that do none has a smaller key
and no lower one the same. -/
structure FirstLeast (p : ℕ → Prop) (key : ℕ → α) (n c : ℕ) : Prop where
  lt : c < n
  holds : p c
  least : ∀ d < n, p d → key c < key d ∨ key c = key d ∧ c ≤ d

variable {p q : ℕ → Prop} {key : ℕ → α} {n c d : ℕ}

/-- No key is smaller than that of the result. -/
theorem FirstLeast.le (h : FirstLeast p key n c) (hd : d < n) (hp : p d) : key c ≤ key d := by
  rcases h.least d hd hp with hlt | ⟨heq, -⟩
  · exact hlt.le
  · exact heq.le

/-- There is at most one result. -/
theorem FirstLeast.unique (hc : FirstLeast p key n c) (hd : FirstLeast p key n d) : c = d := by
  rcases hc.least d hd.lt hd.holds with hlt | ⟨-, hle⟩
  · exact absurd hlt (not_lt.mpr (hd.le hc.lt hc.holds))
  · rcases hd.least c hc.lt hc.holds with hlt | ⟨-, hge⟩
    · exact absurd hlt (not_lt.mpr (hc.le hd.lt hd.holds))
    · exact le_antisymm hle hge

/-- The result depends on the test only. -/
theorem FirstLeast.of_iff (h : FirstLeast p key n c) (hpq : ∀ d, p d ↔ q d) :
    FirstLeast q key n c := by
  refine ⟨h.lt, (hpq c).mp h.holds, ?_⟩
  intro d hd hq
  exact h.least d hd ((hpq d).mpr hq)

/-- One more index changes nothing if it fails the test or its key is no smaller. -/
theorem FirstLeast.keep (h : FirstLeast p key n c) (hn : p n → key c ≤ key n) :
    FirstLeast p key (n + 1) c := by
  refine ⟨Nat.lt_succ_of_lt h.lt, h.holds, ?_⟩
  intro d hd hp
  rcases Nat.lt_succ_iff_lt_or_eq.mp hd with hlt | rfl
  · exact h.least d hlt hp
  · rcases (hn hp).lt_or_eq with hlt | heq
    · exact Or.inl hlt
    · exact Or.inr ⟨heq, h.lt.le⟩

/-- One more index is the result if all before it have larger keys. -/
theorem FirstLeast.take (hn : p n) (h : ∀ d < n, p d → key n < key d) :
    FirstLeast p key (n + 1) n := by
  refine ⟨Nat.lt_succ_self n, hn, ?_⟩
  intro d hd hp
  rcases Nat.lt_succ_iff_lt_or_eq.mp hd with hlt | rfl
  · exact Or.inl (h d hlt hp)
  · exact Or.inr ⟨rfl, le_rfl⟩

/-- There is a result if an index passes the test. -/
theorem exists_firstLeast (key : ℕ → α) (h : ∃ d < n, p d) : ∃ c, FirstLeast p key n c := by
  induction n with
  | zero =>
      obtain ⟨d, hd, -⟩ := h
      exact absurd hd (Nat.not_lt_zero d)
  | succ n ih =>
      by_cases hbefore : ∃ d < n, p d
      · obtain ⟨c, hc⟩ := ih hbefore
        by_cases htake : p n ∧ key n < key c
        · refine ⟨n, FirstLeast.take htake.1 ?_⟩
          intro d hd hp
          exact htake.2.trans_le (hc.le hd hp)
        · refine ⟨c, hc.keep ?_⟩
          intro hp
          exact not_lt.mp (fun hlt => htake ⟨hp, hlt⟩)
      · obtain ⟨d, hd, hp⟩ := h
        have hlast : d = n := by
          by_contra hne
          exact hbefore ⟨d, by omega, hp⟩
        rw [hlast] at hp
        refine ⟨n, FirstLeast.take hp ?_⟩
        intro e he hpe
        exact absurd ⟨e, he, hpe⟩ hbefore

/-- The images of the keys select the same index exactly if no larger key has a smaller image,
or the same image at a lower index. -/
theorem FirstLeast.comp_iff (h : FirstLeast p key n c) (g : α → β) :
    FirstLeast p (fun d => g (key d)) n c ↔
      ∀ d < n, p d → key c < key d →
        g (key c) < g (key d) ∨ g (key c) = g (key d) ∧ c < d := by
  constructor
  · intro hg d hd hp hlt
    rcases hg.least d hd hp with hglt | ⟨hgeq, hle⟩
    · exact Or.inl hglt
    · refine Or.inr ⟨hgeq, lt_of_le_of_ne hle ?_⟩
      rintro rfl
      exact lt_irrefl _ hlt
  · intro hall
    refine ⟨h.lt, h.holds, ?_⟩
    intro d hd hp
    rcases h.least d hd hp with hlt | ⟨heq, hle⟩
    · rcases hall d hd hp hlt with hglt | ⟨hgeq, hcd⟩
      · exact Or.inl hglt
      · exact Or.inr ⟨hgeq, hcd.le⟩
    · exact Or.inr ⟨congrArg g heq, hle⟩

/-! ## The loop -/

/-- The loop over the values from index `i` on: it keeps the least key so far, and the index that
has it. -/
def leastFrom (ok : ℕ → γ → Bool) (key : γ → α) : ℕ → List γ → α → Option ℕ → Option ℕ
  | _, [], _, result => result
  | i, x :: xs, min, result =>
      if key x < min ∧ ok i x = true then leastFrom ok key (i + 1) xs (key x) (some i)
      else leastFrom ok key (i + 1) xs min result

/-- What the loop ends with: the result it began with, if no value that passes the test has a
key below the bound, or the first of the values with the least key. -/
inductive LoopEnd (ok : ℕ → γ → Bool) (key : γ → α) (i : ℕ) (xs : List γ) (min : α)
    (result : Option ℕ) : Option ℕ → Prop where
  | kept (hnone : ∀ (d : ℕ) (y : γ), xs[d]? = some y → ok (i + d) y = true → min ≤ key y) :
      LoopEnd ok key i xs min result result
  | found (j : ℕ) (x : γ) (hx : xs[j]? = some x) (hok : ok (i + j) x = true) (hlt : key x < min)
      (hleast : ∀ (d : ℕ) (y : γ), xs[d]? = some y → ok (i + d) y = true →
        key x < key y ∨ key x = key y ∧ j ≤ d) :
      LoopEnd ok key i xs min result (some (i + j))

/-- What holds of all values that pass the test holds of the first one and of the rest. -/
theorem forall_passing_cons {ok : ℕ → γ → Bool} {i : ℕ} {x : γ} {xs : List γ}
    {P : ℕ → γ → Prop} :
    (∀ (d : ℕ) (y : γ), (x :: xs)[d]? = some y → ok (i + d) y = true → P d y) ↔
      (ok i x = true → P 0 x) ∧
        ∀ (d : ℕ) (y : γ), xs[d]? = some y → ok (i + 1 + d) y = true → P (d + 1) y := by
  constructor
  · intro h
    refine ⟨fun hok => h 0 x rfl hok, ?_⟩
    intro d y hy hok
    apply h (d + 1) y hy
    rwa [Nat.add_comm d 1, ← Nat.add_assoc]
  · rintro ⟨hfirst, hrest⟩ d y hy hok
    cases d with
    | zero =>
        cases hy
        exact hfirst hok
    | succ d =>
        apply hrest d y hy
        rwa [Nat.add_assoc, Nat.add_comm 1 d]

/-- The loop ends in one of the two ways. -/
theorem leastFrom_end (ok : ℕ → γ → Bool) (key : γ → α) (xs : List γ) :
    ∀ (i : ℕ) (min : α) (result : Option ℕ),
      LoopEnd ok key i xs min result (leastFrom ok key i xs min result) := by
  induction xs with
  | nil =>
      intro i min result
      apply LoopEnd.kept
      intro d y hy
      cases hy
  | cons x xs ih =>
      intro i min result
      rw [leastFrom]
      split
      · next htake =>
          -- `x` is the least value so far, and what is found behind it is smaller
          have hrest := ih (i + 1) (key x) (some i)
          generalize leastFrom ok key (i + 1) xs (key x) (some i) = last at hrest ⊢
          cases hrest with
          | kept hnone =>
              apply LoopEnd.found 0 x rfl htake.2 htake.1
              refine forall_passing_cons.mpr ⟨fun _ => Or.inr ⟨rfl, le_rfl⟩, ?_⟩
              intro d y hy hok
              rcases (hnone d y hy hok).lt_or_eq with hlt | heq
              · exact Or.inl hlt
              · exact Or.inr ⟨heq, Nat.zero_le _⟩
          | found j y hy hok hlt hleast =>
              rw [Nat.add_assoc, Nat.add_comm 1 j] at hok ⊢
              apply LoopEnd.found (j + 1) y hy hok (hlt.trans htake.1)
              refine forall_passing_cons.mpr ⟨fun _ => Or.inl hlt, ?_⟩
              intro d z hz hokz
              exact (hleast d z hz hokz).imp_right (And.imp_right Nat.succ_le_succ)
      · next hleave =>
          -- `x` fails the test, or its key is not below the bound
          have hfirst : ok i x = true → min ≤ key x :=
            fun hok => not_lt.mp (fun hlt => hleave ⟨hlt, hok⟩)
          have hrest := ih (i + 1) min result
          generalize leastFrom ok key (i + 1) xs min result = last at hrest ⊢
          cases hrest with
          | kept hnone => exact LoopEnd.kept (forall_passing_cons.mpr ⟨hfirst, hnone⟩)
          | found j y hy hok hlt hleast =>
              rw [Nat.add_assoc, Nat.add_comm 1 j] at hok ⊢
              apply LoopEnd.found (j + 1) y hy hok hlt
              refine forall_passing_cons.mpr ⟨fun hokx => Or.inl (hlt.trans_le (hfirst hokx)), ?_⟩
              intro d z hz hokz
              exact (hleast d z hz hokz).imp_right (And.imp_right Nat.succ_le_succ)

end LeastIndex
