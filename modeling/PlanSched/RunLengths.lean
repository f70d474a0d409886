/-
# Runs of equal items

A library for the runs of a list: its items with their lengths, read from the front with
the open run carried along.  Nothing here names the scheduler.

* `expand_runs`: expanding the runs gives the list back;
* `isChain_runs`, `runs_pos`: they are maximal, and none is empty;
* `runs_expand`: no other runs are and stand for the same list.

Trust base: `[propext, Classical.choice, Quot.sound]`.
-/
import Mathlib.Data.List.Chain
import Mathlib.Tactic

namespace RunLengths

variable {α : Type*} [DecidableEq α]

/-- The runs of a list behind an open run of `n` times `a`. -/
def runsFrom (a : α) (n : ℕ) : List α → List (α × ℕ)
  | [] => [(a, n)]
  | b :: l => if b = a then runsFrom a (n + 1) l else (a, n) :: runsFrom b 1 l

/-- The runs of a list. -/
def runs : List α → List (α × ℕ)
  | [] => []
  | a :: l => runsFrom a 1 l

/-- The list that the runs stand for. -/
def expand (rs : List (α × ℕ)) : List α := rs.flatMap (fun r => List.replicate r.2 r.1)

/-- The open run comes first. -/
theorem runsFrom_eq_cons (l : List α) : ∀ (a : α) (n : ℕ),
    ∃ m rest, runsFrom a n l = (a, m) :: rest := by
  induction l with
  | nil => exact fun a n => ⟨n, [], rfl⟩
  | cons b l ih =>
      intro a n
      rw [runsFrom]
      split
      · exact ih a (n + 1)
      · exact ⟨n, _, rfl⟩

/-- Expanding the runs behind an open one. -/
theorem expand_runsFrom (l : List α) : ∀ (a : α) (n : ℕ),
    expand (runsFrom a n l) = List.replicate n a ++ l := by
  unfold expand
  induction l with
  | nil =>
      intro a n
      rw [runsFrom, List.flatMap_singleton, List.append_nil]
  | cons b l ih =>
      intro a n
      rw [runsFrom]
      split
      · next h => rw [ih, h, List.replicate_succ', List.append_assoc, List.singleton_append]
      · rw [List.flatMap_cons, ih]
        rfl

/-- Expanding the runs of a list gives it back. -/
theorem expand_runs (l : List α) : expand (runs l) = l := by
  cases l with
  | nil => rfl
  | cons a l => exact expand_runsFrom l a 1

/-- The runs behind an open one are maximal. -/
theorem isChain_runsFrom (l : List α) : ∀ (a : α) (n : ℕ),
    (runsFrom a n l).IsChain (fun r s => r.1 ≠ s.1) := by
  induction l with
  | nil => exact fun a n => List.isChain_singleton _
  | cons b l ih =>
      intro a n
      rw [runsFrom]
      split
      · exact ih a (n + 1)
      · next h =>
          obtain ⟨m, rest, hrest⟩ := runsFrom_eq_cons l b 1
          have hchain := ih b 1
          rw [hrest] at hchain ⊢
          exact List.isChain_cons_cons.mpr ⟨fun heq => h heq.symm, hchain⟩

/-- The runs of a list are maximal. -/
theorem isChain_runs (l : List α) : (runs l).IsChain (fun r s => r.1 ≠ s.1) := by
  cases l with
  | nil => exact List.isChain_nil
  | cons a l => exact isChain_runsFrom l a 1

/-- No run behind an open one is empty. -/
theorem runsFrom_pos (l : List α) : ∀ (a : α) {n : ℕ}, 0 < n → ∀ r ∈ runsFrom a n l, 0 < r.2 := by
  induction l with
  | nil =>
      intro a n hn r hr
      rw [List.mem_singleton.mp hr]
      exact hn
  | cons b l ih =>
      intro a n hn r hr
      rw [runsFrom] at hr
      split at hr
      · exact ih a (Nat.succ_pos n) r hr
      · rcases List.mem_cons.mp hr with rfl | hr
        · exact hn
        · exact ih b Nat.one_pos r hr

/-- No run is empty. -/
theorem runs_pos (l : List α) : ∀ r ∈ runs l, 0 < r.2 := by
  cases l with
  | nil => exact fun r hr => absurd hr List.not_mem_nil
  | cons a l => exact runsFrom_pos l a Nat.one_pos

/-- An open run takes the same item in. -/
theorem runsFrom_replicate (a : α) (m : ℕ) : ∀ (n : ℕ) (l : List α),
    runsFrom a n (List.replicate m a ++ l) = runsFrom a (n + m) l := by
  induction m with
  | zero => exact fun n l => rfl
  | succ m ih =>
      intro n l
      rw [List.replicate_succ, List.cons_append, runsFrom, if_pos rfl, ih, Nat.add_right_comm,
        Nat.add_assoc]

/-- Runs that are maximal and not empty are the runs of what they stand for. -/
theorem runs_expand {rs : List (α × ℕ)} (hchain : rs.IsChain (fun r s => r.1 ≠ s.1))
    (hpos : ∀ r ∈ rs, 0 < r.2) : runs (expand rs) = rs := by
  induction rs with
  | nil => rfl
  | cons r rs ih =>
      obtain ⟨a, n⟩ := r
      obtain ⟨k, rfl⟩ : ∃ k, n = k + 1 :=
        Nat.exists_eq_succ_of_ne_zero (hpos (a, n) List.mem_cons_self).ne'
      have hrest := ih hchain.tail (fun r hr => hpos r (List.mem_cons_of_mem _ hr))
      have hopen : runs (expand ((a, k + 1) :: rs)) = runsFrom a (k + 1) (expand rs) := by
        show runsFrom a 1 (List.replicate k a ++ expand rs) = _
        rw [runsFrom_replicate, Nat.add_comm 1 k]
      rw [hopen]
      cases rs with
      | nil => rfl
      | cons s rs =>
          obtain ⟨b, m⟩ := s
          obtain ⟨j, rfl⟩ : ∃ j, m = j + 1 :=
            Nat.exists_eq_succ_of_ne_zero
              (hpos (b, m) (List.mem_cons_of_mem _ List.mem_cons_self)).ne'
          have hne : b ≠ a := (List.isChain_cons_cons.mp hchain).1.symm
          have hclosed : runsFrom a (k + 1) (expand ((b, j + 1) :: rs))
              = (a, k + 1) :: runs (expand ((b, j + 1) :: rs)) := by
            show runsFrom a (k + 1) (b :: (List.replicate j b ++ expand rs)) = _
            rw [runsFrom, if_neg hne]
            rfl
          rw [hclosed, hrest]

end RunLengths
