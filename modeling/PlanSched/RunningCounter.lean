/-
# Tables filled at a running counter

A library for loops that walk over an array with one counter that outlives them: each pass
changes the cell at the counter and moves the counter on.  Such a loop is a checked map of the
stretch of cells it walks over, and touches nothing else.  Nothing here names the scheduler.

* `CountedArray.advance`: one pass;
* `foldlM_advance`: the loop as a map of the stretch, with all its faults;
* `foldlM_stretch`: a loop that writes the cells of a stretch one after the other and reads
  what it does not write.

Trust base: `[propext, Classical.choice, Quot.sound]`.
-/
import PlanSched.CheckedRun

namespace RunningCounter

open CheckedRun

variable {α κ : Type}

/-- An array and the counter. -/
structure CountedArray (α : Type) : Type where
  cells : List α
  counter : ℕ
  deriving DecidableEq, Repr

/-- Change the cell at the counter and move on. -/
def CountedArray.advance (st : CountedArray α) (f : α → Run α) : Run (CountedArray α) := do
  let cell ← getAt st.cells st.counter
  let cell ← f cell
  let cells ← setAt st.cells st.counter cell
  return ⟨cells, st.counter + 1⟩

variable {pre mid post : List α} {x : α}

/-- The cell behind a stretch. -/
theorem getAt_middle (pre post : List α) (x : α) : getAt (pre ++ x :: post) pre.length = .ok x := by
  rw [getAt_ok, List.getElem?_append_right le_rfl, Nat.sub_self]
  rfl

/-- A write behind a stretch. -/
theorem setAt_middle (pre post : List α) (x y : α) :
    setAt (pre ++ x :: post) pre.length y = .ok (pre ++ y :: post) := by
  rw [setAt_ok]
  refine ⟨?_, ?_⟩
  · rw [List.length_append, List.length_cons]
    omega
  · rw [List.set_append_right _ _ le_rfl, Nat.sub_self]
    rfl

/-- One pass. -/
theorem advance_eq (pre post : List α) (x : α) (f : α → Run α) :
    CountedArray.advance ⟨pre ++ x :: post, pre.length⟩ f =
      (f x).map (fun y => ⟨pre ++ y :: post, pre.length + 1⟩) := by
  unfold CountedArray.advance
  rw [getAt_middle]
  cases hy : f x with
  | error fault =>
      show (f x >>= _ : Run (CountedArray α)) = _
      rw [hy]
      rfl
  | ok y =>
      show (f x >>= _ : Run (CountedArray α)) = _
      rw [hy]
      show (setAt (pre ++ x :: post) pre.length y >>= _ : Run (CountedArray α)) = _
      rw [setAt_middle]
      rfl

/-- The loop over a stretch returns what a checked map of the stretch does, and stops where the
map stops. -/
theorem foldlM_advance (f : ℕ → α → Run α) (mid : List α) :
    ∀ (k : ℕ) (pre post : List α),
      (List.range' k mid.length).foldlM (fun (st : CountedArray α) j => st.advance (f j))
          ⟨pre ++ (mid ++ post), pre.length⟩ =
        ((mid.zipIdx k).mapM (fun e => f e.2 e.1)).map
          (fun mid' => ⟨pre ++ (mid' ++ post), pre.length + mid.length⟩) := by
  induction mid with
  | nil =>
      intro k pre post
      rfl
  | cons x mid ih =>
      intro k pre post
      rw [List.length_cons, List.range'_succ, List.foldlM_cons, List.cons_append, advance_eq,
        List.zipIdx_cons, List.mapM_cons]
      show _ = (f k x >>= _ : Run (List α)).map _
      cases hy : f k x with
      | error fault => rfl
      | ok y =>
          have hrest := ih (k + 1) (pre ++ [y]) post
          rw [List.append_assoc, List.singleton_append, List.length_append,
            List.length_singleton] at hrest
          show (List.range' (k + 1) mid.length).foldlM _
            (⟨pre ++ y :: (mid ++ post), pre.length + 1⟩ : CountedArray α) = _
          rw [hrest]
          show _ = ((mid.zipIdx (k + 1)).mapM (fun e => f e.2 e.1) >>= _ : Run (List α)).map _
          cases hys : (mid.zipIdx (k + 1)).mapM (fun e => f e.2 e.1) with
          | error fault => rfl
          | ok ys =>
              show (Except.ok ⟨pre ++ [y] ++ (ys ++ post), pre.length + 1 + mid.length⟩ :
                Run (CountedArray α))
                  = .ok ⟨pre ++ (y :: ys ++ post), pre.length + (mid.length + 1)⟩
              rw [List.append_assoc, Nat.add_assoc, Nat.add_comm 1]
              rfl

/-- A loop over the cells of a stretch that reads the array only through a key of its cells,
and writes cells with the keys they had, maps the stretch. -/
theorem foldlM_stretch (key : α → κ) {pass : List α → ℕ → Run (List α)} {g : α → α}
    (pre mid post : List α) (hkey : ∀ x ∈ mid, key (g x) = key x)
    (hpass : ∀ (front : List α) (x : α) (back : List α), mid = front ++ x :: back →
      ∀ done : List α, done.map key = front.map key →
        pass (pre ++ (done ++ x :: (back ++ post))) front.length =
          .ok (pre ++ (done ++ g x :: (back ++ post)))) :
    (List.range mid.length).foldlM pass (pre ++ (mid ++ post)) =
      .ok (pre ++ (mid.map g ++ post)) := by
  obtain ⟨cells, hrun, hcells⟩ := foldlM_range (f := pass) (s := pre ++ (mid ++ post))
    (fun m cells => cells = pre ++ ((mid.take m).map g ++ (mid.drop m ++ post))) mid.length (by
      intro m hm cells hcells
      refine ⟨_, ?_, rfl⟩
      have hsplit : mid = mid.take m ++ mid[m] :: mid.drop (m + 1) := by
        rw [← List.drop_eq_getElem_cons hm, List.take_append_drop]
      have hstep := hpass (mid.take m) mid[m] (mid.drop (m + 1)) hsplit ((mid.take m).map g) (by
        rw [List.map_map]
        refine List.map_congr_left ?_
        intro x hx
        exact hkey x (List.mem_of_mem_take hx))
      rw [List.length_take, Nat.min_eq_left hm.le] at hstep
      rw [hcells, List.drop_eq_getElem_cons hm, List.cons_append, hstep,
        List.take_succ_eq_append_getElem hm, List.map_append, List.append_assoc]
      rfl) (by rw [List.take_zero, List.drop_zero]; rfl)
  rw [hrun, hcells, List.take_length, List.drop_length]
  rfl

end RunningCounter
