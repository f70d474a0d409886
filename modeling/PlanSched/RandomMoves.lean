/-
# Whether a random move can proceed

`random_job_to_random_position` (`plan_optimization.cpp`) draws a queued job, takes it out,
rebuilds the plan, draws a place other than the old one and puts the job there.  Both draws
are `do ... while` loops around `list_get_random_item`, which takes the remainder of
`rand()` by the length of the list.  Rebuilding the plan may drop jobs in between.

Which jobs `update_job` fails for is given from outside here:

* `passJobs`, `updateOrder`, `updateOrderRetry`: what `update_sched` does to the list of
  jobs for a given pattern of failures;
* `updateWithRetry_follows`: every call of `update_sched` follows such a pattern;
* `Proceeds`: a loop takes no remainder by zero, and some number ends it;
* `movesProceed_iff`: for which lists both loops can proceed, whatever fails.
-/
import PlanSched.PreferredOrder

namespace PlanSched

open CheckedRun MoveToFront

/-! ## Patterns of failures -/

/-- The second loop of `update_sched`, with `update_job` failing for the jobs at the
addresses `fails` names: the return code and the jobs left. -/
def passJobs (fails : ℕ → Bool) : List PlanJob → ℕ × List PlanJob
  | [] => (0, [])
  | job :: rest =>
      if job.afterMove.isQueued && fails job.ptr then (2, rest)
      else ((passJobs fails rest).1, job.afterMove :: (passJobs fails rest).2)

/-- `update_sched` on the jobs of the cluster. -/
def updateOrder (time : ℤ) (fails : ℕ → Bool) (jobs : List PlanJob) : ℕ × List PlanJob :=
  passJobs fails ((moveToFront (PlanJob.preferred time) jobs).map (PlanJob.marked time))

/-- `update_sched`, and once more if it has failed. -/
def updateOrderRetry (time : ℤ) (fails₁ fails₂ : ℕ → Bool) (jobs : List PlanJob) :
    List PlanJob :=
  if (updateOrder time fails₁ jobs).1 = 2 then
    (updateOrder time fails₂ (updateOrder time fails₁ jobs).2).2
  else (updateOrder time fails₁ jobs).2

/-- A mark is no part of the place. -/
theorem afterMove_unplaced (job : PlanJob) : job.unplaced.afterMove = job.afterMove.unplaced := by
  unfold PlanJob.afterMove
  by_cases h : job.jinfo.priority = MOVED_PRIORITY
  · rw [if_pos h, if_pos (show job.unplaced.jinfo.priority = MOVED_PRIORITY from h)]
    rfl
  · rw [if_neg h, if_neg (show ¬ job.unplaced.jinfo.priority = MOVED_PRIORITY from h)]

/-- The places of the jobs have no part in a pattern. -/
theorem passJobs_unplaced (fails : ℕ → Bool) (jobs : List PlanJob) :
    passJobs fails (jobs.map PlanJob.unplaced) =
      ((passJobs fails jobs).1, (passJobs fails jobs).2.map PlanJob.unplaced) := by
  induction jobs with
  | nil => rfl
  | cons job rest ih =>
      have htest : (job.unplaced.afterMove.isQueued && fails job.unplaced.ptr) =
          (job.afterMove.isQueued && fails job.ptr) := by
        rw [afterMove_unplaced]
        rfl
      rw [List.map_cons, passJobs, passJobs, htest, ih]
      split
      · rfl
      · rw [afterMove_unplaced]
        rfl

/-- The same for a whole call. -/
theorem updateOrder_unplaced (time : ℤ) (fails : ℕ → Bool) (jobs : List PlanJob) :
    updateOrder time fails (jobs.map PlanJob.unplaced) =
      ((updateOrder time fails jobs).1, (updateOrder time fails jobs).2.map PlanJob.unplaced) := by
  unfold updateOrder
  rw [moveToFront_map, List.map_map, ← passJobs_unplaced, List.map_map]
  congr 1
  refine List.map_congr_left (fun job _ => ?_)
  show PlanJob.marked time job.unplaced = (job.marked time).unplaced
  unfold PlanJob.marked
  by_cases h : job.preferred time = true
  · rw [if_pos h, if_pos (show job.unplaced.preferred time = true from h)]
    rfl
  · rw [if_neg h, if_neg (show ¬ job.unplaced.preferred time = true from h)]

/-- Nothing fails. -/
theorem passJobs_none (jobs : List PlanJob) :
    passJobs (fun _ => false) jobs = (0, jobs.map PlanJob.afterMove) := by
  induction jobs with
  | nil => rfl
  | cons job rest ih => rw [passJobs, Bool.and_false, if_neg Bool.false_ne_true, ih, List.map_cons]

/-- One job fails: those in front of it are passed, those behind it are not reached. -/
theorem passJobs_one {job : PlanJob} {behind : List PlanJob}
    (hqueued : job.afterMove.isQueued = true) (pre : List PlanJob)
    (hnodup : ((pre ++ job :: behind).map PlanJob.ptr).Nodup) :
    passJobs (fun p => p == job.ptr) (pre ++ job :: behind) =
      (2, pre.map PlanJob.afterMove ++ behind) := by
  induction pre with
  | nil =>
      rw [List.nil_append, passJobs, hqueued, beq_self_eq_true, Bool.and_true, if_pos rfl]
      rfl
  | cons first pre ih =>
      rw [List.cons_append, List.map_cons, List.nodup_cons] at hnodup
      have hne : (first.ptr == job.ptr) = false := by
        rw [beq_eq_false_iff_ne]
        intro heq
        apply hnodup.1
        rw [heq]
        exact List.mem_map_of_mem (by simp)
      rw [List.cons_append, passJobs, hne, Bool.and_false, if_neg Bool.false_ne_true,
        ih hnodup.2]
      rfl

section follows

variable {conf : LimitsForClusters} {time : ℤ} {cluster : PlanCluster} {values : LimitsValues}

/-- The second loop up to the job that cannot be planned. -/
theorem planJobs_failed_unplaced (jobs : List PlanJob) :
    ∀ {st st' : Planning} {behind : List PlanJob},
      planJobs conf cluster values jobs st = .ok (.failed st' behind) →
      ∃ pre job, jobs = pre ++ job :: behind ∧ job.afterMove.isQueued = true ∧
        st'.done.map PlanJob.unplaced =
          st.done.map PlanJob.unplaced ++ pre.map (fun job => job.afterMove.unplaced) := by
  induction jobs with
  | nil =>
      intro st st' behind h
      rw [planJobs] at h
      cases h
  | cons job rest ih =>
      intro st st' behind h
      rw [planJobs] at h
      obtain ⟨next, hnext, h⟩ := bind_ok.mp h
      cases next with
      | none =>
          cases pure_ok.mp h
          refine ⟨[], job, rfl, ?_, (List.append_nil _).symm⟩
          by_contra hnot
          unfold planJob at hnext
          dsimp only at hnext
          rw [if_neg hnot] at hnext
          split at hnext
          · obtain ⟨limits, -, hnext⟩ := bind_ok.mp hnext
            cases pure_ok.mp hnext
          · cases pure_ok.mp hnext
      | some st₁ =>
          obtain ⟨pre, failed, rfl, hqueued, hdone⟩ := ih h
          refine ⟨job :: pre, failed, rfl, hqueued, ?_⟩
          rw [hdone, planJob_unplaced hnext, List.map_cons, List.append_assoc,
            List.singleton_append]

/-- A call of `update_sched` follows the pattern of its failures, if the jobs can be told
apart. -/
theorem updateSched_follows {plan : ClusterPlan} {result : SchedUpdate}
    (hnodup : (plan.jobs.map PlanJob.ptr).Nodup)
    (h : updateSched conf time values plan = .ok result) :
    ∃ fails, result.code = (updateOrder time fails plan.jobs).1 ∧
      result.plan.jobs.map PlanJob.unplaced =
        (updateOrder time fails plan.jobs).2.map PlanJob.unplaced := by
  unfold updateSched at h
  obtain ⟨slots, -, h⟩ := bind_ok.mp h
  obtain ⟨values', -, h⟩ := bind_ok.mp h
  obtain ⟨jobs, hmoved, h⟩ := bind_ok.mp h
  obtain ⟨ending, hending, h⟩ := bind_ok.mp h
  have hjobs : ∀ fails, updateOrder time fails plan.jobs = passJobs fails jobs := by
    intro fails
    rw [updateOrder, ← movePreferred_all hmoved]
  cases ending with
  | complete st =>
      obtain ⟨gaps, -, h⟩ := bind_ok.mp h
      obtain rfl := pure_ok.mp h
      refine ⟨fun _ => false, ?_⟩
      dsimp only
      rw [hjobs, passJobs_none, planJobs_unplaced jobs hending, List.map_nil, List.nil_append,
        List.map_map]
      exact ⟨rfl, rfl⟩
  | failed st behind =>
      obtain rfl := pure_ok.mp h
      obtain ⟨pre, job, rfl, hqueued, hdone⟩ := planJobs_failed_unplaced jobs hending
      have hperm := movePreferred_perm (f := PlanJob.ptr) (fun _ _ => rfl) _ hmoved
      refine ⟨fun p => p == job.ptr, ?_⟩
      dsimp only
      rw [hjobs, passJobs_one hqueued pre (hperm.nodup_iff.mpr hnodup), List.map_append, hdone,
        List.map_append, List.map_map]
      exact ⟨rfl, rfl⟩

/-- Both calls of `update_sched` after a change follow the patterns of their failures. -/
theorem updateWithRetry_follows {k : ℕ} {schedule schedule' : Schedule} {plan : ClusterPlan}
    (hplan : schedule.clusters[k]? = some plan) (hnodup : (plan.jobs.map PlanJob.ptr).Nodup)
    (h : updateWithRetry conf time k schedule = .ok schedule') :
    ∃ plan' fails₁ fails₂, schedule'.clusters[k]? = some plan' ∧
      plan'.jobs.map PlanJob.unplaced =
        (updateOrderRetry time fails₁ fails₂ plan.jobs).map PlanJob.unplaced := by
  unfold updateWithRetry at h
  obtain ⟨⟨code, s₁⟩, hcall, h⟩ := bind_ok.mp h
  obtain ⟨plan₀, first, hplan₀, hfirst, rfl, rfl⟩ := updateSchedAt_spec hcall
  cases hplan.symm.trans hplan₀
  obtain ⟨hlt, -⟩ := List.getElem?_eq_some_iff.mp hplan
  obtain ⟨fails₁, hcode₁, hjobs₁⟩ := updateSched_follows hnodup hfirst
  dsimp only at h
  split at h
  · next hfailed =>
      obtain ⟨⟨code', s₂⟩, hcall', h⟩ := bind_ok.mp h
      obtain rfl := pure_ok.mp h
      obtain ⟨plan₁, second, hplan₁, hsecond, rfl, rfl⟩ := updateSchedAt_spec hcall'
      rw [List.getElem?_set_self hlt, Option.some.injEq] at hplan₁
      subst hplan₁
      have hnodup₁ : (first.plan.jobs.map PlanJob.ptr).Nodup := by
        obtain ⟨kept, hperm, hsub⟩ := (updateSched_keeps hfirst).addresses
        exact hperm.nodup_iff.mp (hsub.nodup hnodup)
      obtain ⟨fails₂, -, hjobs₂⟩ := updateSched_follows hnodup₁ hsecond
      refine ⟨second.plan, fails₁, fails₂, ?_, ?_⟩
      · dsimp only
        rw [List.getElem?_set_self (by rw [List.length_set]; exact hlt)]
      · have hsame := updateOrder_unplaced time fails₂ first.plan.jobs
        rw [hjobs₁, updateOrder_unplaced] at hsame
        rw [updateOrderRetry, if_pos (hcode₁ ▸ hfailed), hjobs₂]
        exact (Prod.mk.inj hsame).2.symm
  · next hplaced =>
      obtain rfl := pure_ok.mp h
      refine ⟨first.plan, fails₁, fails₁, List.getElem?_set_self hlt, ?_⟩
      rw [updateOrderRetry, if_neg (hcode₁ ▸ hplaced), hjobs₁]

end follows

/-! ## The jobs left -/

/-- What the loops read of a job: its address and whether it is queued. -/
def PlanJob.key (job : PlanJob) : ℕ × Bool := (job.ptr, job.isQueued)

/-- The addresses in the keys. -/
theorem map_fst_key (jobs : List PlanJob) :
    (jobs.map PlanJob.key).map Prod.fst = jobs.map PlanJob.ptr := by
  rw [List.map_map]
  rfl

/-- Passing a job leaves its key. -/
theorem key_afterMove (job : PlanJob) : job.afterMove.key = job.key := by
  unfold PlanJob.afterMove
  split <;> rfl

/-- A mark leaves the key. -/
theorem key_marked (time : ℤ) (job : PlanJob) : (job.marked time).key = job.key := by
  unfold PlanJob.marked
  split <;> rfl

/-- A call drops no job, or a single one, which is queued. -/
theorem passJobs_left (fails : ℕ → Bool) (jobs : List PlanJob) :
    ((passJobs fails jobs).1 = 0 ∧ (passJobs fails jobs).2.map PlanJob.key = jobs.map PlanJob.key) ∨
    ((passJobs fails jobs).1 = 2 ∧ ∃ job : PlanJob, job.isQueued = true ∧
      (job.key :: (passJobs fails jobs).2.map PlanJob.key).Perm (jobs.map PlanJob.key)) := by
  induction jobs with
  | nil => exact Or.inl ⟨rfl, rfl⟩
  | cons job rest ih =>
      rw [passJobs]
      split
      · next hfails =>
          rw [Bool.and_eq_true] at hfails
          have hqueued : job.isQueued = true :=
            (congrArg Prod.snd (key_afterMove job)).symm.trans hfails.1
          exact Or.inr ⟨rfl, job, hqueued, List.Perm.refl _⟩
      · dsimp only
        rw [List.map_cons, List.map_cons, key_afterMove]
        rcases ih with ⟨hcode, hsame⟩ | ⟨hcode, dropped, hqueued, hperm⟩
        · exact Or.inl ⟨hcode, by rw [hsame]⟩
        · exact Or.inr ⟨hcode, dropped, hqueued, (List.Perm.swap _ _ _).trans (hperm.cons _)⟩

/-- The keys of the jobs the second loop gets. -/
theorem key_moved (time : ℤ) (jobs : List PlanJob) :
    (((moveToFront (PlanJob.preferred time) jobs).map (PlanJob.marked time)).map
      PlanJob.key).Perm (jobs.map PlanJob.key) := by
  have hkeys : ((moveToFront (PlanJob.preferred time) jobs).map (PlanJob.marked time)).map
      PlanJob.key = (moveToFront (PlanJob.preferred time) jobs).map PlanJob.key := by
    rw [List.map_map]
    refine List.map_congr_left (fun job _ => ?_)
    exact key_marked time job
  rw [hkeys]
  exact (moveToFront_perm _ _).map _

/-- The queued jobs `dropped` are gone, at most two, and the others are left. -/
structure Drops (dropped left jobs : List (ℕ × Bool)) : Prop where
  length_le : dropped.length ≤ 2
  queued : ∀ key ∈ dropped, key.2 = true
  perm : (dropped ++ left).Perm jobs

/-- Two calls drop at most two jobs. -/
theorem updateOrderRetry_drops (time : ℤ) (fails₁ fails₂ : ℕ → Bool) (jobs : List PlanJob) :
    ∃ dropped, Drops dropped ((updateOrderRetry time fails₁ fails₂ jobs).map PlanJob.key)
      (jobs.map PlanJob.key) := by
  have hmoved := key_moved time jobs
  unfold updateOrderRetry
  rcases passJobs_left fails₁ ((moveToFront (PlanJob.preferred time) jobs).map
    (PlanJob.marked time)) with ⟨hcode, hsame⟩ | ⟨hcode, job, hqueued, hperm⟩
  · rw [if_neg (by rw [updateOrder, hcode]; decide)]
    refine ⟨[], by decide, fun _ hkey => absurd hkey List.not_mem_nil, ?_⟩
    rw [List.nil_append, updateOrder, hsame]
    exact hmoved
  · rw [if_pos (by rw [updateOrder, hcode])]
    set first := (updateOrder time fails₁ jobs).2 with hfirst
    have hperm₁ : (job.key :: first.map PlanJob.key).Perm (jobs.map PlanJob.key) :=
      hperm.trans hmoved
    have hmoved₁ := key_moved time first
    rcases passJobs_left fails₂ ((moveToFront (PlanJob.preferred time) first).map
      (PlanJob.marked time)) with ⟨-, hsame⟩ | ⟨-, job', hqueued', hperm'⟩
    · refine ⟨[job.key], one_le_two, ?_, ?_⟩
      · intro key hkey
        rw [List.mem_singleton.mp hkey]
        exact hqueued
      · rw [updateOrder, hsame]
        exact (hmoved₁.cons _).trans hperm₁
    · refine ⟨[job.key, job'.key], le_rfl, ?_, ?_⟩
      · intro key hkey
        rw [List.mem_cons, List.mem_singleton] at hkey
        rcases hkey with rfl | rfl
        · exact hqueued
        · exact hqueued'
      · exact ((hperm'.trans hmoved₁).cons _).trans hperm₁

/-- Nothing fails in a call. -/
theorem updateOrder_none (time : ℤ) (jobs : List PlanJob) :
    (updateOrder time (fun _ => false) jobs).1 = 0 ∧
      ((updateOrder time (fun _ => false) jobs).2.map PlanJob.key).Perm (jobs.map PlanJob.key) := by
  unfold updateOrder
  rw [passJobs_none]
  refine ⟨rfl, ?_⟩
  dsimp only
  rw [List.map_map]
  have hkeys : PlanJob.key ∘ PlanJob.afterMove = PlanJob.key := by
    funext job
    exact key_afterMove job
  rw [hkeys]
  exact key_moved time jobs

/-- Any queued job may be the one a call drops. -/
theorem updateOrder_one (time : ℤ) {jobs : List PlanJob} {dropped : ℕ × Bool}
    {left : List (ℕ × Bool)} (hnodup : (jobs.map PlanJob.ptr).Nodup)
    (hqueued : dropped.2 = true) (hperm : (dropped :: left).Perm (jobs.map PlanJob.key)) :
    (updateOrder time (fun p => p == dropped.1) jobs).1 = 2 ∧
      ((updateOrder time (fun p => p == dropped.1) jobs).2.map PlanJob.key).Perm left := by
  have hmoved := key_moved time jobs
  unfold updateOrder
  set moved := (moveToFront (PlanJob.preferred time) jobs).map (PlanJob.marked time)
  have hmem : dropped ∈ moved.map PlanJob.key :=
    (hperm.trans hmoved.symm).mem_iff.mp List.mem_cons_self
  obtain ⟨job, hjob, rfl⟩ := List.mem_map.mp hmem
  obtain ⟨pre, behind, hsplit⟩ := List.append_of_mem hjob
  have hptrs : (moved.map PlanJob.ptr).Nodup := by
    have hfst := hmoved.map Prod.fst
    rw [map_fst_key, map_fst_key] at hfst
    exact hfst.nodup_iff.mpr hnodup
  have hafter : job.afterMove.isQueued = true :=
    (congrArg Prod.snd (key_afterMove job)).trans hqueued
  rw [hsplit] at hptrs hmoved ⊢
  have hpass : passJobs (fun p => p == job.key.1) (pre ++ job :: behind) =
      (2, pre.map PlanJob.afterMove ++ behind) := passJobs_one hafter pre hptrs
  rw [hpass]
  refine ⟨rfl, ?_⟩
  dsimp only
  have hkeys : (pre.map PlanJob.afterMove ++ behind).map PlanJob.key =
      (pre ++ behind).map PlanJob.key := by
    rw [List.map_append, List.map_append, List.map_map]
    congr 1
    refine List.map_congr_left (fun job _ => ?_)
    exact key_afterMove job
  rw [hkeys]
  have hall := hperm.trans hmoved.symm
  rw [List.map_append, List.map_cons] at hall
  have hcons := hall.trans List.perm_middle
  rw [← List.map_append] at hcons
  exact (List.perm_cons _).mp hcons.symm

/-- Any two queued jobs may be dropped. -/
theorem exists_updateOrderRetry (time : ℤ) {jobs : List PlanJob} {dropped left : List (ℕ × Bool)}
    (hnodup : (jobs.map PlanJob.ptr).Nodup) (h : Drops dropped left (jobs.map PlanJob.key)) :
    ∃ fails₁ fails₂,
      ((updateOrderRetry time fails₁ fails₂ jobs).map PlanJob.key).Perm left := by
  unfold updateOrderRetry
  obtain ⟨hlength, hqueued, hperm⟩ := h
  cases dropped with
  | nil =>
      obtain ⟨hcode, hkeys⟩ := updateOrder_none time jobs
      refine ⟨fun _ => false, fun _ => false, ?_⟩
      rw [if_neg (by rw [hcode]; decide)]
      exact hkeys.trans hperm.symm
  | cons first dropped =>
      obtain ⟨hcode, hkeys⟩ := updateOrder_one time hnodup (hqueued first List.mem_cons_self) hperm
      have hnodup₁ : ((updateOrder time (fun p => p == first.1) jobs).2.map PlanJob.ptr).Nodup := by
        have hptrs := (hperm.map Prod.fst).symm.nodup_iff.mp (by rwa [map_fst_key])
        rw [List.cons_append, List.map_cons, List.nodup_cons] at hptrs
        have hleft := hkeys.map Prod.fst
        rw [map_fst_key] at hleft
        exact hleft.nodup_iff.mpr hptrs.2
      cases dropped with
      | nil =>
          obtain ⟨-, hkeys₁⟩ :=
            updateOrder_none time (updateOrder time (fun p => p == first.1) jobs).2
          refine ⟨fun p => p == first.1, fun _ => false, ?_⟩
          rw [if_pos hcode]
          exact hkeys₁.trans hkeys
      | cons second dropped =>
          obtain rfl : dropped = [] := by
            rw [List.length_cons, List.length_cons] at hlength
            exact List.length_eq_zero_iff.mp (by omega)
          obtain ⟨-, hkeys₁⟩ := updateOrder_one time hnodup₁
            (hqueued second (List.mem_cons_of_mem _ List.mem_cons_self)) hkeys.symm
          refine ⟨fun p => p == first.1, fun p => p == second.1, ?_⟩
          rw [if_pos hcode]
          exact hkeys₁

/-! ## The loops -/

/-- The loop condition of the first draw: there is no job, or it is not queued. -/
def notQueued : Option PlanJob → Bool
  | none => true
  | some job => !job.isQueued

/-- The loop condition of the second draw: the job in front of the old place is drawn. -/
def oldPlace (predeccessor : Option ℕ) (job : Option PlanJob) : Bool :=
  job.map PlanJob.ptr == predeccessor

/-- A `do ... while` around `list_get_random_item` can proceed: no remainder by zero is
taken, and some number ends it. -/
structure Proceeds (jobs : List PlanJob) (countLimit : ℤ) (again : Option PlanJob → Bool) :
    Prop where
  no_zero : ∀ rand, listGetRandomItem jobs countLimit rand ≠ .error .divByZero
  ends : ∃ rand drawn, drawItem jobs countLimit again [rand] = .ok drawn

/-- One pass of the loop. -/
theorem drawItem_one {jobs : List PlanJob} {countLimit : ℤ} {again : Option PlanJob → Bool}
    {rand : ℕ} {drawn : Option ℕ × List ℕ} :
    drawItem jobs countLimit again [rand] = .ok drawn ↔
      drawn.2 = [] ∧ listGetRandomItem jobs countLimit rand = .ok drawn.1 ∧
        again (drawn.1.bind (fun i => jobs[i]?)) = false := by
  rw [drawItem, bind_ok]
  constructor
  · rintro ⟨position, hposition, h⟩
    split at h
    · rw [drawItem] at h
      cases h
    · next hagain =>
        obtain rfl := pure_ok.mp h
        exact ⟨rfl, hposition, Bool.eq_false_iff.mpr hagain⟩
  · rintro ⟨hrands, hposition, hagain⟩
    refine ⟨drawn.1, hposition, ?_⟩
    rw [if_neg (Bool.eq_false_iff.mp hagain), pure_ok, ← hrands]

/-- When a loop can proceed. -/
theorem proceeds_iff {jobs : List PlanJob} {countLimit : ℤ} {again : Option PlanJob → Bool} :
    Proceeds jobs countLimit again ↔
      ((jobs.length : ℤ) < countLimit ∧ again none = false) ∨
      (countLimit ≤ (jobs.length : ℤ) ∧ ∃ job ∈ jobs, again (some job) = false) := by
  -- below the limit nothing is drawn, and without jobs the draw fails
  by_cases hfew : (jobs.length : ℤ) < countLimit
  · have hdraw : ∀ rand, listGetRandomItem jobs countLimit rand = .ok none := by
      intro rand
      rw [listGetRandomItem, if_pos hfew]
    constructor
    · rintro ⟨-, rand, drawn, hends⟩
      obtain ⟨-, hposition, hagain⟩ := drawItem_one.mp hends
      rw [hdraw] at hposition
      rw [← Except.ok.inj hposition] at hagain
      exact Or.inl ⟨hfew, hagain⟩
    · rintro (⟨-, hagain⟩ | ⟨henough, -⟩)
      · refine ⟨?_, 0, (none, []), drawItem_one.mpr ⟨rfl, hdraw 0, hagain⟩⟩
        intro rand
        rw [hdraw]
        intro h
        cases h
      · omega
  · by_cases hnil : jobs.length = 0
    · constructor
      · rintro ⟨hzero, -⟩
        refine absurd ?_ (hzero 0)
        rw [listGetRandomItem, if_neg hfew, if_pos hnil]
      · rintro (⟨hlt, -⟩ | ⟨-, job, hjob, -⟩)
        · exact absurd hlt hfew
        · rw [List.length_eq_zero_iff.mp hnil] at hjob
          cases hjob
    · have hdraw : ∀ rand, listGetRandomItem jobs countLimit rand =
          .ok (some (rand % jobs.length)) := by
        intro rand
        rw [listGetRandomItem, if_neg hfew, if_neg hnil]
      constructor
      · rintro ⟨-, rand, drawn, hends⟩
        obtain ⟨-, hposition, hagain⟩ := drawItem_one.mp hends
        rw [hdraw] at hposition
        have hlt : rand % jobs.length < jobs.length := Nat.mod_lt _ (by omega)
        rw [← Except.ok.inj hposition, Option.bind_some, List.getElem?_eq_getElem hlt] at hagain
        exact Or.inr ⟨by omega, _, List.getElem_mem hlt, hagain⟩
      · rintro (⟨hlt, -⟩ | ⟨-, job, hjob, hagain⟩)
        · exact absurd hlt hfew
        · obtain ⟨i, hi⟩ := List.mem_iff_getElem?.mp hjob
          obtain ⟨hlt, -⟩ := List.getElem?_eq_some_iff.mp hi
          refine ⟨?_, i, (some i, []), drawItem_one.mpr ⟨rfl, ?_, ?_⟩⟩
          · intro rand
            rw [hdraw]
            intro h
            cases h
          · rw [hdraw, Nat.mod_eq_of_lt hlt]
          · rw [Option.bind_some, hi]
            exact hagain

section draws

variable {optimMinimalQueued : ℤ} {k : ℕ} {schedule : Schedule} {plan : ClusterPlan}

/-- The job `job` between `pre` and `post` was taken out. -/
structure TakenFrom (k : ℕ) (pre post : List PlanJob) (taken : TakenJob) : Prop where
  predeccessor_eq : taken.predeccessor = pre.getLast?.map PlanJob.ptr
  left : ∃ left, taken.schedule.clusters[k]? = some left ∧ left.jobs = pre ++ post

/-- What is drawn first is a queued job of a list that is long enough. -/
theorem takeRandomJob_split {rands : List ℕ} {taken : TakenJob}
    (hplan : schedule.clusters[k]? = some plan)
    (h : takeRandomJob optimMinimalQueued k rands schedule = .ok taken) :
    ∃ pre job post, plan.jobs = pre ++ job :: post ∧ job.isQueued = true ∧
      TakenFrom k pre post taken := by
  obtain ⟨position, hjob, hqueued, hpredeccessor, hleft⟩ := takeRandomJob_spec hplan h
  obtain ⟨hlt, hget⟩ := List.getElem?_eq_some_iff.mp hjob
  refine ⟨plan.jobs.take position, taken.job, plan.jobs.drop (position + 1), ?_, hqueued,
    hpredeccessor, _, hleft, ?_⟩
  · rw [← hget, ← List.drop_eq_getElem_cons hlt, List.take_append_drop]
  · exact List.eraseIdx_eq_take_drop_succ _ _

/-- Every queued job of a list that is long enough can be drawn. -/
theorem exists_takeRandomJob {pre post : List PlanJob} {job : PlanJob}
    (hplan : schedule.clusters[k]? = some plan) (hjobs : plan.jobs = pre ++ job :: post)
    (hqueued : job.isQueued = true) (henough : optimMinimalQueued ≤ (plan.jobs.length : ℤ)) :
    ∃ rands taken, takeRandomJob optimMinimalQueued k rands schedule = .ok taken ∧
      TakenFrom k pre post taken := by
  have hget : plan.jobs[pre.length]? = some job := by
    rw [hjobs, List.getElem?_append_right le_rfl, Nat.sub_self]
    rfl
  obtain ⟨hlt, -⟩ := List.getElem?_eq_some_iff.mp hget
  -- the position of the job, as the random number
  have hdraw : drawItem plan.jobs optimMinimalQueued notQueued [pre.length] =
      .ok (some pre.length, []) := by
    refine drawItem_one.mpr ⟨rfl, ?_, ?_⟩
    · rw [listGetRandomItem, if_neg (by omega), if_neg (by omega), Nat.mod_eq_of_lt hlt]
    · rw [Option.bind_some, hget, notQueued, hqueued]
      rfl
  refine ⟨[pre.length], ⟨job, (plan.jobs.take pre.length).getLast?.map PlanJob.ptr,
    schedule.setJobs k (plan.jobs.eraseIdx pre.length), []⟩, ?_, ?_, ?_⟩
  · unfold takeRandomJob
    rw [bind_ok]
    refine ⟨plan, getAt_ok.mpr hplan, ?_⟩
    rw [bind_ok]
    refine ⟨(some pre.length, []), hdraw, ?_⟩
    dsimp only
    rw [bind_ok]
    refine ⟨pre.length, deref_ok.mpr rfl, ?_⟩
    rw [bind_ok]
    refine ⟨(job, schedule.setJobs k (plan.jobs.eraseIdx pre.length)), ?_, rfl⟩
    unfold takeOutJob
    rw [bind_ok]
    refine ⟨plan, getAt_ok.mpr hplan, ?_⟩
    rw [bind_ok]
    exact ⟨job, getAt_ok.mpr hget, rfl⟩
  · dsimp only
    rw [hjobs, List.take_left]
  · refine ⟨_, Schedule.setJobs_self hplan _, ?_⟩
    dsimp only
    rw [hjobs, List.eraseIdx_append_of_length_le le_rfl, Nat.sub_self]
    rfl

end draws

/-! ## The second draw -/

/-- There is a place to draw other than behind `predeccessor`, or `NULL` is one. -/
def PlaceLeft (optimMinimalQueued : ℤ) (predeccessor : Option ℕ) (left : List (ℕ × Bool)) :
    Prop :=
  ((left.length : ℤ) < optimMinimalQueued - 1 ∧ predeccessor ≠ none) ∨
    (optimMinimalQueued - 1 ≤ (left.length : ℤ) ∧ ∃ key ∈ left, some key.1 ≠ predeccessor)

/-- The order of the jobs has no part in it. -/
theorem PlaceLeft.perm {optimMinimalQueued : ℤ} {predeccessor : Option ℕ}
    {left left' : List (ℕ × Bool)} (hperm : left.Perm left')
    (h : PlaceLeft optimMinimalQueued predeccessor left) :
    PlaceLeft optimMinimalQueued predeccessor left' := by
  rcases h with ⟨hfew, hnone⟩ | ⟨henough, key, hkey, hne⟩
  · exact Or.inl ⟨by rw [← hperm.length_eq]; exact hfew, hnone⟩
  · exact Or.inr ⟨by rw [← hperm.length_eq]; exact henough, key, hperm.mem_iff.mp hkey, hne⟩

/-- The second draw can proceed exactly if there is such a place. -/
theorem proceeds_oldPlace_iff {optimMinimalQueued : ℤ} {predeccessor : Option ℕ}
    {jobs : List PlanJob} :
    Proceeds jobs (optimMinimalQueued - 1) (oldPlace predeccessor) ↔
      PlaceLeft optimMinimalQueued predeccessor (jobs.map PlanJob.key) := by
  have hagain : ∀ job, oldPlace predeccessor job = false ↔ job.map PlanJob.ptr ≠ predeccessor := by
    intro job
    exact beq_eq_false_iff_ne
  rw [proceeds_iff, PlaceLeft, List.length_map, hagain]
  refine or_congr (and_congr_right (fun _ => ne_comm)) (and_congr_right (fun _ => ?_))
  constructor
  · rintro ⟨job, hjob, hne⟩
    exact ⟨job.key, List.mem_map_of_mem hjob, (hagain (some job)).mp hne⟩
  · rintro ⟨key, hkey, hne⟩
    obtain ⟨job, hjob, rfl⟩ := List.mem_map.mp hkey
    exact ⟨job, hjob, (hagain (some job)).mpr hne⟩

/-- Whatever fails, there is a place left. -/
def AlwaysPlaceLeft (optimMinimalQueued : ℤ) (predeccessor : Option ℕ)
    (jobs : List (ℕ × Bool)) : Prop :=
  ∀ dropped left, Drops dropped left jobs → PlaceLeft optimMinimalQueued predeccessor left

/-- The second draw can proceed after every pattern of failures. -/
theorem always_proceeds_iff {optimMinimalQueued : ℤ} {predeccessor : Option ℕ} (time : ℤ)
    {jobs : List PlanJob} (hnodup : (jobs.map PlanJob.ptr).Nodup) :
    (∀ fails₁ fails₂, Proceeds (updateOrderRetry time fails₁ fails₂ jobs) (optimMinimalQueued - 1)
        (oldPlace predeccessor)) ↔
      AlwaysPlaceLeft optimMinimalQueued predeccessor (jobs.map PlanJob.key) := by
  constructor
  · intro h dropped left hdrops
    obtain ⟨fails₁, fails₂, hperm⟩ := exists_updateOrderRetry time hnodup hdrops
    exact (proceeds_oldPlace_iff.mp (h fails₁ fails₂)).perm hperm
  · intro h fails₁ fails₂
    obtain ⟨dropped, hdrops⟩ := updateOrderRetry_drops time fails₁ fails₂ jobs
    exact proceeds_oldPlace_iff.mpr (h dropped _ hdrops)

/-- After the first job was taken out, the list has to keep its minimal length without the
jobs that may fail. -/
theorem alwaysPlaceLeft_none_iff {optimMinimalQueued : ℤ} {jobs : List (ℕ × Bool)} :
    AlwaysPlaceLeft optimMinimalQueued none jobs ↔
      max optimMinimalQueued 2 + min 2 (jobs.countP Prod.snd) ≤ (jobs.length : ℤ) + 1 := by
  have hleft : ∀ left : List (ℕ × Bool), PlaceLeft optimMinimalQueued none left ↔
      max optimMinimalQueued 2 ≤ (left.length : ℤ) + 1 := by
    intro left
    unfold PlaceLeft
    cases left with
    | nil =>
        simp
    | cons key left =>
        simp
        omega
  constructor
  · intro h
    have hdrops : Drops ((jobs.filter Prod.snd).take 2)
        ((jobs.filter Prod.snd).drop 2 ++ jobs.filter (fun key => !key.2)) jobs := by
      refine ⟨List.length_take_le _ _, ?_, ?_⟩
      · intro key hkey
        exact (List.mem_filter.mp (List.mem_of_mem_take hkey)).2
      · rw [← List.append_assoc, List.take_append_drop]
        exact List.filter_append_perm _ _
    have hlen := hdrops.perm.length_eq
    rw [List.length_append, List.length_take, ← List.countP_eq_length_filter] at hlen
    have := (hleft _).mp (h _ _ hdrops)
    omega
  · intro h dropped left hdrops
    have hlen := hdrops.perm.length_eq
    have hcount := hdrops.perm.countP_eq Prod.snd
    have hall : dropped.countP Prod.snd = dropped.length := List.countP_eq_length.mpr hdrops.queued
    rw [List.countP_append, hall] at hcount
    rw [List.length_append] at hlen
    have hle := hdrops.length_le
    rw [hleft]
    omega

/-- After a job behind `key` was taken out, something else than that one job has to be
left. -/
theorem alwaysPlaceLeft_some_iff {optimMinimalQueued : ℤ} {key : ℕ × Bool}
    {pre post : List (ℕ × Bool)} (hnodup : ((pre ++ key :: post).map Prod.fst).Nodup) :
    AlwaysPlaceLeft optimMinimalQueued (some key.1) (pre ++ key :: post) ↔
      ((∀ other ∈ pre ++ post, other.2 = true) →
        2 < optimMinimalQueued ∨ 2 < (pre ++ post).length) := by
  constructor
  · intro h hqueued
    by_contra hsmall
    rw [not_or] at hsmall
    -- everything but the predecessor is dropped
    have hdrops : Drops (pre ++ post) [key] (pre ++ key :: post) :=
      ⟨by omega, hqueued, (List.perm_append_singleton _ _).trans List.perm_middle.symm⟩
    rcases h _ _ hdrops with ⟨hfew, -⟩ | ⟨-, other, hother, hne⟩
    · rw [List.length_singleton] at hfew
      omega
    · rw [List.mem_singleton.mp hother] at hne
      exact hne rfl
  · intro h dropped left hdrops
    by_contra hno
    unfold PlaceLeft at hno
    rw [not_or, not_and, not_and] at hno
    have henough : optimMinimalQueued - 1 ≤ (left.length : ℤ) := by
      by_contra hfew
      exact hno.1 (by omega) (Option.some_ne_none _)
    have honly : ∀ other ∈ left, other = key := by
      intro other hother
      have hmem : other ∈ pre ++ key :: post :=
        hdrops.perm.mem_iff.mp (List.mem_append_right _ hother)
      refine List.inj_on_of_nodup_map hnodup hmem (by simp) ?_
      by_contra hne
      exact hno.2 henough ⟨other, hother, fun heq => hne (Option.some.inj heq)⟩
    have hperm : (dropped ++ left).Perm (key :: (pre ++ post)) :=
      hdrops.perm.trans List.perm_middle
    have hlen := hperm.length_eq
    have hle := hdrops.length_le
    have hleft : left.length ≤ 1 := by
      have hnodup' : left.Nodup := by
        have hall := hdrops.perm.nodup_iff.mpr (List.Nodup.of_map _ hnodup)
        exact (List.nodup_append.mp hall).2.1
      rwa [List.eq_replicate_of_mem honly, List.nodup_replicate] at hnodup'
    have hqueued : ∀ other ∈ pre ++ post, other.2 = true := by
      intro other hother
      have hmem : other ∈ dropped ++ left := hperm.mem_iff.mpr (List.mem_cons_of_mem _ hother)
      rcases List.mem_append.mp hmem with hmem | hmem
      · exact hdrops.queued other hmem
      · rw [honly other hmem] at hother
        have hall := List.perm_middle.nodup_iff.mp (List.Nodup.of_map _ hnodup)
        exact absurd hother (List.nodup_cons.mp hall).1
    rw [List.length_append, List.length_cons] at hlen
    have := h hqueued
    omega

/-! ## The moves -/

/-- Both draws of `random_job_to_random_position` can proceed, if there are enough queued
jobs for it: the first one, and the second one whatever job was drawn, and whatever jobs
`update_job` fails for in between. -/
def MovesProceed (time optimMinimalQueued : ℤ) (k : ℕ) (schedule : Schedule) : Prop :=
  ∀ plan, schedule.clusters[k]? = some plan →
    optimMinimalQueued ≤ (plan.cluster.numQueuedJobs : ℤ) →
    Proceeds plan.jobs optimMinimalQueued notQueued ∧
    ∀ rands taken left fails₁ fails₂,
      takeRandomJob optimMinimalQueued k rands schedule = .ok taken →
      taken.schedule.clusters[k]? = some left →
      Proceeds (updateOrderRetry time fails₁ fails₂ left.jobs) (optimMinimalQueued - 1)
        (oldPlace taken.predeccessor)

/-- The list is long enough for a move: it has a queued job and the minimal length; if its
first job is queued, it has that length without two more queued jobs; and a job and the one
in front of it are not all there is but two queued jobs, unless the minimal length is more
than two. -/
structure MovesSafe (optimMinimalQueued : ℤ) (jobs : List PlanJob) : Prop where
  queued : ∃ job ∈ jobs, job.isQueued = true
  enough : optimMinimalQueued ≤ (jobs.length : ℤ)
  first : ∀ job rest, jobs = job :: rest → job.isQueued = true →
    max optimMinimalQueued 2 + min 2 (rest.countP PlanJob.isQueued) ≤ (jobs.length : ℤ)
  later : ∀ pre predeccessor job post, jobs = pre ++ predeccessor :: job :: post →
    job.isQueued = true → (∀ other ∈ pre ++ post, other.isQueued = true) →
    2 < optimMinimalQueued ∨ 2 < (pre ++ post).length

section moves

variable {conf : LimitsForClusters} {time optimMinimalQueued : ℤ} {k : ℕ} {schedule : Schedule}
  {plan : ClusterPlan}

/-- The first draw. -/
theorem proceeds_notQueued_iff {jobs : List PlanJob} :
    Proceeds jobs optimMinimalQueued notQueued ↔
      optimMinimalQueued ≤ (jobs.length : ℤ) ∧ ∃ job ∈ jobs, job.isQueued = true := by
  rw [proceeds_iff]
  constructor
  · rintro (⟨-, hnone⟩ | ⟨henough, job, hjob, hagain⟩)
    · cases hnone
    · exact ⟨henough, job, hjob, by simpa [notQueued] using hagain⟩
  · rintro ⟨henough, job, hjob, hqueued⟩
    exact Or.inr ⟨henough, job, hjob, by simp [notQueued, hqueued]⟩

variable (time) in
/-- The second draw, after the job between `pre` and `post` was taken out. -/
theorem second_proceeds_iff {pre post : List PlanJob} {taken : TakenJob}
    (hnodup : ((pre ++ post).map PlanJob.ptr).Nodup) (htaken : TakenFrom k pre post taken) :
    (∀ left fails₁ fails₂, taken.schedule.clusters[k]? = some left →
      Proceeds (updateOrderRetry time fails₁ fails₂ left.jobs) (optimMinimalQueued - 1)
        (oldPlace taken.predeccessor)) ↔
      AlwaysPlaceLeft optimMinimalQueued (pre.getLast?.map PlanJob.ptr)
        ((pre ++ post).map PlanJob.key) := by
  obtain ⟨left, hleft, hjobs⟩ := htaken.left
  rw [← always_proceeds_iff time hnodup, htaken.predeccessor_eq, ← hjobs]
  constructor
  · intro h fails₁ fails₂
    exact h left fails₁ fails₂ hleft
  · intro h left' fails₁ fails₂ hleft'
    cases hleft.symm.trans hleft'
    exact h fails₁ fails₂

/-- The place of the first job. -/
theorem alwaysPlaceLeft_first_iff {rest : List PlanJob} :
    AlwaysPlaceLeft optimMinimalQueued none (rest.map PlanJob.key) ↔
      max optimMinimalQueued 2 + min 2 (rest.countP PlanJob.isQueued) ≤ (rest.length : ℤ) + 1 := by
  have hcount : (rest.map PlanJob.key).countP Prod.snd = rest.countP PlanJob.isQueued := by
    rw [List.countP_map]
    rfl
  rw [alwaysPlaceLeft_none_iff, hcount, List.length_map]

/-- The place of a later job, behind `predeccessor`. -/
theorem alwaysPlaceLeft_later_iff {pre post : List PlanJob} {predeccessor : PlanJob}
    (hnodup : ((pre ++ predeccessor :: post).map PlanJob.ptr).Nodup) :
    AlwaysPlaceLeft optimMinimalQueued (some predeccessor.ptr)
        ((pre ++ predeccessor :: post).map PlanJob.key) ↔
      ((∀ other ∈ pre ++ post, other.isQueued = true) →
        2 < optimMinimalQueued ∨ 2 < (pre ++ post).length) := by
  rw [← map_fst_key, List.map_append, List.map_cons] at hnodup
  rw [List.map_append, List.map_cons]
  refine (alwaysPlaceLeft_some_iff hnodup).trans ?_
  rw [← List.map_append, List.length_map, List.forall_mem_map]
  rfl

/-- The list without the job that was taken out. -/
theorem nodup_taken {jobs pre post : List PlanJob} {job : PlanJob}
    (hnodup : (jobs.map PlanJob.ptr).Nodup) (hjobs : jobs = pre ++ job :: post) :
    ((pre ++ post).map PlanJob.ptr).Nodup := by
  rw [hjobs] at hnodup
  refine hnodup.sublist (List.Sublist.map _ ?_)
  exact (List.sublist_cons_self _ _).append_left _

/-- Where the draws can proceed, the list is long enough. -/
theorem MovesProceed.safe (h : MovesProceed time optimMinimalQueued k schedule)
    (hplan : schedule.clusters[k]? = some plan) (hnodup : (plan.jobs.map PlanJob.ptr).Nodup)
    (hmany : optimMinimalQueued ≤ (plan.cluster.numQueuedJobs : ℤ)) :
    MovesSafe optimMinimalQueued plan.jobs := by
  obtain ⟨hfirst, hsecond⟩ := h plan hplan hmany
  obtain ⟨henough, hqueued⟩ := proceeds_notQueued_iff.mp hfirst
  have hdraws : ∀ pre job post, plan.jobs = pre ++ job :: post → job.isQueued = true →
      AlwaysPlaceLeft optimMinimalQueued (pre.getLast?.map PlanJob.ptr)
        ((pre ++ post).map PlanJob.key) := by
    intro pre job post hjobs hjob
    obtain ⟨rands, taken, hrun, htaken⟩ := exists_takeRandomJob hplan hjobs hjob henough
    rw [← second_proceeds_iff time (nodup_taken hnodup hjobs) htaken]
    intro left fails₁ fails₂ hleft
    exact hsecond rands taken left fails₁ fails₂ hrun hleft
  refine ⟨hqueued, henough, ?_, ?_⟩
  · intro job rest hjobs hjob
    have hplace := alwaysPlaceLeft_first_iff.mp (hdraws [] job rest hjobs hjob)
    rwa [hjobs, List.length_cons, Nat.cast_succ]
  · intro pre predeccessor job post hjobs hjob
    have hjobs' : plan.jobs = (pre ++ [predeccessor]) ++ job :: post := by
      rw [hjobs, List.append_assoc, List.singleton_append]
    have hkeys := nodup_taken hnodup hjobs'
    have hplace := hdraws _ job post hjobs' hjob
    rw [List.getLast?_concat, List.append_assoc, List.singleton_append] at hplace
    rw [List.append_assoc, List.singleton_append] at hkeys
    exact (alwaysPlaceLeft_later_iff hkeys).mp hplace

/-- In a list that is long enough the second draw can proceed, whatever was drawn. -/
theorem MovesSafe.alwaysPlaceLeft {jobs pre post : List PlanJob} {job : PlanJob}
    (hsafe : MovesSafe optimMinimalQueued jobs) (hnodup : (jobs.map PlanJob.ptr).Nodup)
    (hjobs : jobs = pre ++ job :: post) (hjob : job.isQueued = true) :
    AlwaysPlaceLeft optimMinimalQueued (pre.getLast?.map PlanJob.ptr)
      ((pre ++ post).map PlanJob.key) := by
  have hkeys := nodup_taken hnodup hjobs
  -- whether the drawn job is the first one decides what `NULL` means
  rcases List.eq_nil_or_concat pre with rfl | ⟨front, predeccessor, rfl⟩
  · have hfirst := hsafe.first job post hjobs hjob
    rw [hjobs, List.nil_append, List.length_cons, Nat.cast_succ] at hfirst
    exact alwaysPlaceLeft_first_iff.mpr hfirst
  · rw [List.concat_eq_append, List.append_assoc, List.singleton_append] at hjobs hkeys ⊢
    rw [List.getLast?_concat]
    exact (alwaysPlaceLeft_later_iff hkeys).mpr
      (hsafe.later front predeccessor job post hjobs hjob)

/-- **Both draws can proceed, whatever is drawn and whatever fails, exactly if the list is
long enough.** -/
theorem movesProceed_iff (time : ℤ) (hplan : schedule.clusters[k]? = some plan)
    (hnodup : (plan.jobs.map PlanJob.ptr).Nodup) :
    MovesProceed time optimMinimalQueued k schedule ↔
      (plan.cluster.numQueuedJobs : ℤ) < optimMinimalQueued ∨
        MovesSafe optimMinimalQueued plan.jobs := by
  constructor
  · intro h
    by_cases hfew : (plan.cluster.numQueuedJobs : ℤ) < optimMinimalQueued
    · exact Or.inl hfew
    · exact Or.inr (h.safe hplan hnodup (by omega))
  · intro h plan' hplan' henough
    cases hplan.symm.trans hplan'
    rcases h with hfew | hsafe
    · omega
    refine ⟨proceeds_notQueued_iff.mpr ⟨hsafe.enough, hsafe.queued⟩, ?_⟩
    intro rands taken left fails₁ fails₂ hrun hleft
    obtain ⟨pre, job, post, hjobs, hjob, htaken⟩ := takeRandomJob_split hplan hrun
    exact (second_proceeds_iff time (nodup_taken hnodup hjobs) htaken).mpr
      (hsafe.alwaysPlaceLeft hnodup hjobs hjob) left fails₁ fails₂ hleft

/-- After the calls of `update_sched` in a move the second loop can proceed as well. -/
theorem randomMove_proceeds {rands : List ℕ} {taken : TakenJob} {planned : Schedule}
    (hplan : schedule.clusters[k]? = some plan) (hnodup : (plan.jobs.map PlanJob.ptr).Nodup)
    (hsafe : MovesSafe optimMinimalQueued plan.jobs)
    (hrun : takeRandomJob optimMinimalQueued k rands schedule = .ok taken)
    (hplanned : updateWithRetry conf time k taken.schedule = .ok planned) :
    ∃ left, planned.clusters[k]? = some left ∧
      Proceeds left.jobs (optimMinimalQueued - 1) (oldPlace taken.predeccessor) := by
  obtain ⟨pre, job, post, hjobs, hjob, htaken⟩ := takeRandomJob_split hplan hrun
  obtain ⟨left, hleft, hleftJobs⟩ := htaken.left
  have hkeys := nodup_taken hnodup hjobs
  have hproceeds := (second_proceeds_iff time hkeys htaken).mpr
    (hsafe.alwaysPlaceLeft hnodup hjobs hjob) left
  rw [← hleftJobs] at hkeys
  obtain ⟨plan', fails₁, fails₂, hplan', hsame⟩ := updateWithRetry_follows hleft hkeys hplanned
  refine ⟨plan', hplan', ?_⟩
  have hproceeds := hproceeds fails₁ fails₂ hleft
  have hmap := congrArg (List.map PlanJob.key) hsame
  rw [List.map_map, List.map_map,
    show PlanJob.key ∘ PlanJob.unplaced = PlanJob.key from rfl] at hmap
  rw [proceeds_oldPlace_iff] at hproceeds ⊢
  rwa [hmap]

end moves

/-- A running job and three queued ones, at least three of them: a move can proceed. -/
theorem three_jobs_behind_running :
    MovesProceed 1000 3 0
      ⟨[⟨⟨"zubat", [plainNode "zubat1" 2 8], 2, 1, 3⟩,
        [PlanJob.filled 4 (runningJob 900 300) 1 1 (by decide) 0 300 0 900,
          queuedJob 1 1 1 (by decide) 1 100, queuedJob 2 1 1 (by decide) 1 100,
          queuedJob 3 1 1 (by decide) 1 100], [], []⟩], ⟨[], []⟩⟩ := by
  refine (movesProceed_iff 1000 rfl (by decide)).mpr (Or.inr ⟨?_, by decide, ?_, ?_⟩)
  · exact ⟨queuedJob 1 1 1 (by decide) 1 100, by decide, by decide⟩
  · intro job rest hjobs hjob
    cases hjobs
    cases hjob
  · intro pre predeccessor job post _ _ _
    exact Or.inl (by decide)

/-- Two queued jobs, at least two of them: once the second one was drawn, only the first one
is left, and to put the job behind it is not another place. -/
theorem two_jobs_draw_forever :
    ∃ result, updateSched oneClass 1000 ⟨[], []⟩
        (orderPlan [queuedJob 1 1 1 (by decide) 1 100, queuedJob 2 1 1 (by decide) 1 100])
        = .ok result ∧ result.code = 0 ∧ result.plan.cluster.numQueuedJobs = 2 ∧
      ¬ MovesProceed 1000 2 0 ⟨[result.plan], result.values⟩ := by
  have hrun : (updateSched oneClass 1000 ⟨[], []⟩
      (orderPlan [queuedJob 1 1 1 (by decide) 1 100, queuedJob 2 1 1 (by decide) 1 100])
      >>= fun result => pure (result.code, result.plan.cluster.numQueuedJobs,
        result.plan.jobs.map PlanJob.key))
      = .ok (0, 2, [(1, true), (2, true)]) := by
    decide +kernel
  obtain ⟨result, hresult, hrun⟩ := bind_ok.mp hrun
  simp only [pure_ok, Prod.mk.injEq] at hrun
  obtain ⟨hcode, hcount, hkeys⟩ := hrun
  refine ⟨result, hresult, hcode, hcount, ?_⟩
  intro h
  have hnodup : (result.plan.jobs.map PlanJob.ptr).Nodup := by
    rw [← map_fst_key, hkeys]
    decide
  have hsafe := h.safe rfl hnodup (by rw [hcount]; decide)
  obtain ⟨first, rest, hjobs, -, hrest⟩ := List.map_eq_cons_iff.mp hkeys
  obtain ⟨second, rest', rfl, hsecond, hnil⟩ := List.map_eq_cons_iff.mp hrest
  rw [List.map_eq_nil_iff] at hnil
  subst hnil
  have hqueued : second.isQueued = true := congrArg Prod.snd hsecond
  have hmore := hsafe.later [] first second [] hjobs hqueued (fun _ h => absurd h List.not_mem_nil)
  exact absurd hmore (by decide)

end PlanSched
