/-
# The order of preferred jobs

The first loop of `update_sched` (`plan_operations.cpp`) takes the preferred jobs to the
front of the list, each one before those taken earlier; the mark that keeps it from taking
a job twice is turned into the preferred priority by the second loop.

* `movePreferred_eq`: the first loop is `moveToFront`, with the moved jobs marked;
* `updateSched_unplaced`: planning changes nothing else that the first loop reads;
* `updateSched_order_iff`: a second call leaves the order of the first exactly if it
  moves at most one job, and that one is in front already.
-/
import PlanSched.MoveToFront
import PlanSched.Rollback

namespace PlanSched

open CheckedRun MoveToFront

/-! ## The first loop -/

/-- The first loop takes the preferred jobs behind the cursor to the front. -/
theorem movePreferred_eq {time : ℤ} (fuel : ℕ) : ∀ {front rest jobs : List PlanJob},
    (∀ job ∈ front, job.preferred time = false) →
      movePreferred time fuel front rest = .ok jobs →
      jobs = ((rest.filter (PlanJob.preferred time)).reverse.map
          (fun job => job.setPriority MOVED_PRIORITY)) ++
        (front ++ rest.filter (fun job => !job.preferred time)) := by
  induction fuel with
  | zero =>
      intro front rest jobs _ h
      rw [movePreferred] at h
      cases h
  | succ fuel ih =>
      intro front rest jobs hfront h
      rw [movePreferred] at h
      have hpassed : ∀ job ∈ rest.takeWhile (fun job => !job.preferred time),
          job.preferred time = false := by
        intro job hjob
        simpa using List.mem_takeWhile_imp hjob
      have hall := List.takeWhile_append_dropWhile (p := fun job => !job.preferred time) (l := rest)
      split at h
      · next hdrop =>
          cases h
          rw [hdrop, List.append_nil] at hall
          rw [hall] at hpassed
          rw [(filter_of_none hpassed).1, (filter_of_none hpassed).2]
          rfl
      · next job behind hdrop =>
          obtain ⟨hsplit, hjob⟩ := dropWhile_preferred hdrop
          generalize rest.takeWhile (fun job => !job.preferred time) = passed at h hsplit hpassed
          subst hsplit
          -- what is in front of the cursor is not preferred
          have hnot : ∀ j ∈ front ++ passed, j.preferred time = false := by
            intro j hj
            rcases List.mem_append.mp hj with hj | hj
            · exact hfront j hj
            · exact hpassed j hj
          rw [ih ?_ h]
          · rw [List.filter_append, (filter_of_none hnot).1, List.filter_append,
              (filter_of_none hnot).2, List.filter_append, (filter_of_none hpassed).1,
              List.filter_append, (filter_of_none hpassed).2, List.filter_cons_of_pos hjob,
              List.filter_cons_of_neg (by simp [hjob])]
            simp
          · intro j hj
            rw [List.mem_singleton.mp hj]
            exact preferred_setPriority time job

/-- The job with the mark of the first loop, if that has moved it. -/
def PlanJob.marked (time : ℤ) (job : PlanJob) : PlanJob :=
  if job.preferred time then job.setPriority MOVED_PRIORITY else job

/-- The first loop as a whole. -/
theorem movePreferred_all {time : ℤ} {fuel : ℕ} {jobs moved : List PlanJob}
    (h : movePreferred time fuel [] jobs = .ok moved) :
    moved = (moveToFront (PlanJob.preferred time) jobs).map (PlanJob.marked time) := by
  rw [movePreferred_eq fuel (fun _ hjob => absurd hjob List.not_mem_nil) h, moveToFront,
    List.map_append, List.nil_append]
  congr 1
  · refine List.map_congr_left (fun job hjob => ?_)
    rw [List.mem_reverse] at hjob
    rw [PlanJob.marked, if_pos (List.mem_filter.mp hjob).2]
  · conv_lhs => rw [← List.map_id (jobs.filter (fun job => !job.preferred time))]
    refine List.map_congr_left (fun job hjob => ?_)
    rw [PlanJob.marked, if_neg (by simpa using (List.mem_filter.mp hjob).2)]
    rfl

/-- The first loop terminates, with the jobs it was given. -/
theorem movePreferred_total (time : ℤ) (jobs : List PlanJob) :
    ∃ moved, movePreferred time (jobs.length + 1) [] jobs = .ok moved ∧
      (moved.map PlanJob.ptr).Perm (jobs.map PlanJob.ptr) := by
  have hmoves : preferredCount time ([] ++ jobs) < jobs.length + 1 :=
    Nat.lt_succ_of_le List.countP_le_length
  obtain ⟨moved, hmoved⟩ := movePreferred_returns (jobs.length + 1) hmoves
  exact ⟨moved, hmoved, movePreferred_perm (fun _ _ => rfl) _ hmoved⟩

/-! ## What planning leaves -/

/-- The job without its place in the plan. -/
def PlanJob.unplaced (job : PlanJob) : PlanJob :=
  { job with
    startTime := 0
    completionTime := 0
    usage := 0
    ninfoArr := []
    fixedNnameArr := []
    cpuIndexes := []
    latestNcpuIndex := [] }

variable {conf : LimitsForClusters} {cluster : PlanCluster} {values : LimitsValues}

/-- The limits change nothing but the place. -/
theorem adjustJob_unplaced {limits : List PlanLimit} {job job' : PlanJob}
    (h : adjustJobStarttimeAccordingToLimits conf cluster values limits job = .ok job') :
    job'.unplaced = job.unplaced := by
  rcases adjustJob_cases h with rfl | ⟨t, rfl⟩
  · rfl
  · rfl

/-- `update_job` changes nothing but the place. -/
theorem updateJob_unplaced {limits : List PlanLimit} {slots : List FirstFreeSlot} {job : PlanJob}
    {update : JobUpdate}
    (h : updateJob conf cluster values limits slots job = .ok (some update)) :
    update.job.unplaced = job.unplaced := by
  rcases updateJob_cases h with ⟨-, placed, adjusted, claimed, hcall⟩ | ⟨-, placed, hcall⟩
  · have hplace : placed.unplaced = job.unplaced := by
      obtain ⟨avail, nodes, startTime, -, -, -, heq, -⟩ := placeExclusive_ok hcall.placed_ok
      rw [heq]
      rfl
    rw [hcall.job_eq]
    exact (adjustJob_unplaced hcall.adjusted_ok).trans hplace
  · have hplace : placed.unplaced = job.unplaced := by
      obtain ⟨avail, sel, -, -, heq⟩ := placeShared_ok hcall.placed_ok
      rw [heq]
      rfl
    exact (adjustJob_unplaced hcall.adjusted_ok).trans hplace

/-- A pass of the second loop adds the job it comes to. -/
theorem planJob_unplaced {rest : List PlanJob} {st st' : Planning} {job : PlanJob}
    (h : planJob conf cluster values rest st job = .ok (some st')) :
    st'.done.map PlanJob.unplaced =
      st.done.map PlanJob.unplaced ++ [job.afterMove.unplaced] := by
  rcases planJob_cases h with ⟨-, update, hplan⟩ | ⟨-, hpass⟩
  · rw [hplan.done_eq, List.map_append, List.map_singleton, updateJob_unplaced hplan.update_ok]
  · rw [hpass.done_eq, List.map_append, List.map_singleton]

/-- The second loop passes the jobs in order. -/
theorem planJobs_unplaced (jobs : List PlanJob) : ∀ {st st' : Planning},
    planJobs conf cluster values jobs st = .ok (.complete st') →
      st'.done.map PlanJob.unplaced =
        st.done.map PlanJob.unplaced ++ jobs.map (fun job => job.afterMove.unplaced) := by
  induction jobs with
  | nil =>
      intro st st' h
      rw [planJobs] at h
      cases h
      rw [List.map_nil, List.append_nil]
  | cons job rest ih =>
      intro st st' h
      rw [planJobs] at h
      obtain ⟨next, hnext, h⟩ := bind_ok.mp h
      cases next with
      | none => cases pure_ok.mp h
      | some st₁ =>
          rw [ih h, planJob_unplaced hnext, List.map_cons, List.append_assoc,
            List.singleton_append]

/-- The job after a call of `update_sched`, apart from its place. -/
def PlanJob.updated (time : ℤ) (job : PlanJob) : PlanJob :=
  (job.marked time).afterMove.unplaced

/-- **A call that plans all jobs leaves the preferred ones in front, in reverse order, and
changes nothing but priorities and places.** -/
theorem updateSched_unplaced {time : ℤ} {plan : ClusterPlan} {result : SchedUpdate}
    (h : updateSched conf time values plan = .ok result) (hcode : result.code = 0) :
    result.plan.jobs.map PlanJob.unplaced =
      (moveToFront (PlanJob.preferred time) plan.jobs).map (PlanJob.updated time) := by
  obtain ⟨slots, values', jobs, st, hrun⟩ := updateSched_run h hcode
  rw [hrun.jobs_eq, planJobs_unplaced jobs hrun.planned_ok, movePreferred_all hrun.moved_ok,
    List.map_nil, List.nil_append, List.map_map]
  rfl

/-! ## The second call -/

/-- The job is moved by a second call: also the mark of an earlier call makes it
preferred. -/
def PlanJob.preferredAgain (time : ℤ) (job : PlanJob) : Bool :=
  decide (job.availableAfter ≤ time) && job.isQueued &&
    (job.jinfo.account == "galaxyelixir" || job.jinfo.priority == PREFERRED_PRIORITY ||
      job.jinfo.priority == MOVED_PRIORITY || decide (0 < job.reqGpu))

/-- What is moved is moved again. -/
theorem preferredAgain_of_preferred {time : ℤ} {job : PlanJob}
    (h : job.preferred time = true) : job.preferredAgain time = true := by
  unfold PlanJob.preferred at h
  unfold PlanJob.preferredAgain
  simp only [Bool.and_eq_true, Bool.or_eq_true] at h ⊢
  tauto

/-- After a call exactly these jobs are preferred. -/
theorem preferred_updated (time : ℤ) (job : PlanJob) :
    (job.updated time).preferred time = job.preferredAgain time := by
  by_cases hpref : job.preferred time = true
  · have hupdated : job.updated time = (job.setPriority PREFERRED_PRIORITY).unplaced := by
      rw [PlanJob.updated, PlanJob.marked, if_pos hpref]
      rfl
    rw [preferredAgain_of_preferred hpref, hupdated]
    unfold PlanJob.preferred at hpref
    rw [Bool.and_eq_true, Bool.and_eq_true] at hpref
    show (decide (job.availableAfter ≤ time) && job.isQueued && true &&
      (job.jinfo.account == "galaxyelixir" || true || decide (0 < job.reqGpu))) = true
    rw [hpref.1.1, Bool.or_true, Bool.true_or]
    rfl
  · rw [PlanJob.updated, PlanJob.marked, if_neg hpref, PlanJob.afterMove]
    rw [Bool.not_eq_true] at hpref
    split
    · next hmark =>
        show (decide (job.availableAfter ≤ time) && job.isQueued && true &&
          (job.jinfo.account == "galaxyelixir" || true || decide (0 < job.reqGpu))) = _
        rw [PlanJob.preferredAgain, hmark]
        simp
    · next hmark =>
        show job.preferred time = _
        have hnot : (job.jinfo.priority != MOVED_PRIORITY) = true := bne_iff_ne.mpr hmark
        rw [PlanJob.preferred, PlanJob.preferredAgain, beq_false_of_ne hmark, hnot]
        simp

/-- A call of `update_sched` leaves the addresses. -/
theorem ptr_updated (time : ℤ) (job : PlanJob) : (job.updated time).ptr = job.ptr := by
  unfold PlanJob.updated PlanJob.marked PlanJob.afterMove
  split <;> split <;> rfl

/-- The order of the jobs after a call that plans them all. -/
theorem updateSched_order {time : ℤ} {plan : ClusterPlan} {result : SchedUpdate}
    (h : updateSched conf time values plan = .ok result) (hcode : result.code = 0) :
    result.plan.jobs.map PlanJob.ptr =
      (moveToFront (PlanJob.preferred time) plan.jobs).map PlanJob.ptr := by
  have hmap := congrArg (List.map PlanJob.ptr) (updateSched_unplaced h hcode)
  rw [List.map_map, List.map_map] at hmap
  have hptr : PlanJob.ptr ∘ PlanJob.updated time = PlanJob.ptr := by
    funext job
    exact ptr_updated time job
  rwa [hptr] at hmap

/-- The order of the jobs after the second call of two. -/
theorem updateSched_order_again {time : ℤ} {plan : ClusterPlan} {first second : SchedUpdate}
    (h₁ : updateSched conf time values plan = .ok first) (hcode₁ : first.code = 0)
    (h₂ : updateSched conf time first.values first.plan = .ok second)
    (hcode₂ : second.code = 0) :
    second.plan.jobs.map PlanJob.ptr =
      (moveToFront (PlanJob.preferredAgain time)
        (moveToFront (PlanJob.preferred time) plan.jobs)).map PlanJob.ptr := by
  have hagain : (fun job : PlanJob => (job.updated time).preferred time) =
      PlanJob.preferredAgain time := by
    funext job
    exact preferred_updated time job
  calc second.plan.jobs.map PlanJob.ptr
      = (moveToFront (PlanJob.preferred time) first.plan.jobs).map PlanJob.ptr :=
        updateSched_order h₂ hcode₂
    _ = (moveToFront (PlanJob.preferred time) (first.plan.jobs.map PlanJob.unplaced)).map
          PlanJob.ptr := by
        -- what makes a job preferred is no part of its place
        rw [moveToFront_map, List.map_map]
        rfl
    _ = (moveToFront (PlanJob.preferredAgain time)
          (moveToFront (PlanJob.preferred time) plan.jobs)).map PlanJob.ptr := by
        rw [updateSched_unplaced h₁ hcode₁, moveToFront_map, hagain, List.map_map]
        refine List.map_congr_left (fun job _ => ?_)
        exact ptr_updated time job

/-- The order of the first call stays: a second one moves no job, or a single job that the
first has moved or found in front. -/
def OrderStays (time : ℤ) (jobs : List PlanJob) : Prop :=
  jobs.filter (PlanJob.preferredAgain time) = [] ∨
    ∃ job, jobs.filter (PlanJob.preferredAgain time) = [job] ∧
      (job.preferred time = true ∨ jobs.head? = some job)

/-- **The first loop always terminates with the jobs it was given; a second call of
`update_sched` leaves their order exactly if it has at most one job to move, and that one
is in front already.** -/
theorem updateSched_order_iff (conf : LimitsForClusters) (time : ℤ) (values : LimitsValues)
    (plan : ClusterPlan) (hnodup : (plan.jobs.map PlanJob.ptr).Nodup) :
    (∃ moved, movePreferred time (plan.jobs.length + 1) [] plan.jobs = .ok moved ∧
      (moved.map PlanJob.ptr).Perm (plan.jobs.map PlanJob.ptr)) ∧
    ∀ first second, updateSched conf time values plan = .ok first → first.code = 0 →
      updateSched conf time first.values first.plan = .ok second → second.code = 0 →
      (second.plan.jobs.map PlanJob.ptr = first.plan.jobs.map PlanJob.ptr ↔
        OrderStays time plan.jobs) := by
  refine ⟨movePreferred_total time plan.jobs, ?_⟩
  intro first second h₁ hcode₁ h₂ hcode₂
  have hmem : ∀ job ∈ moveToFront (PlanJob.preferred time) plan.jobs, job ∈ plan.jobs :=
    fun _ => (moveToFront_perm _ _).mem_iff.mp
  rw [updateSched_order_again h₁ hcode₁ h₂ hcode₂, updateSched_order h₁ hcode₁,
    map_key_inj hnodup (fun job hjob => hmem job ((moveToFront_perm _ _).mem_iff.mp hjob)) hmem,
    moveToFront_again_iff (fun _ => preferredAgain_of_preferred) (List.Nodup.of_map _ hnodup)]
  rfl

/-- A queued job for one CPU with the preferred priority. -/
def preferredJob (ptr : ℕ) : PlanJob :=
  (queuedJob ptr 1 1 Nat.one_pos 1 100).setPriority PREFERRED_PRIORITY

/-- Two jobs on one node. -/
def orderPlan (jobs : List PlanJob) : ClusterPlan :=
  ⟨⟨"zubat", [{ plainNode "zubat1" 2 8 with jobsOnCpu := some [none, none] }], 2, 0, 0⟩,
    jobs, [], []⟩

/-- One preferred job comes to the front and stays there. -/
theorem updateSched_order_one :
    ∃ first second,
      updateSched oneClass 1000 ⟨[], []⟩
        (orderPlan [queuedJob 1 1 1 (by decide) 1 100, preferredJob 2]) = .ok first ∧
      first.code = 0 ∧
      updateSched oneClass 1000 first.values first.plan = .ok second ∧ second.code = 0 ∧
      first.plan.jobs.map PlanJob.ptr = [2, 1] ∧
      second.plan.jobs.map PlanJob.ptr = first.plan.jobs.map PlanJob.ptr := by
  have hrun : (updateSched oneClass 1000 ⟨[], []⟩
      (orderPlan [queuedJob 1 1 1 (by decide) 1 100, preferredJob 2]) >>= fun first =>
        updateSched oneClass 1000 first.values first.plan >>= fun second =>
          pure (first.code, second.code, first.plan.jobs.map PlanJob.ptr))
      = .ok (0, 0, [2, 1]) := by
    decide +kernel
  obtain ⟨first, hfirst, hrun⟩ := bind_ok.mp hrun
  obtain ⟨second, hsecond, hrun⟩ := bind_ok.mp hrun
  simp only [pure_ok, Prod.mk.injEq] at hrun
  obtain ⟨hcode₁, hcode₂, horder⟩ := hrun
  refine ⟨first, second, hfirst, hcode₁, hsecond, hcode₂, horder, ?_⟩
  refine ((updateSched_order_iff oneClass 1000 ⟨[], []⟩
    (orderPlan [queuedJob 1 1 1 (by decide) 1 100, preferredJob 2]) (by decide)).2 first second
    hfirst hcode₁ hsecond hcode₂).mpr (Or.inr ⟨preferredJob 2, by decide, Or.inl (by decide)⟩)

/-- Two preferred jobs change places with every call. -/
theorem two_preferred_jobs_swap :
    ∃ first second,
      updateSched oneClass 1000 ⟨[], []⟩ (orderPlan [preferredJob 1, preferredJob 2])
        = .ok first ∧ first.code = 0 ∧
      updateSched oneClass 1000 first.values first.plan = .ok second ∧ second.code = 0 ∧
      second.plan.jobs.map PlanJob.ptr ≠ first.plan.jobs.map PlanJob.ptr := by
  have hrun : (updateSched oneClass 1000 ⟨[], []⟩ (orderPlan [preferredJob 1, preferredJob 2])
      >>= fun first =>
        updateSched oneClass 1000 first.values first.plan >>= fun second =>
          pure (first.code, second.code, first.plan.jobs.map PlanJob.ptr,
            second.plan.jobs.map PlanJob.ptr))
      = .ok (0, 0, [2, 1], [1, 2]) := by
    decide +kernel
  obtain ⟨first, hfirst, hrun⟩ := bind_ok.mp hrun
  obtain ⟨second, hsecond, hrun⟩ := bind_ok.mp hrun
  simp only [pure_ok, Prod.mk.injEq] at hrun
  obtain ⟨hcode₁, hcode₂, horder₁, horder₂⟩ := hrun
  refine ⟨first, second, hfirst, hcode₁, hsecond, hcode₂, ?_⟩
  rw [horder₁, horder₂]
  decide

end PlanSched
