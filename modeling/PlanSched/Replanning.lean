/-
# Rebuilding plans over a scheduling cycle

Models the callers of `update_sched`: the loop at the start of a cycle
(`World::plan_run`), `try_to_schedule_new_jobs`, and `plan_optimization` with
`random_job_to_random_position` and `restore_job_order`.

`update_sched` empties the gap list first and returns 2 in the middle as soon as
one job cannot be placed.  The loop calls it until it returns 0, which it does
after at most as many failures as there are jobs.  The other callers call it a
second time and do not look at the result: the gap list is left half-built when
the retry fails as well (`newJob_leaves_no_gaps`).

What the callers decide outside of this model is left open: in which gap
`find_first_gap` puts a new job, which jobs the random moves pick, and whether an
attempt is found to be better.  All results hold for every such decision.
-/
import PlanSched.Termination

namespace PlanSched

open CheckedRun

/-! ## The schedule -/

/-- The part of `sched` the planner works on, with the global limit values. -/
structure Schedule where
  clusters : List ClusterPlan
  values : LimitsValues

/-- The schedule with other jobs in cluster `k`. -/
def Schedule.setJobs (schedule : Schedule) (k : ℕ) (jobs : List PlanJob) : Schedule :=
  { schedule with
    clusters := schedule.clusters.modify k (fun plan => { plan with jobs := jobs }) }

/-- `update_sched(schedule, k, time)`: its return code and the schedule it leaves. -/
def updateSchedAt (conf : LimitsForClusters) (time : ℤ) (k : ℕ) (schedule : Schedule) :
    Run (ℕ × Schedule) := do
  let plan ← getAt schedule.clusters k
  let result ← updateSched conf time schedule.values plan
  return (result.code, ⟨schedule.clusters.set k result.plan, result.values⟩)

/-- `while (update_sched(schedule, k, time) == 2);`, with a budget of calls. -/
def updateUntilPlanned (conf : LimitsForClusters) (time : ℤ) (k : ℕ) :
    ℕ → Schedule → Run Schedule
  | 0, _ => .error .outOfSteps
  | fuel + 1, schedule => do
      let (code, schedule) ← updateSchedAt conf time k schedule
      if code = 2 then updateUntilPlanned conf time k fuel schedule else return schedule

/-- The number of jobs in cluster `k`. -/
def Schedule.jobCount (schedule : Schedule) (k : ℕ) : ℕ :=
  ((schedule.clusters[k]?).map (fun plan => plan.jobs.length)).getD 0

/-- The loop at the start of a cycle over all clusters. -/
def updateAllPlans (conf : LimitsForClusters) (time : ℤ) (schedule : Schedule) : Run Schedule :=
  (List.range schedule.clusters.length).foldlM
    (fun schedule k => updateUntilPlanned conf time k (schedule.jobCount k + 1) schedule) schedule

/-- `if (update_sched(schedule, k, time) == 2) update_sched(schedule, k, time);` -/
def updateWithRetry (conf : LimitsForClusters) (time : ℤ) (k : ℕ) (schedule : Schedule) :
    Run Schedule := do
  let (code, schedule) ← updateSchedAt conf time k schedule
  if code = 2 then do
    let (_, schedule) ← updateSchedAt conf time k schedule
    return schedule
  else return schedule

/-! ## New jobs -/

/-- What the search for a gap found for a new job: the cluster, the gap, the job with
the nodes it was fixed to, and the limit values the search left. -/
structure GapChoice where
  cluster : ℕ
  gap : PlanGap
  job : PlanJob
  values : LimitsValues

/-- `list_add_infrontof` on a list of jobs. -/
def addInFrontOf (jobs : List PlanJob) (ptr : ℕ) (job : PlanJob) : Run (List PlanJob) :=
  match jobs with
  | [] => .error .nullPointer
  | j :: rest =>
      if j.ptr = ptr then .ok (job :: j :: rest)
      else do
        let rest ← addInFrontOf rest ptr job
        return j :: rest

/-- `job_put_in_gap`: the new job list.  A gap with too few CPUs is refused and the
job is not entered. -/
def jobPutInGap (jobs : List PlanJob) (job : PlanJob) (gap : PlanGap) : Run (List PlanJob) :=
  if gap.usage < job.reqPpn then .ok jobs
  else
    match gap.followingJob with
    | none => .ok (jobs ++ [job.startAt gap.startTime])
    | some ptr => addInFrontOf jobs ptr (job.startAt gap.startTime)

/-- The schedule with a new job in its gap. -/
def enterNewJob (schedule : Schedule) (choice : GapChoice) : Run Schedule := do
  let plan ← getAt schedule.clusters choice.cluster
  let jobs ← jobPutInGap plan.jobs choice.job choice.gap
  return { schedule.setJobs choice.cluster jobs with values := choice.values }

/-- One pass of the loop of `try_to_schedule_new_jobs`: `findGap` is the search over
all clusters, `none` when there is no suitable gap. -/
def scheduleNewJob (conf : LimitsForClusters) (time : ℤ)
    (findGap : Schedule → PlanJob → Option GapChoice) (schedule : Schedule)
    (newJob : ℕ × JobInfo) : Run Schedule :=
  if newJob.2.state ≠ .queued then .ok schedule
  else do
    let job ← jobFillin newJob.1 newJob.2 (-1)
    match findGap schedule job with
    | none => return schedule
    | some choice => do
        let schedule ← enterNewJob schedule choice
        updateWithRetry conf time choice.cluster schedule

/-- `try_to_schedule_new_jobs`; every new job comes with the address it gets. -/
def tryToScheduleNewJobs (conf : LimitsForClusters) (time : ℤ)
    (findGap : Schedule → PlanJob → Option GapChoice) (schedule : Schedule)
    (newJobs : List (ℕ × JobInfo)) : Run Schedule :=
  newJobs.foldlM (scheduleNewJob conf time findGap) schedule

/-! ## Optimisation -/

/-- The decisions of one attempt of the optimisation: the cluster, the position of
the random job, the position of the job it is moved behind (`none` for `NULL`), and
whether the evaluation found the new plan better. -/
structure Attempt where
  cluster : ℕ
  job : ℕ
  behind : Option ℕ
  better : Bool

/-- `job_backup_fixnodes` and `list_remove_item`: the job and the schedule without
it. -/
def takeOutJob (schedule : Schedule) (attempt : Attempt) : Run (PlanJob × Schedule) := do
  let plan ← getAt schedule.clusters attempt.cluster
  let job ← getAt plan.jobs attempt.job
  return (job, schedule.setJobs attempt.cluster (plan.jobs.eraseIdx attempt.job))

/-- `list_add_inbackof`, or `list_add_begin`, of the job without fixed nodes. -/
def putJobBehind (schedule : Schedule) (attempt : Attempt) (job : PlanJob) : Run Schedule := do
  let plan ← getAt schedule.clusters attempt.cluster
  let job := { job with fixedNnameArr := job.fixedNnameArr.map (fun _ => none) }
  match attempt.behind with
  | none => return schedule.setJobs attempt.cluster (job :: plan.jobs)
  | some i => do
      let _ ← getAt plan.jobs i
      return schedule.setJobs attempt.cluster (plan.jobs.insertIdx (i + 1) job)

/-- `evaluate_schedule` reads the last gap of every cluster. -/
def evaluateSchedule (schedule : Schedule) : Run (List PlanGap) :=
  schedule.clusters.mapM (fun plan => deref plan.gaps.getLast?)

/-- `restore_job_order`: the jobs in the order they had, and the fixed nodes of the
moved one.  A job that was removed meanwhile is gone. -/
def restoreJobOrder (schedule : Schedule) (attempt : Attempt) (backup : List PlanJob)
    (job : PlanJob) : Run Schedule := do
  let plan ← getAt schedule.clusters attempt.cluster
  if plan.jobs = [] then return schedule
  else do
    let jobs ← backup.mapM (fun old => do
      let current ← deref (plan.jobs.find? (fun j => j.ptr == old.ptr))
      return if old.ptr = job.ptr then { current with fixedNnameArr := job.fixedNnameArr }
        else current)
    return schedule.setJobs attempt.cluster jobs

/-- One attempt of `plan_optimization`. -/
def optimizationAttempt (conf : LimitsForClusters) (time optimMinimalQueued : ℤ)
    (schedule : Schedule) (attempt : Attempt) : Run Schedule := do
  let plan ← getAt schedule.clusters attempt.cluster
  if (plan.cluster.numQueuedJobs : ℤ) < optimMinimalQueued then return schedule
  else do
    let (job, schedule) ← takeOutJob schedule attempt
    let schedule ← updateWithRetry conf time attempt.cluster schedule
    let schedule ← putJobBehind schedule attempt job
    let schedule ← updateWithRetry conf time attempt.cluster schedule
    let _ ← evaluateSchedule schedule
    if attempt.better then return schedule
    else do
      let schedule ← restoreJobOrder schedule attempt plan.jobs job
      updateWithRetry conf time attempt.cluster schedule

/-- `plan_optimization`: the attempts it makes before its time is up. -/
def planOptimization (conf : LimitsForClusters) (time optimMinimalQueued : ℤ)
    (schedule : Schedule) (attempts : List Attempt) : Run Schedule := do
  let _ ← evaluateSchedule schedule
  attempts.foldlM (optimizationAttempt conf time optimMinimalQueued) schedule

/-! ## The property and the condition -/

/-- The gap list is not empty and its last gap has no end. -/
def EndsOpen (gaps : List PlanGap) : Prop := ∃ last ∈ gaps.getLast?, last.endTime = LONG_MAX

instance (gaps : List PlanGap) : Decidable (EndsOpen gaps) :=
  inferInstanceAs (Decidable (∃ last ∈ gaps.getLast?, last.endTime = LONG_MAX))

/-- All gap lists of the schedule end with a gap without end. -/
def Schedule.AllOpen (schedule : Schedule) : Prop :=
  ∀ plan ∈ schedule.clusters, EndsOpen plan.gaps

instance (schedule : Schedule) : Decidable schedule.AllOpen :=
  inferInstanceAs (Decidable (∀ plan ∈ schedule.clusters, EndsOpen plan.gaps))

/-- Rebuilding cluster `k` does not fail twice: if a job cannot be placed, no other
job fails once it is removed. -/
def FailsAtMostOnce (conf : LimitsForClusters) (time : ℤ) (k : ℕ) (schedule : Schedule) : Prop :=
  ∀ schedule', updateSchedAt conf time k schedule = .ok (2, schedule') →
    ∀ code schedule'', updateSchedAt conf time k schedule' = .ok (code, schedule'') → code ≠ 2

/-- The rebuild after the new job was entered does not fail twice. -/
def NewJobMeets (conf : LimitsForClusters) (time : ℤ)
    (findGap : Schedule → PlanJob → Option GapChoice) (schedule : Schedule)
    (newJob : ℕ × JobInfo) : Prop :=
  ∀ job choice schedule', jobFillin newJob.1 newJob.2 (-1) = .ok job →
    findGap schedule job = some choice → enterNewJob schedule choice = .ok schedule' →
      FailsAtMostOnce conf time choice.cluster schedule'

/-- No rebuild of an attempt of the optimisation fails twice. -/
def AttemptMeets (conf : LimitsForClusters) (time : ℤ) (schedule : Schedule)
    (attempt : Attempt) : Prop :=
  ∀ plan job s₁, getAt schedule.clusters attempt.cluster = .ok plan →
    takeOutJob schedule attempt = .ok (job, s₁) →
    FailsAtMostOnce conf time attempt.cluster s₁ ∧
    ∀ s₂ s₃, updateWithRetry conf time attempt.cluster s₁ = .ok s₂ →
      putJobBehind s₂ attempt job = .ok s₃ →
      FailsAtMostOnce conf time attempt.cluster s₃ ∧
      ∀ s₄ s₅, updateWithRetry conf time attempt.cluster s₃ = .ok s₄ →
        restoreJobOrder s₄ attempt plan.jobs job = .ok s₅ →
        FailsAtMostOnce conf time attempt.cluster s₅

/-! ## One call -/

variable {conf : LimitsForClusters} {time : ℤ}

/-- A plan that was completed ends with a gap without end. -/
theorem updateSched_endsOpen {values : LimitsValues} {plan : ClusterPlan} {result : SchedUpdate}
    (h : updateSched conf time values plan = .ok result) (hcode : result.code ≠ 2) :
    EndsOpen result.plan.gaps := by
  unfold updateSched at h
  obtain ⟨slots, -, h⟩ := bind_ok.mp h
  obtain ⟨values', -, h⟩ := bind_ok.mp h
  obtain ⟨jobs, -, h⟩ := bind_ok.mp h
  obtain ⟨planned, -, h⟩ := bind_ok.mp h
  cases planned with
  | failed st behind =>
      rw [← pure_ok.mp h] at hcode
      exact absurd rfl hcode
  | complete st =>
      obtain ⟨gaps, hgaps, h⟩ := bind_ok.mp h
      rw [← pure_ok.mp h]
      obtain ⟨front, rfl⟩ := closingGaps_eq hgaps
      exact ⟨_, List.getLast?_concat, rfl⟩

/-- When the second loop fails, one job is gone. -/
theorem planJobs_failed_length {cluster : PlanCluster} {values : LimitsValues}
    (jobs : List PlanJob) : ∀ {st st' : Planning} {behind : List PlanJob},
      planJobs conf cluster values jobs st = .ok (.failed st' behind) →
      (st'.done ++ behind).length + 1 = st.done.length + jobs.length := by
  induction jobs with
  | nil =>
      intro st st' behind h
      rw [planJobs] at h
      cases h
  | cons job rest ih =>
      intro st st' behind h
      rw [planJobs] at h
      obtain ⟨next, hnext, h⟩ := bind_ok.mp h
      cases next with
      | none =>
          cases pure_ok.mp h
          show (st.done ++ rest).length + 1 = st.done.length + (job :: rest).length
          rw [List.length_append, List.length_cons]
          omega
      | some st₁ =>
          have hdone : st₁.done.length = st.done.length + 1 := by
            rcases planJob_cases hnext with ⟨-, update, hplan⟩ | ⟨-, hpass⟩
            · rw [hplan.done_eq, List.length_append, List.length_singleton]
            · rw [hpass.done_eq, List.length_append, List.length_singleton]
          rw [ih h, hdone, List.length_cons]
          omega

/-- A call of `update_sched` that fails leaves one job less. -/
theorem updateSched_failed_length {values : LimitsValues} {plan : ClusterPlan}
    {result : SchedUpdate} (h : updateSched conf time values plan = .ok result)
    (hcode : result.code = 2) : result.plan.jobs.length + 1 = plan.jobs.length := by
  unfold updateSched at h
  obtain ⟨slots, -, h⟩ := bind_ok.mp h
  obtain ⟨values', -, h⟩ := bind_ok.mp h
  obtain ⟨jobs, hjobs, h⟩ := bind_ok.mp h
  obtain ⟨planned, hplanned, h⟩ := bind_ok.mp h
  cases planned with
  | failed st behind =>
      rw [← pure_ok.mp h]
      have hlength := planJobs_failed_length jobs hplanned
      have hmoved := (movePreferred_perm (f := PlanJob.ptr) (fun _ _ => rfl) _ hjobs).length_eq
      rw [List.length_map, List.length_map, List.nil_append] at hmoved
      dsimp only at hlength ⊢
      rw [hlength, hmoved, List.length_nil, Nat.zero_add]
  | complete st =>
      obtain ⟨gaps, -, h⟩ := bind_ok.mp h
      rw [← pure_ok.mp h] at hcode
      cases hcode

/-- What `update_sched(schedule, k, time)` does to the schedule. -/
theorem updateSchedAt_spec {k code : ℕ} {schedule schedule' : Schedule}
    (h : updateSchedAt conf time k schedule = .ok (code, schedule')) :
    ∃ plan result, schedule.clusters[k]? = some plan ∧
      updateSched conf time schedule.values plan = .ok result ∧ code = result.code ∧
      schedule' = ⟨schedule.clusters.set k result.plan, result.values⟩ := by
  unfold updateSchedAt at h
  obtain ⟨plan, hplan, h⟩ := bind_ok.mp h
  obtain ⟨result, hresult, h⟩ := bind_ok.mp h
  obtain ⟨rfl, rfl⟩ := Prod.mk.inj (pure_ok.mp h)
  exact ⟨plan, result, getAt_ok.mp hplan, hresult, rfl, rfl⟩

/-- The gap lists of all clusters but `k` end with a gap without end. -/
def Schedule.OpenExcept (schedule : Schedule) (k : ℕ) : Prop :=
  ∀ (i : ℕ) (plan : ClusterPlan), i ≠ k → schedule.clusters[i]? = some plan →
    EndsOpen plan.gaps

/-- To have all lists end openly is to have them do so by position. -/
theorem Schedule.allOpen_iff {schedule : Schedule} : schedule.AllOpen ↔
    ∀ (i : ℕ) (plan : ClusterPlan), schedule.clusters[i]? = some plan →
      EndsOpen plan.gaps := by
  unfold Schedule.AllOpen
  constructor
  · intro h i plan hplan
    exact h plan (List.mem_of_getElem? hplan)
  · intro h plan hplan
    obtain ⟨i, hi⟩ := List.mem_iff_getElem?.mp hplan
    exact h i plan hi

/-- A call keeps the other lists; if it does not fail, all lists end openly. -/
theorem updateSchedAt_open {k code : ℕ} {schedule schedule' : Schedule}
    (hopen : schedule.OpenExcept k)
    (h : updateSchedAt conf time k schedule = .ok (code, schedule')) :
    schedule'.OpenExcept k ∧ (code ≠ 2 → schedule'.AllOpen) := by
  obtain ⟨plan, result, hplan, hresult, rfl, rfl⟩ := updateSchedAt_spec h
  have hother : Schedule.OpenExcept ⟨schedule.clusters.set k result.plan, result.values⟩ k := by
    intro i p hi hp
    rw [List.getElem?_set_ne (Ne.symm hi)] at hp
    exact hopen i p hi hp
  refine ⟨hother, ?_⟩
  intro hcode
  rw [Schedule.allOpen_iff]
  intro i p hp
  by_cases hi : i = k
  · subst hi
    obtain ⟨hlt, -⟩ := List.getElem?_eq_some_iff.mp hplan
    rw [List.getElem?_set_self hlt] at hp
    cases hp
    exact updateSched_endsOpen hresult hcode
  · exact hother i p hi hp

/-- A schedule with all lists open has all but one open. -/
theorem Schedule.AllOpen.except {schedule : Schedule} (h : schedule.AllOpen) (k : ℕ) :
    schedule.OpenExcept k := by
  intro i plan _ hplan
  exact Schedule.allOpen_iff.mp h i plan hplan

/-- Other jobs in a cluster leave all gap lists. -/
theorem Schedule.AllOpen.setJobs {schedule : Schedule} (h : schedule.AllOpen) (k : ℕ)
    (jobs : List PlanJob) : (schedule.setJobs k jobs).AllOpen := by
  rw [Schedule.allOpen_iff] at h ⊢
  intro i plan hplan
  unfold Schedule.setJobs at hplan
  rw [List.getElem?_modify] at hplan
  obtain ⟨old, hold, rfl⟩ := Option.map_eq_some_iff.mp hplan
  have hopen := h i old hold
  split <;> exact hopen

/-! ## The loop at the start of a cycle -/

/-- One call ends. -/
theorem updateSchedAt_ends (conf : LimitsForClusters) (time : ℤ) (k : ℕ) (schedule : Schedule) :
    Avoids .outOfSteps (updateSchedAt conf time k schedule) := by
  unfold updateSchedAt
  refine (getAt_ends _ _).bind (fun plan _ => ?_)
  exact (updateSched_ends _ _ _ _).bind (fun _ _ => avoids_ok _ _)

/-- A call that fails leaves one job less in its cluster. -/
theorem updateSchedAt_failed_jobCount {k : ℕ} {schedule schedule' : Schedule}
    (h : updateSchedAt conf time k schedule = .ok (2, schedule')) :
    schedule'.jobCount k + 1 = schedule.jobCount k := by
  obtain ⟨plan, result, hplan, hresult, hcode, rfl⟩ := updateSchedAt_spec h
  obtain ⟨hlt, -⟩ := List.getElem?_eq_some_iff.mp hplan
  unfold Schedule.jobCount
  rw [List.getElem?_set_self hlt, hplan]
  exact updateSched_failed_length hresult hcode.symm

/-- The loop over one cluster ends: every failure removes a job. -/
theorem updateUntilPlanned_ends (conf : LimitsForClusters) (time : ℤ) (k fuel : ℕ) :
    ∀ schedule : Schedule, schedule.jobCount k < fuel →
      Avoids .outOfSteps (updateUntilPlanned conf time k fuel schedule) := by
  induction fuel with
  | zero =>
      intro schedule hfuel
      exact absurd hfuel (Nat.not_lt_zero _)
  | succ fuel ih =>
      intro schedule hfuel
      rw [updateUntilPlanned]
      refine (updateSchedAt_ends conf time k schedule).bind (fun result hresult => ?_)
      obtain ⟨code, schedule'⟩ := result
      dsimp only
      split
      · next hcode =>
          subst hcode
          have := updateSchedAt_failed_jobCount hresult
          exact ih schedule' (by omega)
      · exact avoids_ok _ _

/-- After the loop over one cluster all gap lists end openly. -/
theorem updateUntilPlanned_open {k : ℕ} (fuel : ℕ) :
    ∀ {schedule schedule' : Schedule}, schedule.OpenExcept k →
      updateUntilPlanned conf time k fuel schedule = .ok schedule' → schedule'.AllOpen := by
  induction fuel with
  | zero =>
      intro schedule schedule' _ h
      rw [updateUntilPlanned] at h
      cases h
  | succ fuel ih =>
      intro schedule schedule' hopen h
      rw [updateUntilPlanned] at h
      obtain ⟨⟨code, schedule₁⟩, hcall, h⟩ := bind_ok.mp h
      obtain ⟨hother, hall⟩ := updateSchedAt_open hopen hcall
      dsimp only at h
      split at h
      · exact ih hother h
      · next hcode =>
          rw [← pure_ok.mp h]
          exact hall hcode

/-! ## Rebuilding with one retry -/

/-- A rebuild that does not fail twice keeps all gap lists open. -/
theorem updateWithRetry_open {k : ℕ} {schedule schedule' : Schedule} (hopen : schedule.AllOpen)
    (hwhen : FailsAtMostOnce conf time k schedule)
    (h : updateWithRetry conf time k schedule = .ok schedule') : schedule'.AllOpen := by
  unfold updateWithRetry at h
  obtain ⟨⟨code, schedule₁⟩, hcall, h⟩ := bind_ok.mp h
  obtain ⟨hother, hall⟩ := updateSchedAt_open (hopen.except k) hcall
  dsimp only at h
  split at h
  · next hcode =>
      subst hcode
      obtain ⟨⟨code', schedule₂⟩, hretry, h⟩ := bind_ok.mp h
      obtain ⟨-, hall'⟩ := updateSchedAt_open hother hretry
      rw [← pure_ok.mp h]
      exact hall' (hwhen schedule₁ hcall code' schedule₂ hretry)
  · next hcode =>
      rw [← pure_ok.mp h]
      exact hall hcode

/-- Entering a new job leaves all gap lists. -/
theorem enterNewJob_open {schedule schedule' : Schedule} {choice : GapChoice}
    (hopen : schedule.AllOpen) (h : enterNewJob schedule choice = .ok schedule') :
    schedule'.AllOpen := by
  unfold enterNewJob at h
  obtain ⟨plan, -, h⟩ := bind_ok.mp h
  obtain ⟨jobs, -, h⟩ := bind_ok.mp h
  rw [← pure_ok.mp h]
  exact hopen.setJobs choice.cluster jobs

/-- One new job keeps all gap lists open, if its rebuild does not fail twice. -/
theorem scheduleNewJob_open {findGap : Schedule → PlanJob → Option GapChoice}
    {schedule schedule' : Schedule} {newJob : ℕ × JobInfo} (hopen : schedule.AllOpen)
    (hwhen : NewJobMeets conf time findGap schedule newJob)
    (h : scheduleNewJob conf time findGap schedule newJob = .ok schedule') :
    schedule'.AllOpen := by
  unfold scheduleNewJob at h
  split at h
  · cases h
    exact hopen
  · obtain ⟨job, hjob, h⟩ := bind_ok.mp h
    cases hfound : findGap schedule job with
    | none =>
        rw [hfound] at h
        rw [← pure_ok.mp h]
        exact hopen
    | some choice =>
        rw [hfound] at h
        obtain ⟨entered, hentered, h⟩ := bind_ok.mp h
        exact updateWithRetry_open (enterNewJob_open hopen hentered)
          (hwhen job choice entered hjob hfound hentered) h

/-- One attempt of the optimisation keeps all gap lists open, if none of its rebuilds
fails twice. -/
theorem optimizationAttempt_open {optimMinimalQueued : ℤ} {schedule schedule' : Schedule}
    {attempt : Attempt} (hopen : schedule.AllOpen) (hwhen : AttemptMeets conf time schedule attempt)
    (h : optimizationAttempt conf time optimMinimalQueued schedule attempt = .ok schedule') :
    schedule'.AllOpen := by
  unfold optimizationAttempt at h
  obtain ⟨plan, hplan, h⟩ := bind_ok.mp h
  split at h
  · rw [← pure_ok.mp h]
    exact hopen
  · obtain ⟨⟨job, s₁⟩, htake, h⟩ := bind_ok.mp h
    obtain ⟨s₂, hs₂, h⟩ := bind_ok.mp h
    obtain ⟨s₃, hput, h⟩ := bind_ok.mp h
    obtain ⟨s₄, hs₄, h⟩ := bind_ok.mp h
    obtain ⟨evaluation, -, h⟩ := bind_ok.mp h
    obtain ⟨hwhen₁, hwhen⟩ := hwhen plan job s₁ hplan htake
    obtain ⟨hwhen₃, hwhen⟩ := hwhen s₂ s₃ hs₂ hput
    -- taking the job out, putting it behind another and restoring touch no gap list
    have hopen₁ : s₁.AllOpen := by
      unfold takeOutJob at htake
      obtain ⟨plan', -, htake⟩ := bind_ok.mp htake
      obtain ⟨job', -, htake⟩ := bind_ok.mp htake
      obtain ⟨-, rfl⟩ := Prod.mk.inj (pure_ok.mp htake)
      exact hopen.setJobs _ _
    have hopen₂ := updateWithRetry_open hopen₁ hwhen₁ hs₂
    have hopen₃ : s₃.AllOpen := by
      unfold putJobBehind at hput
      obtain ⟨plan', -, hput⟩ := bind_ok.mp hput
      split at hput
      · rw [← pure_ok.mp hput]
        exact hopen₂.setJobs _ _
      · obtain ⟨previous, -, hput⟩ := bind_ok.mp hput
        rw [← pure_ok.mp hput]
        exact hopen₂.setJobs _ _
    have hopen₄ := updateWithRetry_open hopen₃ hwhen₃ hs₄
    split at h
    · rw [← pure_ok.mp h]
      exact hopen₄
    · obtain ⟨s₅, hrestore, h⟩ := bind_ok.mp h
      have hopen₅ : s₅.AllOpen := by
        unfold restoreJobOrder at hrestore
        obtain ⟨plan', -, hrestored⟩ := bind_ok.mp hrestore
        split at hrestored
        · rw [← pure_ok.mp hrestored]
          exact hopen₄
        · obtain ⟨jobs, -, hrestored⟩ := bind_ok.mp hrestored
          rw [← pure_ok.mp hrestored]
          exact hopen₄.setJobs _ _
      exact updateWithRetry_open hopen₅ (hwhen s₄ s₅ hs₄ hrestore) h

/-! ## A scheduling cycle -/

/-- From a schedule whose gap lists all end with a gap without end: the loop at the
start of a cycle ends and leaves such a schedule; the new jobs and the optimisation
leave one whenever none of their rebuilds fails twice. -/
theorem gapLists_stay_open (conf : LimitsForClusters) (time : ℤ) (schedule : Schedule)
    (hopen : schedule.AllOpen) :
    (Avoids .outOfSteps (updateAllPlans conf time schedule) ∧
      ∀ schedule', updateAllPlans conf time schedule = .ok schedule' → schedule'.AllOpen) ∧
    (∀ findGap newJobs schedule',
      EachStep (scheduleNewJob conf time findGap) (NewJobMeets conf time findGap)
        schedule newJobs →
      tryToScheduleNewJobs conf time findGap schedule newJobs = .ok schedule' →
        schedule'.AllOpen) ∧
    ∀ optimMinimalQueued attempts schedule',
      EachStep (optimizationAttempt conf time optimMinimalQueued) (AttemptMeets conf time)
        schedule attempts →
      planOptimization conf time optimMinimalQueued schedule attempts = .ok schedule' →
        schedule'.AllOpen := by
  refine ⟨⟨?_, ?_⟩, ?_, ?_⟩
  · unfold updateAllPlans
    exact avoids_foldlM _
      (fun s k _ => updateUntilPlanned_ends conf time k _ s (Nat.lt_succ_self _)) schedule
  · intro schedule' h
    refine foldlM_invariant Schedule.AllOpen _ _ schedule schedule' ?_ hopen h
    intro s k s' _ hs hstep
    exact updateUntilPlanned_open _ (hs.except k) hstep
  · intro findGap newJobs schedule' heach h
    refine foldlM_invariant_of_eachStep ?_ newJobs heach hopen h
    intro s newJob s' hmeets hs hstep
    exact scheduleNewJob_open hs hmeets hstep
  · intro optimMinimalQueued attempts schedule' heach h
    unfold planOptimization at h
    obtain ⟨evaluation, -, h⟩ := bind_ok.mp h
    refine foldlM_invariant_of_eachStep ?_ attempts heach hopen h
    intro s attempt s' hmeets hs hstep
    exact optimizationAttempt_open hs hmeets hstep

/-- A job that needs one CPU for ten seconds. -/
def shortJob : JobInfo :=
  { (default : JobInfo) with
    state := .queued
    resreq := [⟨"procs", 1⟩, ⟨"nodect", 1⟩, ⟨"mem", 1⟩, ⟨"walltime", 10⟩] }

/-- The search finds the first gap of the first cluster, on the node `zubat2`. -/
def inFirstGap (schedule : Schedule) (job : PlanJob) : Option GapChoice := do
  let plan ← schedule.clusters[0]?
  let gap ← plan.gaps[0]?
  return ⟨0, gap, { job with fixedNnameArr := [some "zubat2"] }, schedule.values⟩

/-- One idle node, and no job in the plan. -/
def idleSchedule : Schedule where
  clusters := [⟨⟨"zubat", [plainNode "zubat2" 1 8], 1, 1, 0⟩, [],
    [gapCreateLast 1000 ⟨"zubat", [plainNode "zubat2" 1 8], 1, 1, 0⟩], []⟩]
  values := ⟨[], []⟩

/-- On an idle node the job is planned at once. -/
theorem gapLists_stay_open_one :
    ∃ schedule', tryToScheduleNewJobs oneClass 1000 inFirstGap idleSchedule [(1, shortJob)]
        = .ok schedule' ∧
      schedule'.clusters.map (fun plan => plan.jobs.map PlanJob.startTime) = [[1000]] ∧
      schedule'.AllOpen := by
  have hrun : (tryToScheduleNewJobs oneClass 1000 inFirstGap idleSchedule [(1, shortJob)]
      >>= fun s => pure (s.clusters.map (fun plan => plan.jobs.map PlanJob.startTime)))
      = .ok [[1000]] := by
    decide +kernel
  have hfirst : (do
      let job ← jobFillin 1 shortJob (-1)
      let choice ← deref (inFirstGap idleSchedule job)
      let schedule ← enterNewJob idleSchedule choice
      let result ← updateSchedAt oneClass 1000 choice.cluster schedule
      return result.1 : Run ℕ) = .ok 0 := by
    decide +kernel
  obtain ⟨schedule', hschedule', hstarts⟩ := bind_ok.mp hrun
  refine ⟨schedule', hschedule', pure_ok.mp hstarts, ?_⟩
  refine (gapLists_stay_open oneClass 1000 _ (by decide)).2.1 inFirstGap _ schedule' ?_ hschedule'
  intro front newJob rest hsplit s hs
  cases front with
  | cons x xs => simp at hsplit
  | nil =>
      -- the only rebuild is the one `hfirst` is about, and it does not fail
      cases hsplit
      cases hs
      intro job choice entered hjob hchoice hentered schedule₁ hcall
      obtain ⟨job', hjob', hfirst⟩ := bind_ok.mp hfirst
      cases hjob.symm.trans hjob'
      obtain ⟨choice', hchoice', hfirst⟩ := bind_ok.mp hfirst
      cases hchoice.symm.trans (deref_ok.mp hchoice')
      obtain ⟨entered', hentered', hfirst⟩ := bind_ok.mp hfirst
      cases hentered.symm.trans hentered'
      obtain ⟨result, hresult, hfirst⟩ := bind_ok.mp hfirst
      cases hcall.symm.trans hresult
      cases pure_ok.mp hfirst

/-- A cluster with a node that is available until 2000, and one for jobs of at most
100 seconds. -/
def windowCluster : PlanCluster where
  clusterName := "zubat"
  nodes := [{ plainNode "zubat1" 1 8 with availBefore := 2000 },
    { plainNode "zubat2" 1 8 with walltimeLimitMax := 100 }]
  numCpus := 2
  numRunningCpus := 0
  numQueuedJobs := 0

/-- Three jobs of 600 seconds are planned one after the other on the first node, the
last two beyond its window; the next rebuild checks the window against the completion
times of this plan.  So when a new job arrives, the second job fails, then the third,
and the gap list is left empty. -/
theorem newJob_leaves_no_gaps :
    ∃ schedule schedule', updateAllPlans oneClass 1000 ⟨[⟨windowCluster,
        [queuedJob 1 1 1 (by decide) 1 600, queuedJob 2 1 1 (by decide) 1 600,
          queuedJob 3 1 1 (by decide) 1 600], [], []⟩], ⟨[], []⟩⟩ = .ok schedule ∧
      schedule.AllOpen ∧
      tryToScheduleNewJobs oneClass 1000 inFirstGap schedule [(4, shortJob)] = .ok schedule' ∧
      ¬ schedule'.AllOpen := by
  have hrun : (do
      let schedule ← updateAllPlans oneClass 1000 ⟨[⟨windowCluster,
        [queuedJob 1 1 1 (by decide) 1 600, queuedJob 2 1 1 (by decide) 1 600,
          queuedJob 3 1 1 (by decide) 1 600], [], []⟩], ⟨[], []⟩⟩
      let schedule' ← tryToScheduleNewJobs oneClass 1000 inFirstGap schedule [(4, shortJob)]
      return (decide schedule.AllOpen, decide schedule'.AllOpen) : Run (Bool × Bool))
      = .ok (true, false) := by
    decide +kernel
  obtain ⟨schedule, hschedule, hrun⟩ := bind_ok.mp hrun
  obtain ⟨schedule', hschedule', hrun⟩ := bind_ok.mp hrun
  obtain ⟨hopen, hnot⟩ := Prod.mk.inj (pure_ok.mp hrun)
  exact ⟨schedule, schedule', hschedule, of_decide_eq_true hopen, hschedule',
    of_decide_eq_false hnot⟩

end PlanSched
