/-
# The divisors of the evaluation

`fairshare_result_max` divides by the usage of every user, and `plan_optimization` by the
criteria of `evaluation_before`.  What has been added for a user over a whole run is the
work of its jobs (`Represents`, `represents_run`), what is planned the work of those in the
schedule; a criterion is that of the queued jobs of its schedule (`evaluateSchedule_sums`).
The fairness of a schedule is never zero (`fairshareResultMax_pos`).

* `evaluation_divides_iff`: when no divisor of a run is zero.
-/
import PlanSched.PlanEvaluation

namespace PlanSched.Evaluation

open KeyedRecords

/-! ## Work -/

/-- A job that is counted for its user, with the CPUs and the memory of its cluster. -/
structure CountedJob where
  job : EvaluatedJob
  numRunningCpus : ℤ
  availableRam : ℤ

namespace CountedJob

/-- The user. -/
def account (counted : CountedJob) : String := counted.job.jinfo.account

/-- The cluster has CPUs and memory. -/
def HasCluster (counted : CountedJob) : Prop :=
  0 < counted.numRunningCpus ∧ 0 < counted.availableRam

instance (counted : CountedJob) : Decidable counted.HasCluster :=
  inferInstanceAs (Decidable (_ ∧ _))

/-- The part of the cluster over a duration. -/
def work (counted : CountedJob) (duration : ℤ) : ℚ :=
  if counted.HasCluster then
    partOfCluster counted.job counted.numRunningCpus counted.availableRam * duration
  else 0

theorem work_eq {counted : CountedJob} (h : counted.HasCluster) (duration : ℤ) :
    counted.work duration = partOfCluster counted.job counted.numRunningCpus
      counted.availableRam * duration := if_pos h

theorem work_eq_zero {counted : CountedJob} (h : ¬ counted.HasCluster) (duration : ℤ) :
    counted.work duration = 0 := if_neg h

/-- The job is completed. -/
def IsCompleted (counted : CountedJob) : Prop := counted.job.jinfo.state = .completed

instance (counted : CountedJob) : Decidable counted.IsCompleted :=
  inferInstanceAs (Decidable (_ = _))

/-- What it adds to the completed work of its user. -/
def completedWork (counted : CountedJob) : ℚ :=
  if counted.IsCompleted then counted.work (counted.job.complTime - counted.job.startTime) else 0

/-- What it adds to the planned work of its user. -/
def plannedWork (counted : CountedJob) : ℚ :=
  if counted.IsCompleted then 0 else counted.work counted.job.estimatedProcessing

end CountedJob

/-- The jobs of a schedule. -/
def scheduleJobs (schedule : List EvaluatedPlan) : List CountedJob :=
  schedule.flatMap (fun plan =>
    plan.jobs.map (fun job => ⟨job, plan.numRunningCpus, plan.availableRam⟩))

/-- The jobs an event counts. -/
def Event.counted : Event → List CountedJob
  | .jobReported job numRunningCpus availableRam =>
      if job.jinfo.state = .completed then [⟨job, numRunningCpus, availableRam⟩] else []
  | .evaluateBefore schedule => scheduleJobs schedule
  | .evaluateAfter schedule => scheduleJobs schedule
  | .evaluateRestored schedule => scheduleJobs schedule

/-! ## The list of users -/

/-- The users are those of all jobs counted so far, each once, with their completed work and the
planned work of the jobs of a plan. -/
structure Represents (fslist : List UserInfo) (history plan : List CountedJob) : Prop where
  nodup : (fslist.map UserInfo.account).Nodup
  accounts : ∀ account, account ∈ fslist.map UserInfo.account ↔
    account ∈ history.map CountedJob.account
  known : ∀ counted ∈ plan, counted ∈ history
  completed : ∀ user ∈ fslist, user.completedFu
    = totalFor CountedJob.account CountedJob.completedWork user.account history
  planned : ∀ user ∈ fslist, user.plannedFu
    = totalFor CountedJob.account CountedJob.plannedWork user.account plan

/-- What `fairshare_add_job` does to the entry of its user. -/
theorem fairshareAddJob_eq (fslist : List UserInfo) (counted : CountedJob) :
    ∃ change : UserInfo → UserInfo,
      fairshareAddJob fslist counted.job counted.numRunningCpus counted.availableRam
        = upsert UserInfo.account fairshareAddUser counted.account change fslist ∧
      ∀ user, (change user).account = user.account ∧
        (change user).completedFu = user.completedFu + counted.completedWork ∧
        (change user).plannedFu = user.plannedFu + counted.plannedWork := by
  unfold fairshareAddJob
  dsimp only
  by_cases hstate : counted.IsCompleted
  · refine ⟨_, if_pos hstate, ?_⟩
    intro user
    unfold CountedJob.completedWork CountedJob.plannedWork
    rw [if_pos hstate, if_pos hstate]
    by_cases hcluster : 0 < counted.numRunningCpus ∧ 0 < counted.availableRam
    · rw [if_pos hcluster, CountedJob.work_eq hcluster]
      exact ⟨rfl, rfl, (add_zero _).symm⟩
    · rw [if_neg hcluster, CountedJob.work_eq_zero hcluster]
      exact ⟨rfl, (add_zero _).symm, (add_zero _).symm⟩
  · refine ⟨_, if_neg hstate, ?_⟩
    intro user
    unfold CountedJob.completedWork CountedJob.plannedWork
    rw [if_neg hstate, if_neg hstate]
    by_cases hcluster : 0 < counted.numRunningCpus ∧ 0 < counted.availableRam
    · rw [if_pos hcluster, CountedJob.work_eq hcluster]
      exact ⟨rfl, (add_zero _).symm, rfl⟩
    · rw [if_neg hcluster, CountedJob.work_eq_zero hcluster]
      exact ⟨rfl, (add_zero _).symm, (add_zero _).symm⟩

/-- One job more. -/
theorem Represents.addJob {fslist : List UserInfo} {history plan : List CountedJob}
    (h : Represents fslist history plan) (counted : CountedJob) :
    Represents (fairshareAddJob fslist counted.job counted.numRunningCpus counted.availableRam)
      (history ++ [counted]) (plan ++ [counted]) := by
  obtain ⟨change, heq, hchange⟩ := fairshareAddJob_eq fslist counted
  rw [heq]
  have hfresh : (fairshareAddUser counted.account).account = counted.account := rfl
  have hkeep := fun user => (hchange user).1
  -- the entries of one user, before and with the job
  have htotals : ∀ user ∈ upsert UserInfo.account fairshareAddUser counted.account change fslist,
      user.completedFu = totalFor CountedJob.account CountedJob.completedWork user.account history
          + (if counted.account = user.account then counted.completedWork else 0) ∧
        user.plannedFu = totalFor CountedJob.account CountedJob.plannedWork user.account plan
          + if counted.account = user.account then counted.plannedWork else 0 := by
    intro user huser
    rcases mem_upsert h.nodup huser with ⟨hold, hne⟩ | ⟨old, rfl, hold⟩
    · rw [if_neg (Ne.symm hne), if_neg (Ne.symm hne), add_zero, add_zero]
      exact ⟨h.completed user hold, h.planned user hold⟩
    · obtain ⟨haccount, hcompleted, hplanned⟩ := hchange old
      rw [haccount, hcompleted, hplanned]
      rcases hold with ⟨hold, hkey⟩ | ⟨hnew, rfl⟩
      · rw [if_pos hkey.symm, if_pos hkey.symm, h.completed old hold, h.planned old hold]
        exact ⟨rfl, rfl⟩
      · have hhistory : counted.account ∉ history.map CountedJob.account :=
          fun hmem => hnew ((h.accounts _).mpr hmem)
        have hplan : counted.account ∉ plan.map CountedJob.account := by
          intro hmem
          obtain ⟨other, hother, hsame⟩ := List.mem_map.mp hmem
          exact hhistory (List.mem_map.mpr ⟨other, h.known other hother, hsame⟩)
        rw [hfresh, if_pos rfl, if_pos rfl, totalFor_of_notMem hhistory,
          totalFor_of_notMem hplan]
        exact ⟨rfl, rfl⟩
  refine ⟨nodup_upsert hfresh hkeep h.nodup, ?_, ?_, ?_, ?_⟩
  · intro account
    rw [mem_keys_upsert hfresh hkeep, h.accounts, List.map_append, List.mem_append,
      List.map_singleton, List.mem_singleton]
  · intro other hother
    rcases List.mem_append.mp hother with hother | hother
    · exact List.mem_append_left _ (h.known other hother)
    · exact List.mem_append_right _ hother
  · intro user huser
    rw [totalFor_append, totalFor_singleton]
    exact (htotals user huser).1
  · intro user huser
    rw [totalFor_append, totalFor_singleton]
    exact (htotals user huser).2

/-- Jobs one after the other. -/
theorem Represents.addJobs (jobs : List CountedJob) : ∀ {fslist : List UserInfo}
    {history plan : List CountedJob}, Represents fslist history plan →
    Represents (jobs.foldl (fun fslist counted =>
        fairshareAddJob fslist counted.job counted.numRunningCpus counted.availableRam) fslist)
      (history ++ jobs) (plan ++ jobs) := by
  induction jobs with
  | nil =>
      intro fslist history plan h
      rw [List.append_nil, List.append_nil]
      exact h
  | cons counted jobs ih =>
      intro fslist history plan h
      have hnext := ih (h.addJob counted)
      rw [List.append_assoc, List.append_assoc] at hnext
      exact hnext

/-- A change that keeps the accounts and the completed work, and leaves no planned work. -/
theorem Represents.reset {fslist : List UserInfo} {history plan : List CountedJob}
    (h : Represents fslist history plan) :
    Represents (fairshareResetPlannedValues fslist) history [] := by
  have hkeys : (fairshareResetPlannedValues fslist).map UserInfo.account
      = fslist.map UserInfo.account := List.map_map
  refine ⟨by rw [hkeys]; exact h.nodup, by rw [hkeys]; exact h.accounts, ?_, ?_, ?_⟩
  · intro counted hcounted
    cases hcounted
  · intro user huser
    obtain ⟨old, hold, rfl⟩ := List.mem_map.mp huser
    exact h.completed old hold
  · intro user huser
    obtain ⟨old, hold, rfl⟩ := List.mem_map.mp huser
    rfl

/-- The normalized values are not part of it. -/
theorem Represents.normalize {fslist : List UserInfo} {history plan : List CountedJob}
    (h : Represents fslist history plan) : Represents (normalizeUsers fslist) history plan := by
  have hkeys : (normalizeUsers fslist).map UserInfo.account = fslist.map UserInfo.account :=
    List.map_map
  refine ⟨by rw [hkeys]; exact h.nodup, by rw [hkeys]; exact h.accounts, h.known, ?_, ?_⟩
  · intro user huser
    obtain ⟨old, hold, rfl⟩ := List.mem_map.mp huser
    exact h.completed old hold
  · intro user huser
    obtain ⟨old, hold, rfl⟩ := List.mem_map.mp huser
    exact h.planned old hold

/-- `fairshare_get_planned_from_schedule`, job by job. -/
theorem fairshareGetPlannedFromSchedule_eq (fslist : List UserInfo)
    (schedule : List EvaluatedPlan) : fairshareGetPlannedFromSchedule fslist schedule
      = (scheduleJobs schedule).foldl (fun fslist counted =>
          fairshareAddJob fslist counted.job counted.numRunningCpus counted.availableRam)
        (fairshareResetPlannedValues fslist) := by
  unfold fairshareGetPlannedFromSchedule scheduleJobs
  rw [List.foldl_flatMap]
  simp only [List.foldl_map]

/-- The users once the schedule is added. -/
theorem Represents.planned_schedule {fslist : List UserInfo} {history plan : List CountedJob}
    (h : Represents fslist history plan) (schedule : List EvaluatedPlan) :
    Represents (fairshareGetPlannedFromSchedule fslist schedule)
      (history ++ scheduleJobs schedule) (scheduleJobs schedule) := by
  rw [fairshareGetPlannedFromSchedule_eq]
  exact h.reset.addJobs (scheduleJobs schedule)

/-- The users after one more event. -/
theorem represents_step {st : EvaluationState} {history plan : List CountedJob}
    (h : Represents st.fslist history plan) (event : Event) :
    ∃ plan', Represents (step st event).fslist (history ++ event.counted) plan' := by
  cases event with
  | jobReported job numRunningCpus availableRam =>
      unfold step Event.counted
      dsimp only
      split
      · exact ⟨_, h.addJob ⟨job, numRunningCpus, availableRam⟩⟩
      · exact ⟨plan, by rw [List.append_nil]; exact h⟩
  | evaluateBefore schedule => exact ⟨_, (h.planned_schedule schedule).normalize⟩
  | evaluateAfter schedule =>
      refine ⟨scheduleJobs schedule, ?_⟩
      have hnext := (h.planned_schedule schedule).normalize
      unfold step
      dsimp only
      cases st.before with
      | none => exact hnext
      | some before => exact hnext
  | evaluateRestored schedule => exact ⟨_, (h.planned_schedule schedule).normalize⟩

/-- The users after a run. -/
theorem represents_run (events : List Event) :
    ∃ plan, Represents (runEvents events).fslist (events.flatMap Event.counted) plan := by
  induction events using List.reverseRecOn with
  | nil =>
      refine ⟨[], List.nodup_nil, fun account => Iff.rfl, ?_, ?_, ?_⟩
      all_goals
        intro x hx
        cases hx
  | append_singleton events event ih =>
      obtain ⟨plan, h⟩ := ih
      rw [List.flatMap_append, List.flatMap_singleton]
      unfold runEvents
      rw [List.foldl_append]
      exact represents_step h event

/-! ## The fairness -/

/-- Numbers all equal to the one above their mean do not exist. -/
theorem fairshareResultMax_pos {fslist : List UserInfo} (h : fslist ≠ []) :
    0 < fairshareResultMax fslist := by
  unfold fairshareResultMax
  dsimp only
  set values := (normalizeUsers fslist).map UserInfo.normalizedMaxValue with hvalues
  set uwt := values.sum / fslist.length with huwt
  have hlength : values.length = fslist.length := by
    rw [hvalues]
    unfold normalizeUsers
    rw [List.length_map, List.length_map]
  have hpos : (0 : ℚ) < fslist.length := by
    exact_mod_cast List.length_pos_of_ne_nil h
  have hsquares : ∀ x ∈ values.map (fun value => (1 + uwt - value) * (1 + uwt - value)), 0 ≤ x := by
    intro x hx
    obtain ⟨value, _, rfl⟩ := List.mem_map.mp hx
    exact mul_self_nonneg _
  refine lt_of_le_of_ne (List.sum_nonneg hsquares) (Ne.symm ((sum_ne_zero_iff hsquares).mpr ?_))
  by_contra hzero
  push Not at hzero
  -- then all values are one more than their mean
  have hall : ∀ value ∈ values, value = 1 + uwt := by
    intro value hvalue
    have := mul_self_eq_zero.mp (hzero _ (List.mem_map_of_mem hvalue))
    linarith
  have hsum : values.sum = fslist.length * (1 + uwt) := by
    rw [List.sum_eq_card_nsmul values _ hall, hlength, nsmul_eq_mul]
  have hmean : fslist.length * uwt = values.sum := by
    rw [huwt]
    field_simp
  rw [mul_add, mul_one, hmean] at hsum
  linarith

/-! ## The criteria -/

/-- The queued jobs of a schedule. -/
def queuedJobs (schedule : List EvaluatedPlan) : List EvaluatedJob :=
  schedule.flatMap (fun plan => plan.jobs.filter (fun job => job.jinfo.state = .queued))

/-- An evaluation with the sums of these jobs added to another. -/
structure AddedTo (res : PlanEval) (jobs : List EvaluatedJob) (evaluation : PlanEval) : Prop where
  numJobs : evaluation.numJobs = res.numJobs + jobs.length
  response : evaluation.sumResponseTime
    = res.sumResponseTime + (jobs.map (fun job => jobResponseTime job false)).sum
  wait : evaluation.sumWaitTime = res.sumWaitTime + (jobs.map jobWaitTime).sum
  slowdown : evaluation.sumSlowdown
    = res.sumSlowdown + (jobs.map (fun job => jobSlowdownTime job false)).sum
  criteria : evaluation.responseTime = res.responseTime ∧ evaluation.waitTime = res.waitTime ∧
    evaluation.slowdown = res.slowdown

/-- No jobs. -/
theorem AddedTo.nil (res : PlanEval) : AddedTo res [] res :=
  ⟨rfl, (add_zero _).symm, (add_zero _).symm, (add_zero _).symm, rfl, rfl, rfl⟩

/-- One job. -/
theorem addedTo_addJob (res : PlanEval) (job : EvaluatedJob) :
    AddedTo res [job] (evaluationAddJob res job false) := by
  refine ⟨rfl, ?_, ?_, ?_, rfl, rfl, rfl⟩ <;> rw [List.map_singleton, List.sum_singleton] <;> rfl

/-- Jobs after jobs. -/
theorem AddedTo.trans {res mid last : PlanEval} {jobs jobs' : List EvaluatedJob}
    (h : AddedTo res jobs mid) (h' : AddedTo mid jobs' last) :
    AddedTo res (jobs ++ jobs') last := by
  refine ⟨?_, ?_, ?_, ?_, ?_, ?_, ?_⟩
  · rw [h'.numJobs, h.numJobs, List.length_append, Nat.add_assoc]
  · rw [h'.response, h.response, List.map_append, List.sum_append, add_assoc]
  · rw [h'.wait, h.wait, List.map_append, List.sum_append, add_assoc]
  · rw [h'.slowdown, h.slowdown, List.map_append, List.sum_append, add_assoc]
  · rw [h'.criteria.1, h.criteria.1]
  · rw [h'.criteria.2.1, h.criteria.2.1]
  · rw [h'.criteria.2.2, h.criteria.2.2]

/-- The jobs of one plan. -/
theorem addedTo_plan (res : PlanEval) (plan : EvaluatedPlan) :
    AddedTo res (plan.jobs.filter (fun job => job.jinfo.state = .queued))
      (evaluatePlan res plan) := by
  have hjobs : ∀ (jobs : List EvaluatedJob) (res : PlanEval),
      AddedTo res (jobs.filter (fun job => job.jinfo.state = .queued))
        (jobs.foldl (fun res job =>
          if job.jinfo.state = .queued then evaluationAddJob res job false else res) res) := by
    intro jobs
    induction jobs with
    | nil => exact fun res => AddedTo.nil res
    | cons job jobs ih =>
        intro res
        rw [List.foldl_cons]
        by_cases hstate : job.jinfo.state = .queued
        · rw [List.filter_cons_of_pos (by simpa using hstate), if_pos hstate]
          exact (addedTo_addJob res job).trans (ih _)
        · rw [List.filter_cons_of_neg (by simpa using hstate), if_neg hstate]
          exact ih res
  have hstart : AddedTo res [] { res with endTime := plan.lastGapStart } :=
    ⟨rfl, (add_zero _).symm, (add_zero _).symm, (add_zero _).symm, rfl, rfl, rfl⟩
  exact hstart.trans (hjobs plan.jobs _)

/-- The jobs of a schedule. -/
theorem addedTo_schedule (schedule : List EvaluatedPlan) : ∀ res : PlanEval,
    AddedTo res (queuedJobs schedule) (schedule.foldl evaluatePlan res) := by
  induction schedule with
  | nil => exact fun res => AddedTo.nil res
  | cons plan schedule ih => exact fun res => (addedTo_plan res plan).trans (ih _)

/-- The criteria of a schedule are the means over its queued jobs. -/
theorem evaluateSchedule_criteria (fslist : List UserInfo) (schedule : List EvaluatedPlan) :
    (evaluateSchedule fslist schedule).2.slowdown
        = ((queuedJobs schedule).map (fun job => jobSlowdownTime job false)).sum
          / (queuedJobs schedule).length ∧
      (evaluateSchedule fslist schedule).2.waitTime
        = ((queuedJobs schedule).map jobWaitTime).sum / (queuedJobs schedule).length ∧
      (evaluateSchedule fslist schedule).2.responseTime
        = ((queuedJobs schedule).map (fun job => jobResponseTime job false)).sum
          / (queuedJobs schedule).length ∧
      (evaluateSchedule fslist schedule).2.fairness
        = (fairshareResultMax (fairshareGetPlannedFromSchedule fslist schedule) : ℝ) := by
  have hadded := addedTo_schedule schedule evaluationReset
  have hnum : (schedule.foldl evaluatePlan evaluationReset).numJobs
      = (queuedJobs schedule).length := by
    rw [hadded.numJobs]
    exact Nat.zero_add _
  unfold evaluateSchedule evaluationCalcCriterion
  dsimp only
  split
  · rw [hadded.slowdown, hadded.wait, hadded.response, hnum]
    refine ⟨?_, ?_, ?_, rfl⟩ <;> exact congrArg (· / _) (zero_add _)
  · next hnone =>
      have hempty : queuedJobs schedule = [] := by
        rw [← List.length_eq_zero_iff, ← hnum]
        omega
      obtain ⟨hresponse, hwait, hslowdown⟩ := hadded.criteria
      rw [hempty, List.map_nil, List.map_nil, List.map_nil, List.sum_nil, zero_div]
      exact ⟨hslowdown, hwait, hresponse, rfl⟩

/-! ## The property and the condition -/

/-- No user has a zero divisor. -/
def UsersDivide (fslist : List UserInfo) : Prop := ∀ user ∈ fslist, user.totalFu ≠ 0

/-- The criteria by which the changes are divided are not zero. -/
def CriteriaDivide (before : PlanEval) : Prop :=
  before.slowdown ≠ 0 ∧ before.waitTime ≠ 0 ∧ before.responseTime ≠ 0 ∧ before.fairness ≠ 0

/-- Nothing is divided by zero in an event. -/
def NeverByZero (st : EvaluationState) : Event → Prop
  | .jobReported _ _ _ => True
  | .evaluateBefore schedule => UsersDivide (fairshareGetPlannedFromSchedule st.fslist schedule)
  | .evaluateAfter schedule => UsersDivide (fairshareGetPlannedFromSchedule st.fslist schedule) ∧
      ∀ before ∈ st.before, CriteriaDivide before.2
  | .evaluateRestored schedule =>
      UsersDivide (fairshareGetPlannedFromSchedule st.fslist schedule)

/-- Nothing is divided by zero in a run. -/
def RunsWithoutZero (events : List Event) : Prop :=
  ∀ done event rest, events = done ++ event :: rest → NeverByZero (runEvents done) event

/-- The work of each user that had a job, completed so far and in the schedule, does not add up
to zero. -/
def UsersWork (history : List CountedJob) (schedule : List EvaluatedPlan) : Prop :=
  ∀ counted ∈ history ++ scheduleJobs schedule,
    totalFor CountedJob.account CountedJob.completedWork counted.account
        (history ++ scheduleJobs schedule)
      + totalFor CountedJob.account CountedJob.plannedWork counted.account
        (scheduleJobs schedule) ≠ 0

/-- The slowdowns of the queued jobs do not add up to zero, nor do their waits and their response
times. -/
def JobsWait (schedule : List EvaluatedPlan) : Prop :=
  ((queuedJobs schedule).map (fun job => jobSlowdownTime job false)).sum ≠ 0 ∧
    ((queuedJobs schedule).map jobWaitTime).sum ≠ 0 ∧
    ((queuedJobs schedule).map (fun job => jobResponseTime job false)).sum ≠ 0

/-- The condition on an event, after the jobs counted so far and with the schedule that
`evaluation_before` is of. -/
def EventMeets (history : List CountedJob) (before : Option (List EvaluatedPlan)) :
    Event → Prop
  | .jobReported _ _ _ => True
  | .evaluateBefore schedule => UsersWork history schedule
  | .evaluateAfter schedule => UsersWork history schedule ∧ ∀ moved ∈ before, JobsWait moved
  | .evaluateRestored schedule => UsersWork history schedule

/-- The condition on a run. -/
def RunMeets (events : List Event) : Prop :=
  ∀ done event rest, events = done ++ event :: rest →
    EventMeets (done.flatMap Event.counted) ((runEvents done).before.map Prod.fst) event

/-! ## Runs -/

/-- The divisors of the users, from their jobs. -/
theorem usersDivide_iff {fslist : List UserInfo} {history plan : List CountedJob}
    (h : Represents fslist history plan) (schedule : List EvaluatedPlan) :
    UsersDivide (fairshareGetPlannedFromSchedule fslist schedule) ↔ UsersWork history schedule := by
  have hplanned := h.planned_schedule schedule
  have htotal : ∀ user ∈ fairshareGetPlannedFromSchedule fslist schedule, user.totalFu
      = totalFor CountedJob.account CountedJob.completedWork user.account
          (history ++ scheduleJobs schedule)
        + totalFor CountedJob.account CountedJob.plannedWork user.account
          (scheduleJobs schedule) := by
    intro user huser
    unfold UserInfo.totalFu
    rw [hplanned.completed user huser, hplanned.planned user huser]
  constructor
  · intro hdivide counted hcounted
    have haccount := (hplanned.accounts counted.account).mpr (List.mem_map_of_mem hcounted)
    obtain ⟨user, huser, hsame⟩ := List.mem_map.mp haccount
    rw [← hsame, ← htotal user huser]
    exact hdivide user huser
  · intro hwork user huser
    obtain ⟨counted, hcounted, hsame⟩ := List.mem_map.mp
      ((hplanned.accounts user.account).mp (List.mem_map_of_mem huser))
    rw [htotal user huser, ← hsame]
    exact hwork counted hcounted

/-- The divisors of the criteria, from the queued jobs. -/
theorem criteriaDivide_iff {fslist : List UserInfo} {history plan : List CountedJob}
    (h : Represents fslist history plan) (schedule : List EvaluatedPlan) :
    CriteriaDivide (evaluateSchedule fslist schedule).2 ↔ JobsWait schedule := by
  obtain ⟨hslowdown, hwait, hresponse, hfairness⟩ := evaluateSchedule_criteria fslist schedule
  unfold CriteriaDivide JobsWait
  rw [hslowdown, hwait, hresponse, hfairness, div_ne_zero_iff, div_ne_zero_iff, div_ne_zero_iff]
  constructor
  · rintro ⟨hs, hw, hr, _⟩
    exact ⟨hs.1, hw.1, hr.1⟩
  · rintro ⟨hs, hw, hr⟩
    obtain ⟨job, queued, hqueued⟩ : ∃ job queued, queuedJobs schedule = job :: queued := by
      refine List.exists_cons_of_ne_nil ?_
      intro hempty
      rw [hempty] at hw
      exact hw rfl
    have hlength : ((queuedJobs schedule).length : ℝ) ≠ 0 := by
      rw [hqueued, List.length_cons]
      exact Nat.cast_ne_zero.mpr (Nat.succ_ne_zero _)
    refine ⟨⟨hs, hlength⟩, ⟨hw, hlength⟩, ⟨hr, hlength⟩, ?_⟩
    -- the user of a queued job is known, and then the fairness is positive
    have hmem : job ∈ queuedJobs schedule := hqueued ▸ List.mem_cons_self
    obtain ⟨plan', hplan', hjob⟩ := List.mem_flatMap.mp hmem
    have hcounted : (⟨job, plan'.numRunningCpus, plan'.availableRam⟩ : CountedJob)
        ∈ history ++ scheduleJobs schedule :=
      List.mem_append_right _ (List.mem_flatMap.mpr ⟨plan', hplan',
        List.mem_map.mpr ⟨job, List.mem_of_mem_filter hjob, rfl⟩⟩)
    have haccount := ((h.planned_schedule schedule).accounts _).mpr (List.mem_map_of_mem hcounted)
    obtain ⟨user, huser, _⟩ := List.mem_map.mp haccount
    have hpos := fairshareResultMax_pos (List.ne_nil_of_mem huser)
    exact_mod_cast (ne_of_gt hpos)

/-- `evaluation_before` is the evaluation of its schedule. -/
theorem before_run (events : List Event) : ∀ before ∈ (runEvents events).before,
    ∃ fslist history plan, Represents fslist history plan ∧
      before.2 = (evaluateSchedule fslist before.1).2 := by
  induction events using List.reverseRecOn with
  | nil =>
      intro before hbefore
      cases hbefore
  | append_singleton events event ih =>
      obtain ⟨plan, hrepresents⟩ := represents_run events
      have hstep : runEvents (events ++ [event]) = step (runEvents events) event := by
        unfold runEvents
        rw [List.foldl_append]
        rfl
      rw [hstep]
      intro before hbefore
      unfold step at hbefore
      -- only the two evaluations touch `evaluation_before`
      cases event with
      | jobReported job numRunningCpus availableRam =>
          dsimp only at hbefore
          split at hbefore
          · exact ih before hbefore
          · exact ih before hbefore
      | evaluateBefore schedule =>
          cases hbefore
          exact ⟨_, _, plan, hrepresents, rfl⟩
      | evaluateAfter schedule =>
          dsimp only at hbefore
          cases hold : (runEvents events).before with
          | none =>
              rw [hold] at hbefore
              cases hbefore
          | some old =>
              rw [hold] at hbefore
              dsimp only at hbefore
              split at hbefore
              · cases hbefore
                exact ⟨_, _, plan, hrepresents, rfl⟩
              · cases hbefore
                exact ih _ hold
      | evaluateRestored schedule => exact ih before hbefore

/-- What an event divides by, after any run. -/
theorem neverByZero_iff (done : List Event) (event : Event) :
    NeverByZero (runEvents done) event ↔
      EventMeets (done.flatMap Event.counted) ((runEvents done).before.map Prod.fst) event := by
  obtain ⟨plan, hrepresents⟩ := represents_run done
  cases event with
  | jobReported job numRunningCpus availableRam => exact Iff.rfl
  | evaluateBefore schedule => exact usersDivide_iff hrepresents schedule
  | evaluateRestored schedule => exact usersDivide_iff hrepresents schedule
  | evaluateAfter schedule =>
      refine and_congr (usersDivide_iff hrepresents schedule) ?_
      have hbefore := before_run done
      cases hold : (runEvents done).before with
      | none => exact iff_of_true (fun _ h => by cases h) (fun _ h => by cases h)
      | some old =>
          obtain ⟨fslist, history, plan', hold', heq⟩ := hbefore old hold
          have hcriteria := criteriaDivide_iff hold' old.1
          rw [← heq] at hcriteria
          constructor
          · intro h moved hmoved
            cases hmoved
            exact hcriteria.mp (h old rfl)
          · intro h before hbefore
            cases hbefore
            exact hcriteria.mpr (h old.1 rfl)

/-! ## Jobs in order -/

/-- A completed job did not end before its start, another has no negative walltime. -/
def CountedJob.InOrder (counted : CountedJob) : Prop :=
  if counted.IsCompleted then counted.job.startTime ≤ counted.job.complTime
  else 0 ≤ counted.job.estimatedProcessing

/-- A job needs some part of its cluster. -/
theorem partOfCluster_pos {job : EvaluatedJob} {numRunningCpus availableRam : ℤ}
    (h : 0 < numRunningCpus) : 0 < partOfCluster job numRunningCpus availableRam := by
  have hcpus : (0 : ℚ) < numRunningCpus := by exact_mod_cast h
  have hneeds : (0 : ℚ) < (job.reqPpn * job.reqNumNodes : ℕ) := by
    exact_mod_cast Nat.mul_pos job.reqPpn_pos job.reqNumNodes_pos
  unfold partOfCluster
  exact mul_pos (lt_of_lt_of_le (div_pos hneeds hcpus) (le_max_left _ _)) hcpus

/-- Work is something exactly if the cluster and the duration are. -/
theorem CountedJob.work_ne_zero_iff (counted : CountedJob) (duration : ℤ) :
    counted.work duration ≠ 0 ↔ counted.HasCluster ∧ duration ≠ 0 := by
  by_cases h : counted.HasCluster
  · rw [CountedJob.work_eq h, mul_ne_zero_iff, Int.cast_ne_zero]
    exact ⟨fun hwork => ⟨h, hwork.2⟩, fun hwork => ⟨(partOfCluster_pos h.1).ne', hwork.2⟩⟩
  · rw [CountedJob.work_eq_zero h]
    exact iff_of_false (fun hne => hne rfl) (fun hwork => h hwork.1)

/-- Work over a duration that is not negative. -/
theorem CountedJob.work_nonneg (counted : CountedJob) {duration : ℤ} (h : 0 ≤ duration) :
    0 ≤ counted.work duration := by
  unfold CountedJob.work
  split
  · next hcluster =>
      exact mul_nonneg (partOfCluster_pos hcluster.1).le (by exact_mod_cast h)
  · exact le_rfl

/-- In order, the work of a completed job is something exactly if it took time. -/
theorem CountedJob.completedWork_spec {counted : CountedJob} (horder : counted.InOrder) :
    0 ≤ counted.completedWork ∧
      (counted.completedWork ≠ 0 ↔ counted.HasCluster ∧ counted.IsCompleted ∧
        counted.job.startTime < counted.job.complTime) := by
  unfold CountedJob.InOrder at horder
  unfold CountedJob.completedWork
  by_cases hstate : counted.IsCompleted
  · rw [if_pos hstate] at horder ⊢
    rw [CountedJob.work_ne_zero_iff]
    refine ⟨counted.work_nonneg (by omega), ?_⟩
    constructor
    · rintro ⟨hcluster, hne⟩
      exact ⟨hcluster, hstate, by omega⟩
    · rintro ⟨hcluster, _, hlt⟩
      exact ⟨hcluster, by omega⟩
  · rw [if_neg hstate]
    exact ⟨le_rfl, iff_of_false (fun hne => hne rfl) (fun hall => hstate hall.2.1)⟩

/-- In order, the work of a planned job is something exactly if it is estimated to take time. -/
theorem CountedJob.plannedWork_spec {counted : CountedJob} (horder : counted.InOrder) :
    0 ≤ counted.plannedWork ∧
      (counted.plannedWork ≠ 0 ↔ counted.HasCluster ∧ ¬ counted.IsCompleted ∧
        0 < counted.job.estimatedProcessing) := by
  unfold CountedJob.InOrder at horder
  unfold CountedJob.plannedWork
  by_cases hstate : counted.IsCompleted
  · rw [if_pos hstate]
    exact ⟨le_rfl, iff_of_false (fun hne => hne rfl) (fun hall => hall.2.1 hstate)⟩
  · rw [if_neg hstate] at horder ⊢
    rw [CountedJob.work_ne_zero_iff]
    refine ⟨counted.work_nonneg horder, ?_⟩
    constructor
    · rintro ⟨hcluster, hne⟩
      exact ⟨hcluster, hstate, by omega⟩
    · rintro ⟨hcluster, _, hlt⟩
      exact ⟨hcluster, by omega⟩

/-- In order, the work of a user adds up to something exactly if a job of the user is something:
one that was completed, or one of the schedule. -/
theorem usersWork_iff {history : List CountedJob} {schedule : List EvaluatedPlan}
    (h : ∀ counted ∈ history ++ scheduleJobs schedule, counted.InOrder) :
    UsersWork history schedule ↔ ∀ counted ∈ history ++ scheduleJobs schedule, ∃ other,
      other.account = counted.account ∧ other.HasCluster ∧
      ((other ∈ history ++ scheduleJobs schedule ∧ other.IsCompleted ∧
          other.job.startTime < other.job.complTime) ∨
        (other ∈ scheduleJobs schedule ∧ ¬ other.IsCompleted ∧
          0 < other.job.estimatedProcessing)) := by
  have hcompleted : ∀ counted ∈ history ++ scheduleJobs schedule, 0 ≤ counted.completedWork ∧
      (counted.completedWork ≠ 0 ↔ counted.HasCluster ∧ counted.IsCompleted ∧
        counted.job.startTime < counted.job.complTime) := by
    intro counted hcounted
    exact CountedJob.completedWork_spec (h counted hcounted)
  have hplanned : ∀ counted ∈ scheduleJobs schedule, 0 ≤ counted.plannedWork ∧
      (counted.plannedWork ≠ 0 ↔ counted.HasCluster ∧ ¬ counted.IsCompleted ∧
        0 < counted.job.estimatedProcessing) := by
    intro counted hcounted
    exact CountedJob.plannedWork_spec (h counted (List.mem_append_right _ hcounted))
  -- neither part is negative, so the sum is zero only if both are
  have hsome : ∀ account,
      totalFor CountedJob.account CountedJob.completedWork account
          (history ++ scheduleJobs schedule)
        + totalFor CountedJob.account CountedJob.plannedWork account (scheduleJobs schedule) ≠ 0 ↔
      totalFor CountedJob.account CountedJob.completedWork account
          (history ++ scheduleJobs schedule) ≠ 0 ∨
        totalFor CountedJob.account CountedJob.plannedWork account (scheduleJobs schedule) ≠ 0 := by
    intro account
    have hc : 0 ≤ totalFor CountedJob.account CountedJob.completedWork account
        (history ++ scheduleJobs schedule) :=
      totalFor_nonneg (fun counted hcounted => (hcompleted counted hcounted).1)
    have hp : 0 ≤ totalFor CountedJob.account CountedJob.plannedWork account
        (scheduleJobs schedule) :=
      totalFor_nonneg (fun counted hcounted => (hplanned counted hcounted).1)
    rw [Ne, add_eq_zero_iff_of_nonneg hc hp, not_and_or]
  unfold UsersWork
  refine forall_congr' (fun counted => imp_congr_right (fun _ => ?_))
  rw [hsome, totalFor_ne_zero_iff (fun other hother => (hcompleted other hother).1),
    totalFor_ne_zero_iff (fun other hother => (hplanned other hother).1)]
  constructor
  · rintro (⟨other, hmem, hkey, hne⟩ | ⟨other, hmem, hkey, hne⟩)
    · obtain ⟨hcluster, hdone⟩ := (hcompleted other hmem).2.mp hne
      exact ⟨other, hkey, hcluster, Or.inl ⟨hmem, hdone⟩⟩
    · obtain ⟨hcluster, hdone⟩ := (hplanned other hmem).2.mp hne
      exact ⟨other, hkey, hcluster, Or.inr ⟨hmem, hdone⟩⟩
  · rintro ⟨other, hkey, hcluster, ⟨hmem, hdone⟩ | ⟨hmem, hdone⟩⟩
    · exact Or.inl ⟨other, hmem, hkey, (hcompleted other hmem).2.mpr ⟨hcluster, hdone⟩⟩
    · exact Or.inr ⟨other, hmem, hkey, (hplanned other hmem).2.mpr ⟨hcluster, hdone⟩⟩

/-- The weight of a job is not zero. -/
theorem sqrt_chunks_pos (job : EvaluatedJob) :
    (0 : ℝ) < √((job.reqPpn * job.reqNumNodes : ℕ) : ℝ) := by
  rw [Real.sqrt_pos]
  exact_mod_cast Nat.mul_pos job.reqPpn_pos job.reqNumNodes_pos

/-- In order, a job waits exactly if it does not start when it is submitted. -/
theorem jobWaitTime_spec {job : EvaluatedJob} (hsubmitted : job.qtime ≤ job.startTime) :
    0 ≤ jobWaitTime job ∧ (jobWaitTime job ≠ 0 ↔ job.qtime < job.startTime) := by
  have hdiff : (0 : ℝ) ≤ (job.startTime - job.qtime : ℤ) := by
    exact_mod_cast sub_nonneg.mpr hsubmitted
  unfold jobWaitTime
  refine ⟨mul_nonneg hdiff (sqrt_chunks_pos job).le, ?_⟩
  rw [mul_ne_zero_iff, and_iff_left (sqrt_chunks_pos job).ne', Int.cast_ne_zero]
  omega

/-- In order, a job that waits has a response time. -/
theorem jobResponseTime_spec {job : EvaluatedJob} (hsubmitted : job.qtime ≤ job.startTime)
    (hstarted : job.startTime ≤ job.completionTime) :
    0 ≤ jobResponseTime job false ∧
      (job.qtime < job.startTime → jobResponseTime job false ≠ 0) := by
  have hcompletion : completionOf job false = job.completionTime := rfl
  unfold jobResponseTime
  rw [hcompletion]
  refine ⟨by exact_mod_cast (by omega : (0 : ℤ) ≤ job.completionTime - job.qtime), ?_⟩
  intro hlt
  rw [Int.cast_ne_zero]
  omega

/-- In order, a job that waits has a slowdown. -/
theorem jobSlowdownTime_spec {job : EvaluatedJob} (hsubmitted : job.qtime ≤ job.startTime)
    (hstarted : job.startTime ≤ job.completionTime) :
    0 ≤ jobSlowdownTime job false ∧
      (job.qtime < job.startTime → jobSlowdownTime job false ≠ 0) := by
  have hcompletion : completionOf job false = job.completionTime := rfl
  have hdiff : (0 : ℝ) ≤ (job.completionTime - job.qtime : ℤ) := by
    exact_mod_cast (by omega : (0 : ℤ) ≤ job.completionTime - job.qtime)
  unfold jobSlowdownTime
  dsimp only
  rw [hcompletion]
  split
  · refine ⟨hdiff, ?_⟩
    intro hlt
    rw [Int.cast_ne_zero]
    omega
  · next hlong =>
      have hlength : (0 : ℝ) < (job.completionTime - job.startTime : ℤ) := by
        exact_mod_cast (by omega : (0 : ℤ) < job.completionTime - job.startTime)
      refine ⟨mul_nonneg (div_nonneg hdiff hlength.le) (sqrt_chunks_pos job).le, ?_⟩
      intro hlt
      refine mul_ne_zero (div_ne_zero ?_ hlength.ne') (sqrt_chunks_pos job).ne'
      rw [Int.cast_ne_zero]
      omega

/-- In order, the criteria of a schedule are not zero exactly if one of its queued jobs does not
start when it is submitted. -/
theorem jobsWait_iff {schedule : List EvaluatedPlan}
    (h : ∀ job ∈ queuedJobs schedule, job.qtime ≤ job.startTime ∧
      job.startTime ≤ job.completionTime) :
    JobsWait schedule ↔ ∃ job ∈ queuedJobs schedule, job.qtime < job.startTime := by
  have hwait := fun job hjob => jobWaitTime_spec (h job hjob).1
  have hresponse := fun job hjob => jobResponseTime_spec (h job hjob).1 (h job hjob).2
  have hslowdown := fun job hjob => jobSlowdownTime_spec (h job hjob).1 (h job hjob).2
  have hsum : ∀ value : EvaluatedJob → ℝ, (∀ job ∈ queuedJobs schedule, 0 ≤ value job) →
      (((queuedJobs schedule).map value).sum ≠ 0 ↔
        ∃ job ∈ queuedJobs schedule, value job ≠ 0) := by
    intro value hvalue
    rw [sum_ne_zero_iff]
    · simp only [List.mem_map, exists_exists_and_eq_and]
    · intro x hx
      obtain ⟨job, hjob, rfl⟩ := List.mem_map.mp hx
      exact hvalue job hjob
  unfold JobsWait
  rw [hsum _ (fun job hjob => (hslowdown job hjob).1), hsum _ (fun job hjob => (hwait job hjob).1),
    hsum _ (fun job hjob => (hresponse job hjob).1)]
  constructor
  · rintro ⟨_, ⟨job, hjob, hne⟩, _⟩
    exact ⟨job, hjob, (hwait job hjob).2.mp hne⟩
  · rintro ⟨job, hjob, hlt⟩
    exact ⟨⟨job, hjob, (hslowdown job hjob).2 hlt⟩, ⟨job, hjob, (hwait job hjob).2.mpr hlt⟩,
      ⟨job, hjob, (hresponse job hjob).2 hlt⟩⟩

/-! ## The whole -/

/-- In a run nothing is divided by zero exactly if each of its evaluations meets the condition on
the jobs counted until then; and what the condition says of jobs in order. -/
theorem evaluation_divides_iff (events : List Event) :
    (RunsWithoutZero events ↔ RunMeets events) ∧
    (∀ history schedule, (∀ counted ∈ history ++ scheduleJobs schedule, counted.InOrder) →
      (UsersWork history schedule ↔ ∀ counted ∈ history ++ scheduleJobs schedule, ∃ other,
        other.account = counted.account ∧ other.HasCluster ∧
        ((other ∈ history ++ scheduleJobs schedule ∧ other.IsCompleted ∧
            other.job.startTime < other.job.complTime) ∨
          (other ∈ scheduleJobs schedule ∧ ¬ other.IsCompleted ∧
            0 < other.job.estimatedProcessing)))) ∧
    (∀ schedule, (∀ job ∈ queuedJobs schedule, job.qtime ≤ job.startTime ∧
        job.startTime ≤ job.completionTime) →
      (JobsWait schedule ↔ ∃ job ∈ queuedJobs schedule, job.qtime < job.startTime)) := by
  refine ⟨?_, fun history schedule h => usersWork_iff h, fun schedule h => jobsWait_iff h⟩
  unfold RunsWithoutZero RunMeets
  refine forall_congr' (fun done => forall_congr' (fun event => forall_congr' (fun rest => ?_)))
  exact imp_congr_right (fun _ => neverByZero_iff done event)

/-- A queued job that needs a CPU for a hundred seconds. -/
def shortJob (account : String) : EvaluatedJob where
  ptr := 1
  jobId := 1
  jinfo := { jobId := "1.server", account := account, group := "", queue := 0, state := .queued,
             priority := 0, stime := 0, isExclusive := false, scratchLocal := 0, resreq := [] }
  startTime := 50
  completionTime := 150
  estimatedProcessing := 100
  availableAfter := 0
  usage := 1
  reqPpn := 1
  reqNumNodes := 1
  reqMem := 1
  reqScratchLocal := 0
  reqGpu := 0
  ninfoArr := []
  fixedNnameArr := []
  cpuIndexes := []
  latestNcpuIndex := []
  accountId := 0
  reqPpn_pos := Nat.one_pos
  reqNumNodes_pos := Nat.one_pos
  qtime := 0
  complTime := 0
  usedWalltime := none

/-- Two users have a job each in a plan, and in the next evaluation the job of one of them is no
longer there: it has no usage. -/
theorem removedJob_divides_by_zero : ¬ RunsWithoutZero
    [.evaluateBefore [⟨4, 8, 150, [shortJob "a", shortJob "b"]⟩],
      .evaluateBefore [⟨4, 8, 150, [shortJob "b"]⟩]] := by
  intro h
  have hsecond := h [.evaluateBefore [⟨4, 8, 150, [shortJob "a", shortJob "b"]⟩]] _ [] rfl
  have husers : ∀ user ∈ fairshareGetPlannedFromSchedule (normalizeUsers
      (fairshareGetPlannedFromSchedule [] [⟨4, 8, 150, [shortJob "a", shortJob "b"]⟩]))
      [⟨4, 8, 150, [shortJob "b"]⟩], user.totalFu ≠ 0 := hsecond
  revert husers
  decide +kernel

end PlanSched.Evaluation
