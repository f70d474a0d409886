/-
# Evaluating a schedule

Models the evaluation of `plan_optimization`: the list of users and their usage
(`plan_fairshare.cpp`), the criteria of a schedule (`plan_evaluation.cpp`), and the
comparison of two evaluations.

The list of users lives as long as the scheduler: a user is added with the first of its
jobs that is completed or planned, and stays.  The planned values are reset and filled again
from the schedule at every evaluation.  The numbers are exact, with the real square root, and
`normalized_user_waittime`, which belongs to a criterion that is not used, is left out.
-/
import PlanSched.DataTypes
import PlanSched.KeyedRecords

namespace PlanSched.Evaluation

open KeyedRecords

/-! ## Jobs and schedules -/

/-- `plan_job`, with the times of its `jinfo` and the walltime it used. -/
structure EvaluatedJob extends PlanJob where
  qtime : ℤ
  complTime : ℤ
  usedWalltime : Option ℤ

/-- What is read of a cluster and its plan; `lastGapStart` is the start of its last gap. -/
structure EvaluatedPlan where
  numRunningCpus : ℤ
  availableRam : ℤ
  lastGapStart : ℤ
  jobs : List EvaluatedJob

/-! ## The users -/

/-- `user_info`. -/
structure UserInfo where
  account : String
  completedCputime : ℤ
  completedWaittime : ℤ
  numCompletedJobs : ℕ
  plannedCputime : ℤ
  plannedWaittime : ℤ
  numPlannedJobs : ℕ
  completedFu : ℚ
  plannedFu : ℚ
  normalizedMaxValue : ℚ
  deriving DecidableEq, Repr

/-- `fairshare_add_user`: the new entry. -/
def fairshareAddUser (account : String) : UserInfo := ⟨account, 0, 0, 0, 0, 0, 0, 0, 0, 0⟩

/-- `Pj`: the part of the cluster a job needs, in CPUs. -/
def partOfCluster (job : EvaluatedJob) (numRunningCpus availableRam : ℤ) : ℚ :=
  let res1 : ℚ := (job.reqPpn * job.reqNumNodes : ℕ) / numRunningCpus
  let res2 : ℚ := (job.reqMem * job.reqNumNodes : ℤ) / availableRam
  max res1 res2 * numRunningCpus

/-- The search for the user, who is added if need be, and the values, which are added if the
cluster has CPUs and memory. -/
def addValues (fslist : List UserInfo) (account : String) (numRunningCpus availableRam : ℤ)
    (add : UserInfo → UserInfo) : List UserInfo :=
  upsert UserInfo.account fairshareAddUser account
    (fun user => if 0 < numRunningCpus ∧ 0 < availableRam then add user else user) fslist

/-- `fairshare_add_completed_values`. -/
def fairshareAddCompletedValues (fslist : List UserInfo) (job : EvaluatedJob)
    (completedCputime completedWaittime numRunningCpus availableRam : ℤ) : List UserInfo :=
  addValues fslist job.jinfo.account numRunningCpus availableRam (fun user =>
    { user with
      completedFu := user.completedFu
        + partOfCluster job numRunningCpus availableRam * (job.complTime - job.startTime : ℤ)
      completedCputime := user.completedCputime + completedCputime
      completedWaittime := user.completedWaittime + completedWaittime
      numCompletedJobs := user.numCompletedJobs + 1 })

/-- `fairshare_add_planned_values`. -/
def fairshareAddPlannedValues (fslist : List UserInfo) (job : EvaluatedJob)
    (plannedWaittime plannedCputime numRunningCpus availableRam : ℤ) : List UserInfo :=
  addValues fslist job.jinfo.account numRunningCpus availableRam (fun user =>
    { user with
      plannedFu := user.plannedFu
        + partOfCluster job numRunningCpus availableRam * job.estimatedProcessing
      plannedCputime := user.plannedCputime + plannedCputime
      plannedWaittime := user.plannedWaittime + plannedWaittime
      numPlannedJobs := user.numPlannedJobs + 1 })

/-- `fairshare_add_job`. -/
def fairshareAddJob (fslist : List UserInfo) (job : EvaluatedJob)
    (numRunningCpus availableRam : ℤ) : List UserInfo :=
  let waittime := job.startTime - job.qtime
  if job.jinfo.state = .completed then
    let completedCputime := match job.usedWalltime with
      | some used => used * job.reqPpn * job.reqNumNodes
      | none => 0
    fairshareAddCompletedValues fslist job completedCputime waittime numRunningCpus availableRam
  else
    fairshareAddPlannedValues fslist job waittime
      (job.estimatedProcessing * job.reqPpn * job.reqNumNodes) numRunningCpus availableRam

/-- `fairshare_reset_planned_values`. -/
def fairshareResetPlannedValues (fslist : List UserInfo) : List UserInfo :=
  fslist.map (fun user =>
    { user with plannedCputime := 0, plannedWaittime := 0, plannedFu := 0, numPlannedJobs := 0 })

/-- `fairshare_get_planned_from_schedule`. -/
def fairshareGetPlannedFromSchedule (fslist : List UserInfo) (schedule : List EvaluatedPlan) :
    List UserInfo :=
  schedule.foldl (fun fslist plan => plan.jobs.foldl (fun fslist job =>
      fairshareAddJob fslist job plan.numRunningCpus plan.availableRam) fslist)
    (fairshareResetPlannedValues fslist)

/-- The divisor of a user. -/
def UserInfo.totalFu (user : UserInfo) : ℚ := user.completedFu + user.plannedFu

/-- The loop that sets the normalized values. -/
def normalizeUsers (fslist : List UserInfo) : List UserInfo :=
  fslist.map (fun user =>
    { user with
      normalizedMaxValue :=
        (user.completedWaittime + user.plannedWaittime : ℤ) / user.totalFu })

/-- `fairshare_result_max`: its result; it leaves `normalizeUsers fslist`. -/
def fairshareResultMax (fslist : List UserInfo) : ℚ :=
  let values := (normalizeUsers fslist).map UserInfo.normalizedMaxValue
  let uwt := values.sum / fslist.length
  (values.map (fun value => (1 + uwt - value) * (1 + uwt - value))).sum

/-! ## The criteria -/

/-- `plan_eval`. -/
structure PlanEval where
  startTime : ℤ
  endTime : ℤ
  numJobs : ℕ
  responseTime : ℝ
  waitTime : ℝ
  slowdown : ℝ
  sumResponseTime : ℝ
  sumWaitTime : ℝ
  sumSlowdown : ℝ
  fairness : ℝ

section criteria

variable (job : EvaluatedJob)

/-- The time a job is completed: the real one or the planned one. -/
def completionOf (real : Bool) : ℤ := if real then job.complTime else job.completionTime

/-- `job_response_time`. -/
noncomputable def jobResponseTime (real : Bool) : ℝ := (completionOf job real - job.qtime : ℤ)

/-- `job_wait_time`. -/
noncomputable def jobWaitTime : ℝ :=
  (job.startTime - job.qtime : ℤ) * √((job.reqPpn * job.reqNumNodes : ℕ) : ℝ)

/-- `job_slowdown_time`. -/
noncomputable def jobSlowdownTime (real : Bool) : ℝ :=
  let completionTime := completionOf job real
  if completionTime - job.startTime < 1 then ((completionTime - job.qtime : ℤ) : ℝ)
  else (completionTime - job.qtime : ℤ) / (completionTime - job.startTime : ℤ)
    * √((job.reqPpn * job.reqNumNodes : ℕ) : ℝ)

end criteria

/-- `evaluation_reset`. -/
noncomputable def evaluationReset : PlanEval := ⟨0, 0, 0, 0, 0, 0, 0, 0, 0, 0⟩

/-- `evaluation_add_job`. -/
noncomputable def evaluationAddJob (evaluation : PlanEval) (job : EvaluatedJob)
    (jobfinished : Bool) : PlanEval :=
  let completionTime := completionOf job jobfinished
  { evaluation with
    startTime := if evaluation.startTime = 0 ∨ job.startTime < evaluation.startTime
      then job.startTime else evaluation.startTime
    endTime := if evaluation.endTime < completionTime then completionTime
      else evaluation.endTime
    sumResponseTime := evaluation.sumResponseTime + jobResponseTime job jobfinished
    sumSlowdown := evaluation.sumSlowdown + jobSlowdownTime job jobfinished
    sumWaitTime := evaluation.sumWaitTime + jobWaitTime job
    numJobs := evaluation.numJobs + 1 }

/-- `evaluation_calc_criterion`. -/
noncomputable def evaluationCalcCriterion (evaluation : PlanEval) : PlanEval :=
  if 0 < evaluation.numJobs then
    { evaluation with
      responseTime := evaluation.sumResponseTime / evaluation.numJobs
      slowdown := evaluation.sumSlowdown / evaluation.numJobs
      waitTime := evaluation.sumWaitTime / evaluation.numJobs }
  else { evaluation with startTime := 0, endTime := 0 }

/-- The queued jobs of a plan, as the loop of `evaluate_schedule` adds them. -/
noncomputable def evaluatePlan (res : PlanEval) (plan : EvaluatedPlan) : PlanEval :=
  plan.jobs.foldl
    (fun res job => if job.jinfo.state = .queued then evaluationAddJob res job false else res)
    { res with endTime := plan.lastGapStart }

/-- `evaluate_schedule`: the users and the evaluation. -/
noncomputable def evaluateSchedule (fslist : List UserInfo) (schedule : List EvaluatedPlan) :
    List UserInfo × PlanEval :=
  let res := schedule.foldl evaluatePlan evaluationReset
  let fslist := fairshareGetPlannedFromSchedule fslist schedule
  (normalizeUsers fslist,
    evaluationCalcCriterion { res with fairness := (fairshareResultMax fslist : ℝ) })

/-! ## The comparison -/

/-- The relative change of a criterion, with its factor. -/
noncomputable def weight (factor before after : ℝ) : ℝ := factor * (before - after) / before

/-- The attempt is kept: the sum of the four weights is positive. -/
def IsBetter (before after : PlanEval) : Prop :=
  0 < weight 1 before.slowdown after.slowdown + weight 1 before.waitTime after.waitTime
    + weight 0 before.responseTime after.responseTime
    + weight 10 before.fairness after.fairness

/-! ## Runs -/

/-- What happens to the list of users: a job of the plan is found in the report of the server,
and the evaluations of `plan_optimization`, before the attempts, after one and, if that one was
undone, once more. -/
inductive Event where
  | jobReported (job : EvaluatedJob) (numRunningCpus availableRam : ℤ)
  | evaluateBefore (schedule : List EvaluatedPlan)
  | evaluateAfter (schedule : List EvaluatedPlan)
  | evaluateRestored (schedule : List EvaluatedPlan)

/-- The users, and `evaluation_before` with the schedule it is of. -/
structure EvaluationState where
  fslist : List UserInfo
  before : Option (List EvaluatedPlan × PlanEval)

open Classical in
/-- One event. -/
noncomputable def step (st : EvaluationState) : Event → EvaluationState
  | .jobReported job numRunningCpus availableRam =>
      if job.jinfo.state = .completed then
        { st with fslist := fairshareAddJob st.fslist job numRunningCpus availableRam }
      else st
  | .evaluateBefore schedule =>
      let evaluated := evaluateSchedule st.fslist schedule
      ⟨evaluated.1, some (schedule, evaluated.2)⟩
  | .evaluateAfter schedule =>
      let evaluated := evaluateSchedule st.fslist schedule
      match st.before with
      | none => ⟨evaluated.1, none⟩
      | some before => ⟨evaluated.1,
          if IsBetter before.2 evaluated.2 then some (schedule, evaluated.2) else some before⟩
  | .evaluateRestored schedule =>
      { st with fslist := (evaluateSchedule st.fslist schedule).1 }

/-- A run from the start of the scheduler, when no user is known. -/
noncomputable def runEvents (events : List Event) : EvaluationState :=
  events.foldl step ⟨[], none⟩

end PlanSched.Evaluation
