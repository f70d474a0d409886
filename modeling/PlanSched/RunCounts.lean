/-
# Running jobs and cores, counted on demand

Models `update_on_job_run` of `server_info` and of `queue_info`, the queries of their run
counters (`ServerInfo.cpp`, `queue_info.cpp`) and the loops of `check.cpp` they count with.

* The server answers every query with the number of its running jobs, in whatever order jobs are
  started and queries are made (`RunCounters.answers_serverCounts`).
* The queue looks the cores of a user or group up in the table of the cores and enters what it
  counts in the table of the jobs.  The queries go wrong exactly for an account whose jobs and
  cores differ in number, whose cores are asked for before one of its jobs is started, and whose
  jobs are asked for as well (`QueueCounters.answers_exact_iff`).

The resources a started job takes from the server and from its nodes, and `sc.queued`, are left
out.  Sums of cores are unbounded.
-/
import PlanSched.RunChecks
import PlanSched.LazyCache

namespace PlanSched

open LazyCache

/-! ## Accounts -/

/-- What jobs are counted for. -/
inductive JobOwner : Type where
  | user (username : String)
  | group (groupname : String)
  deriving DecidableEq, Repr

/-- The job is counted for the account. -/
def JobOwner.holds : JobOwner → JobInfo → Bool
  | user username, j => j.account == username
  | group groupname, j => j.group == groupname

/-- `count_by_user` and `count_by_group`. -/
def JobOwner.countJobs : JobOwner → List JobInfo → ℤ
  | user username, jobs => countByUser jobs username
  | group groupname, jobs => countByGroup jobs groupname

/-- Both loops count the jobs of the account. -/
theorem JobOwner.countJobs_eq (a : JobOwner) (jobs : List JobInfo) :
    a.countJobs jobs = (jobs.filter a.holds).length := by
  cases a with
  | user username => rfl
  | group groupname => rfl

/-- One more job counts for its own accounts. -/
theorem JobOwner.countJobs_append (a : JobOwner) (jobs : List JobInfo) (j : JobInfo) :
    a.countJobs (jobs ++ [j]) = a.countJobs jobs + if a.holds j then 1 else 0 := by
  rw [a.countJobs_eq, a.countJobs_eq, List.filter_append, List.length_append]
  by_cases h : a.holds j
  · rw [if_pos h, List.filter_cons_of_pos h]
    simp
  · rw [if_neg h, List.filter_cons_of_neg h]
    simp

/-! ## The server -/

/-- `server_info::update_on_job_run`, and the part of the queue's that is the same. -/
def RunCounters.updateOnJobRun (c : RunCounters) (j : JobInfo) : RunCounters :=
  let runningJobs := c.runningJobs ++ [j]
  { c with
    scRunning := c.scRunning + 1
    runningJobs := runningJobs
    runningJobsByGroup :=
      advance j.group 1 (countByGroup runningJobs j.group) c.runningJobsByGroup
    runningJobsByUser :=
      advance j.account 1 (countByUser runningJobs j.account) c.runningJobsByUser }

/-- The query for an account. -/
def RunCounters.numberOfRunningJobs (c : RunCounters) : JobOwner → ℤ × RunCounters
  | .user username => c.numberOfRunningJobsForUser username
  | .group groupname => c.numberOfRunningJobsForGroup groupname

/-- What is remembered for the account. -/
def RunCounters.cached (c : RunCounters) : JobOwner → Option ℤ
  | .user username => c.runningJobsByUser.lookup username
  | .group groupname => c.runningJobsByGroup.lookup groupname

/-- A query for a user asks the table of the users. -/
theorem numberOfRunningJobsForUser_eq (c : RunCounters) (username : String) :
    c.numberOfRunningJobsForUser username
      = ((ask username (countByUser c.runningJobs username) c.runningJobsByUser).1,
          { c with runningJobsByUser :=
              (ask username (countByUser c.runningJobs username) c.runningJobsByUser).2 }) := by
  unfold RunCounters.numberOfRunningJobsForUser ask
  cases c.runningJobsByUser.lookup username with
  | none => rfl
  | some n => rfl

/-- A query for a group asks the table of the groups. -/
theorem numberOfRunningJobsForGroup_eq (c : RunCounters) (groupname : String) :
    c.numberOfRunningJobsForGroup groupname
      = ((ask groupname (countByGroup c.runningJobs groupname) c.runningJobsByGroup).1,
          { c with runningJobsByGroup :=
              (ask groupname (countByGroup c.runningJobs groupname) c.runningJobsByGroup).2 }) := by
  unfold RunCounters.numberOfRunningJobsForGroup ask
  cases c.runningJobsByGroup.lookup groupname with
  | none => rfl
  | some n => rfl

/-- A query answers what is remembered, or else the count. -/
theorem RunCounters.numberOfRunningJobs_fst (c : RunCounters) (a : JobOwner) :
    (c.numberOfRunningJobs a).1 = (c.cached a).getD (a.countJobs c.runningJobs) := by
  cases a with
  | user username =>
      show (c.numberOfRunningJobsForUser username).1 = _
      rw [numberOfRunningJobsForUser_eq]
      exact ask_fst _ _ _
  | group groupname =>
      show (c.numberOfRunningJobsForGroup groupname).1 = _
      rw [numberOfRunningJobsForGroup_eq]
      exact ask_fst _ _ _

/-- A query leaves the running jobs alone. -/
theorem RunCounters.numberOfRunningJobs_jobs (c : RunCounters) (a : JobOwner) :
    (c.numberOfRunningJobs a).2.runningJobs = c.runningJobs ∧
      (c.numberOfRunningJobs a).2.scRunning = c.scRunning := by
  cases a with
  | user username =>
      show (c.numberOfRunningJobsForUser username).2.runningJobs = _ ∧ _
      rw [RunCounters.numberOfRunningJobs, numberOfRunningJobsForUser_eq]
      exact ⟨rfl, rfl⟩
  | group groupname =>
      show (c.numberOfRunningJobsForGroup groupname).2.runningJobs = _ ∧ _
      rw [RunCounters.numberOfRunningJobs, numberOfRunningJobsForGroup_eq]
      exact ⟨rfl, rfl⟩

/-- A query remembers its answer and nothing else. -/
theorem RunCounters.cached_numberOfRunningJobs (c : RunCounters) (a b : JobOwner) :
    (c.numberOfRunningJobs a).2.cached b
      = if b = a then some ((c.cached a).getD (a.countJobs c.runningJobs)) else c.cached b := by
  cases a with
  | user username =>
      show (c.numberOfRunningJobsForUser username).2.cached b = _
      rw [numberOfRunningJobsForUser_eq]
      cases b with
      | user name =>
          refine (lookup_ask username name _ _).trans ?_
          simp only [JobOwner.user.injEq]
          rfl
      | group name => rw [if_neg JobOwner.noConfusion]; rfl
  | group groupname =>
      show (c.numberOfRunningJobsForGroup groupname).2.cached b = _
      rw [numberOfRunningJobsForGroup_eq]
      cases b with
      | user name => rw [if_neg JobOwner.noConfusion]; rfl
      | group name =>
          refine (lookup_ask groupname name _ _).trans ?_
          simp only [JobOwner.group.injEq]
          rfl

/-- A start raises what is remembered for the accounts of the job, or counts it. -/
theorem RunCounters.cached_updateOnJobRun (c : RunCounters) (j : JobInfo) (a : JobOwner) :
    (c.updateOnJobRun j).cached a
      = if a.holds j then
          some (((c.cached a).map (· + 1)).getD (a.countJobs (c.runningJobs ++ [j])))
        else c.cached a := by
  cases a with
  | user username =>
      exact lookup_advance_count j.account username 1 (countByUser (c.runningJobs ++ [j])) _
  | group groupname =>
      exact lookup_advance_count j.group groupname 1 (countByGroup (c.runningJobs ++ [j])) _

/-! ## Runs of the server -/

/-- The calls of the server's counters. -/
inductive ServerCall : Type where
  | updateOnJobRun (j : JobInfo)
  | numberOfRunningJobs (a : JobOwner)

/-- The answers of the queries of a run. -/
def RunCounters.answers : RunCounters → List ServerCall → List ℤ
  | _, [] => []
  | c, .updateOnJobRun j :: calls => (c.updateOnJobRun j).answers calls
  | c, .numberOfRunningJobs a :: calls =>
      (c.numberOfRunningJobs a).1 :: (c.numberOfRunningJobs a).2.answers calls

/-- The numbers of jobs of the accounts at the queries of a run. -/
def serverCounts : List JobInfo → List ServerCall → List ℤ
  | _, [] => []
  | jobs, .updateOnJobRun j :: calls => serverCounts (jobs ++ [j]) calls
  | jobs, .numberOfRunningJobs a :: calls => a.countJobs jobs :: serverCounts jobs calls

/-- Everything remembered is the number of jobs. -/
def RunCounters.Agrees (c : RunCounters) : Prop :=
  ∀ a n, c.cached a = some n → n = a.countJobs c.runningJobs

/-- A query of agreeing counters is right and keeps them agreeing. -/
theorem RunCounters.Agrees.query {c : RunCounters} (h : c.Agrees) (a : JobOwner) :
    (c.numberOfRunningJobs a).1 = a.countJobs c.runningJobs ∧
      (c.numberOfRunningJobs a).2.Agrees := by
  have hright : (c.cached a).getD (a.countJobs c.runningJobs) = a.countJobs c.runningJobs := by
    cases hcached : c.cached a with
    | none => rfl
    | some n => exact h a n hcached
  refine ⟨(c.numberOfRunningJobs_fst a).trans hright, ?_⟩
  intro b n hn
  rw [c.cached_numberOfRunningJobs, hright] at hn
  rw [(c.numberOfRunningJobs_jobs a).1]
  split at hn
  · next hb =>
      rw [hb]
      exact (Option.some.inj hn).symm
  · exact h b n hn

/-- So does a start: an entry is raised once, a missing one is counted with the job. -/
theorem RunCounters.Agrees.start {c : RunCounters} (h : c.Agrees) (j : JobInfo) :
    (c.updateOnJobRun j).Agrees := by
  intro a n hn
  show n = a.countJobs (c.runningJobs ++ [j])
  rw [c.cached_updateOnJobRun] at hn
  by_cases hj : a.holds j
  · rw [if_pos hj] at hn
    cases hcached : c.cached a with
    | none =>
        rw [hcached] at hn
        exact (Option.some.inj hn).symm
    | some m =>
        rw [hcached] at hn
        rw [a.countJobs_append, if_pos hj, ← h a m hcached]
        exact (Option.some.inj hn).symm
  · rw [if_neg hj] at hn
    rw [a.countJobs_append, if_neg hj, add_zero]
    exact h a n hn

/-- Agreeing counters answer every query of a run right. -/
theorem RunCounters.Agrees.answers {c : RunCounters} (h : c.Agrees) (calls : List ServerCall) :
    c.answers calls = serverCounts c.runningJobs calls := by
  induction calls generalizing c with
  | nil => rfl
  | cons call calls ih =>
      cases call with
      | updateOnJobRun j => exact ih (h.start j)
      | numberOfRunningJobs a =>
          obtain ⟨hright, hagrees⟩ := h.query a
          show (c.numberOfRunningJobs a).1 :: (c.numberOfRunningJobs a).2.answers calls = _
          rw [hright, ih hagrees, (c.numberOfRunningJobs_jobs a).1]
          rfl

/-- From whatever running jobs, and in whatever order jobs are started and queries made, each
query answers the number of current running jobs of the account. -/
theorem RunCounters.answers_serverCounts (maxRun maxUserRun maxGroupRun scRunning : ℤ)
    (runningJobs : List JobInfo) (calls : List ServerCall) :
    (RunCounters.mk maxRun maxUserRun maxGroupRun scRunning runningJobs [] []).answers calls
      = serverCounts runningJobs calls := by
  apply RunCounters.Agrees.answers
  intro a n hn
  cases a with
  | user username => cases hn
  | group groupname => cases hn

/-! ## The queue -/

/-- `queue_info`: the counters it has in common with the server, and its cores. -/
structure QueueCounters extends RunCounters where
  runningCores : Bool × ℤ
  runningCoresByUser : List (String × ℤ)
  runningCoresByGroup : List (String × ℤ)

section

-- `total_procs` of the parsed node specification of a job
variable (totalProcs : JobInfo → ℕ)

/-- The cores of some jobs. -/
def coreSum (jobs : List JobInfo) : ℤ :=
  (jobs.map (fun j => (totalProcs j : ℤ))).sum

/-- The loop over the first `sc.running` jobs, for the jobs it is meant for; `none` when `Expects`
ends the program. -/
def RunCounters.countProcs (c : RunCounters) (meant : JobInfo → Bool) : Option ℤ :=
  if c.scRunning = c.runningJobs.length then
    some (coreSum totalProcs ((c.runningJobs.take c.scRunning.toNat).filter meant))
  else none

/-- `count_queue_procs`. -/
def RunCounters.countQueueProcs (c : RunCounters) : Option ℤ :=
  c.countProcs totalProcs (fun _ => true)

/-- `count_queue_user_procs`. -/
def RunCounters.countQueueUserProcs (c : RunCounters) (account : String) : Option ℤ :=
  c.countProcs totalProcs (fun j => account == j.account)

/-- `count_queue_group_procs`. -/
def RunCounters.countQueueGroupProcs (c : RunCounters) (group : String) : Option ℤ :=
  c.countProcs totalProcs (fun j => group == j.group)

/-- Raise the entry of the key, or count and enter; the count is made only for a missing entry. -/
def enterCores (key : String) (procs : ℤ) (fresh : Option ℤ) (cache : List (String × ℤ)) :
    Option (List (String × ℤ)) :=
  match cache.lookup key with
  | some _ => some (raise key procs cache)
  | none => fresh.map (fun n => (key, n) :: cache)

/-- The same for all cores, which have no key. -/
def enterAllCores (procs : ℤ) (fresh : Option ℤ) (cores : Bool × ℤ) : Option (Bool × ℤ) :=
  if cores.1 then some (true, cores.2 + procs) else fresh.map (fun n => (true, n))

/-- `queue_info::update_on_job_run`. -/
def QueueCounters.updateOnJobRun (q : QueueCounters) (j : JobInfo) : Option QueueCounters := do
  let c := q.toRunCounters.updateOnJobRun j
  let runningCores ← enterAllCores (totalProcs j) (c.countQueueProcs totalProcs) q.runningCores
  let byGroup ←
    enterCores j.group (totalProcs j) (c.countQueueGroupProcs totalProcs j.group)
      q.runningCoresByGroup
  let byUser ←
    enterCores j.account (totalProcs j) (c.countQueueUserProcs totalProcs j.account)
      q.runningCoresByUser
  return ⟨c, runningCores, byUser, byGroup⟩

/-- `number_of_running_jobs_for_user` and `number_of_running_jobs_for_group`. -/
def QueueCounters.numberOfRunningJobs (q : QueueCounters) (a : JobOwner) : ℤ × QueueCounters :=
  let (n, c) := q.toRunCounters.numberOfRunningJobs a
  (n, { q with toRunCounters := c })

/-- `number_of_running_cores`. -/
def QueueCounters.numberOfRunningCores (q : QueueCounters) : Option (ℤ × QueueCounters) :=
  if q.runningCores.1 then some (q.runningCores.2, q)
  else
    (q.countQueueProcs totalProcs).map (fun n => (n, { q with runningCores := (true, n) }))

/-- `number_of_running_cores_for_group`. -/
def QueueCounters.numberOfRunningCoresForGroup (q : QueueCounters) (groupName : String) :
    Option (ℤ × QueueCounters) :=
  match q.runningCoresByGroup.lookup groupName with
  | some n => some (n, q)
  | none =>
      -- the entry goes to the table of the jobs, whose own entry stays if it has one
      (q.countQueueGroupProcs totalProcs groupName).map (fun n =>
        ((ask groupName n q.runningJobsByGroup).1,
          { q with runningJobsByGroup := (ask groupName n q.runningJobsByGroup).2 }))

/-- `number_of_running_cores_for_user`. -/
def QueueCounters.numberOfRunningCoresForUser (q : QueueCounters) (userName : String) :
    Option (ℤ × QueueCounters) :=
  match q.runningCoresByUser.lookup userName with
  | some n => some (n, q)
  | none =>
      (q.countQueueUserProcs totalProcs userName).map (fun n =>
        ((ask userName n q.runningJobsByUser).1,
          { q with runningJobsByUser := (ask userName n q.runningJobsByUser).2 }))

/-- The query for the cores of an account. -/
def QueueCounters.numberOfRunningCoresFor (q : QueueCounters) :
    JobOwner → Option (ℤ × QueueCounters)
  | .user userName => q.numberOfRunningCoresForUser totalProcs userName
  | .group groupName => q.numberOfRunningCoresForGroup totalProcs groupName

/-! ## Runs of the queue -/

/-- The calls of the queue's counters. -/
inductive QueueCall : Type where
  | updateOnJobRun (j : JobInfo)
  | numberOfRunningJobs (a : JobOwner)
  | numberOfRunningCores
  | numberOfRunningCoresFor (a : JobOwner)
  deriving DecidableEq

/-- One call: its answer, if it is a query, and the counters afterwards. -/
def QueueCounters.call (q : QueueCounters) : QueueCall → Option (Option ℤ × QueueCounters)
  | .updateOnJobRun j => (q.updateOnJobRun totalProcs j).map (fun q' => (none, q'))
  | .numberOfRunningJobs a =>
      some (some (q.numberOfRunningJobs a).1, (q.numberOfRunningJobs a).2)
  | .numberOfRunningCores =>
      (q.numberOfRunningCores totalProcs).map (fun r => (some r.1, r.2))
  | .numberOfRunningCoresFor a =>
      (q.numberOfRunningCoresFor totalProcs a).map (fun r => (some r.1, r.2))

/-- The answers of the queries of a run. -/
def QueueCounters.answers : QueueCounters → List QueueCall → Option (List ℤ)
  | _, [] => some []
  | q, call :: calls => do
      let (answer, q) ← q.call totalProcs call
      let answers ← q.answers calls
      return answer.toList ++ answers

/-- The number of cores of the account. -/
def JobOwner.countCores (a : JobOwner) (jobs : List JobInfo) : ℤ :=
  coreSum totalProcs (jobs.filter a.holds)

/-- The running jobs after a call. -/
def QueueCall.jobsAfter : QueueCall → List JobInfo → List JobInfo
  | updateOnJobRun j, jobs => jobs ++ [j]
  | _, jobs => jobs

/-- The number a query asks for. -/
def QueueCall.count : QueueCall → List JobInfo → Option ℤ
  | updateOnJobRun _, _ => none
  | numberOfRunningJobs a, jobs => some (a.countJobs jobs)
  | numberOfRunningCores, jobs => some (coreSum totalProcs jobs)
  | numberOfRunningCoresFor a, jobs => some (a.countCores totalProcs jobs)

/-- The numbers the queries of a run ask for. -/
def queueCounts : List JobInfo → List QueueCall → List ℤ
  | _, [] => []
  | jobs, call :: calls =>
      (call.count totalProcs jobs).toList ++ queueCounts (call.jobsAfter jobs) calls

/-! ## Sound counters of a queue -/

variable {totalProcs}

/-- What is remembered for the cores of the account. -/
def QueueCounters.coresCached (q : QueueCounters) : JobOwner → Option ℤ
  | .user userName => q.runningCoresByUser.lookup userName
  | .group groupName => q.runningCoresByGroup.lookup groupName

/-- One more job adds its cores to its own accounts. -/
theorem JobOwner.countCores_append (a : JobOwner) (jobs : List JobInfo) (j : JobInfo) :
    a.countCores totalProcs (jobs ++ [j])
      = a.countCores totalProcs jobs + if a.holds j then (totalProcs j : ℤ) else 0 := by
  unfold JobOwner.countCores coreSum
  rw [List.filter_append, List.map_append, List.sum_append]
  by_cases h : a.holds j
  · rw [if_pos h, List.filter_cons_of_pos h]
    simp
  · rw [if_neg h, List.filter_cons_of_neg h]
    simp

/-- The loops run over all the running jobs when `sc.running` is their number. -/
theorem RunCounters.countProcs_eq {c : RunCounters} (h : c.scRunning = c.runningJobs.length)
    (meant : JobInfo → Bool) :
    c.countProcs totalProcs meant = some (coreSum totalProcs (c.runningJobs.filter meant)) := by
  unfold RunCounters.countProcs
  rw [if_pos h, h, Int.toNat_natCast, List.take_length]

/-- The loop for an account. -/
theorem RunCounters.countOwnProcs_eq {c : RunCounters} (h : c.scRunning = c.runningJobs.length)
    (name : String) :
    c.countQueueUserProcs totalProcs name
        = some ((JobOwner.user name).countCores totalProcs c.runningJobs) ∧
      c.countQueueGroupProcs totalProcs name
        = some ((JobOwner.group name).countCores totalProcs c.runningJobs) := by
  have hcomm : ∀ field : JobInfo → String,
      (fun j => name == field j) = fun j => field j == name := by
    intro field
    funext j
    exact Bool.beq_comm
  refine ⟨?_, ?_⟩
  · rw [RunCounters.countQueueUserProcs, RunCounters.countProcs_eq h, hcomm JobInfo.account]
    rfl
  · rw [RunCounters.countQueueGroupProcs, RunCounters.countProcs_eq h, hcomm JobInfo.group]
    rfl

/-- With its count at hand an entry is raised or made. -/
theorem enterCores_some (key : String) (procs n : ℤ) (cache : List (String × ℤ)) :
    enterCores key procs (some n) cache = some (advance key procs n cache) := by
  unfold enterCores advance
  cases cache.lookup key with
  | none => rfl
  | some m => rfl

/-- The cores remembered are right, and only for accounts whose jobs are remembered too. -/
structure QueueCounters.Sound (totalProcs : JobInfo → ℕ) (q : QueueCounters) : Prop where
  running : q.scRunning = q.runningJobs.length
  all : q.runningCores.1 = true → q.runningCores.2 = coreSum totalProcs q.runningJobs
  own : ∀ a n, q.coresCached a = some n →
    n = a.countCores totalProcs q.runningJobs ∧ q.cached a ≠ none

/-- The query for the cores of an account answers the entry of the cores, or else the entry of the
jobs, or else the count, which it then enters among the jobs. -/
theorem QueueCounters.Sound.coresFor {q : QueueCounters} (h : q.Sound totalProcs)
    (a : JobOwner) :
    ∃ n q', q.numberOfRunningCoresFor totalProcs a = some (n, q') ∧
      q'.runningJobs = q.runningJobs ∧ q'.scRunning = q.scRunning ∧
      q'.runningCores = q.runningCores ∧ q'.coresCached = q.coresCached ∧
      n = (q.coresCached a).getD ((q.cached a).getD (a.countCores totalProcs q.runningJobs)) ∧
      ∀ b, q'.cached b = if b = a ∧ q.coresCached a = none then some n else q.cached b := by
  -- users and groups have maps of their own
  cases a with
  | user name =>
      have hsame : q.coresCached (.user name) = q.runningCoresByUser.lookup name := rfl
      rw [hsame, QueueCounters.numberOfRunningCoresFor, QueueCounters.numberOfRunningCoresForUser,
        (RunCounters.countOwnProcs_eq h.running name).1]
      cases hcores : q.runningCoresByUser.lookup name with
      | some n => exact ⟨n, q, rfl, rfl, rfl, rfl, rfl, rfl, fun b => by simp⟩
      | none =>
          refine ⟨_, _, rfl, rfl, rfl, rfl, ?_, ask_fst _ _ _, ?_⟩
          · funext b
            cases b with
            | user _ => rfl
            | group _ => rfl
          · intro b
            rw [ask_fst]
            cases b with
            | user other =>
                refine (lookup_ask name other _ _).trans ?_
                simp only [JobOwner.user.injEq, and_true]
                rfl
            | group other => rw [if_neg (fun hb => JobOwner.noConfusion hb.1)]; rfl
  | group name =>
      have hsame : q.coresCached (.group name) = q.runningCoresByGroup.lookup name := rfl
      rw [hsame, QueueCounters.numberOfRunningCoresFor, QueueCounters.numberOfRunningCoresForGroup,
        (RunCounters.countOwnProcs_eq h.running name).2]
      cases hcores : q.runningCoresByGroup.lookup name with
      | some n => exact ⟨n, q, rfl, rfl, rfl, rfl, rfl, rfl, fun b => by simp⟩
      | none =>
          refine ⟨_, _, rfl, rfl, rfl, rfl, ?_, ask_fst _ _ _, ?_⟩
          · funext b
            cases b with
            | user _ => rfl
            | group _ => rfl
          · intro b
            rw [ask_fst]
            cases b with
            | user other => rw [if_neg (fun hb => JobOwner.noConfusion hb.1)]; rfl
            | group other =>
                refine (lookup_ask name other _ _).trans ?_
                simp only [JobOwner.group.injEq, and_true]
                rfl

/-- The counters after a start whose counts are right. -/
def QueueCounters.started (totalProcs : JobInfo → ℕ) (q : QueueCounters) (j : JobInfo) :
    QueueCounters :=
  let runningJobs := q.runningJobs ++ [j]
  ⟨q.toRunCounters.updateOnJobRun j, (true, coreSum totalProcs runningJobs),
    advance j.account (totalProcs j) ((JobOwner.user j.account).countCores totalProcs runningJobs)
      q.runningCoresByUser,
    advance j.group (totalProcs j) ((JobOwner.group j.group).countCores totalProcs runningJobs)
      q.runningCoresByGroup⟩

/-- A start of a job counts what it does not add to an entry. -/
theorem QueueCounters.Sound.updateOnJobRun_eq {q : QueueCounters} (h : q.Sound totalProcs)
    (j : JobInfo) : q.updateOnJobRun totalProcs j = some (q.started totalProcs j) := by
  have hrunning : (q.toRunCounters.updateOnJobRun j).scRunning
      = (q.toRunCounters.updateOnJobRun j).runningJobs.length := by
    show q.scRunning + 1 = ((q.runningJobs ++ [j]).length : ℕ)
    rw [h.running, List.length_append, List.length_singleton]
    omega
  have hall : enterAllCores (totalProcs j)
      ((q.toRunCounters.updateOnJobRun j).countQueueProcs totalProcs) q.runningCores
        = some (true, coreSum totalProcs (q.runningJobs ++ [j])) := by
    unfold enterAllCores
    by_cases hfilled : q.runningCores.1 = true
    · rw [if_pos hfilled, h.all hfilled]
      simp [coreSum]
    · rw [if_neg hfilled, RunCounters.countQueueProcs, RunCounters.countProcs_eq hrunning,
        List.filter_true]
      rfl
  have hown : ∀ name, (q.toRunCounters.updateOnJobRun j).countQueueUserProcs totalProcs name
        = some ((JobOwner.user name).countCores totalProcs (q.runningJobs ++ [j])) ∧
      (q.toRunCounters.updateOnJobRun j).countQueueGroupProcs totalProcs name
        = some ((JobOwner.group name).countCores totalProcs (q.runningJobs ++ [j])) :=
    RunCounters.countOwnProcs_eq hrunning
  unfold QueueCounters.updateOnJobRun
  dsimp only
  rw [hall, (hown j.group).2, (hown j.account).1, enterCores_some, enterCores_some]
  rfl

/-- A start raises the cores remembered for the accounts of the job, or counts them. -/
theorem QueueCounters.coresCached_started (q : QueueCounters) (j : JobInfo) (a : JobOwner) :
    (q.started totalProcs j).coresCached a
      = if a.holds j then
          some (((q.coresCached a).map (· + (totalProcs j : ℤ))).getD
            (a.countCores totalProcs (q.runningJobs ++ [j])))
        else q.coresCached a := by
  cases a with
  | user name =>
      exact lookup_advance_count j.account name _
        (fun name => (JobOwner.user name).countCores totalProcs (q.runningJobs ++ [j])) _
  | group name =>
      exact lookup_advance_count j.group name _
        (fun name => (JobOwner.group name).countCores totalProcs (q.runningJobs ++ [j])) _

/-- A start keeps the cores right. -/
theorem QueueCounters.Sound.started {q : QueueCounters} (h : q.Sound totalProcs) (j : JobInfo) :
    (q.started totalProcs j).Sound totalProcs := by
  refine ⟨?_, fun _ => rfl, ?_⟩
  · show q.scRunning + 1 = ((q.runningJobs ++ [j]).length : ℕ)
    rw [h.running, List.length_append, List.length_singleton]
    omega
  · intro a n hn
    show n = a.countCores totalProcs (q.runningJobs ++ [j]) ∧
      (q.toRunCounters.updateOnJobRun j).cached a ≠ none
    rw [q.coresCached_started] at hn
    rw [RunCounters.cached_updateOnJobRun]
    by_cases hj : a.holds j
    · rw [if_pos hj] at hn ⊢
      refine ⟨?_, Option.some_ne_none _⟩
      rw [← Option.some.inj hn]
      cases hcores : q.coresCached a with
      | none => rfl
      | some m =>
          rw [a.countCores_append, if_pos hj, ← (h.own a m hcores).1]
          rfl
    · rw [if_neg hj] at hn ⊢
      rw [a.countCores_append, if_neg hj, add_zero]
      exact h.own a n hn

/-- A query for the jobs keeps the cores right. -/
theorem QueueCounters.Sound.jobs {q : QueueCounters} (h : q.Sound totalProcs) (a : JobOwner) :
    (q.numberOfRunningJobs a).2.Sound totalProcs := by
  have hjobs : (q.numberOfRunningJobs a).2.runningJobs = q.runningJobs :=
    (q.toRunCounters.numberOfRunningJobs_jobs a).1
  have hrunning : (q.numberOfRunningJobs a).2.scRunning = q.scRunning :=
    (q.toRunCounters.numberOfRunningJobs_jobs a).2
  have hcores : (q.numberOfRunningJobs a).2.coresCached = q.coresCached := by
    funext b
    cases b with
    | user _ => rfl
    | group _ => rfl
  refine ⟨?_, ?_, ?_⟩
  · rw [hjobs, hrunning]
    exact h.running
  · rw [hjobs]
    exact h.all
  · intro b n hn
    rw [hcores] at hn
    rw [hjobs]
    refine ⟨(h.own b n hn).1, ?_⟩
    show (q.toRunCounters.numberOfRunningJobs a).2.cached b ≠ none
    rw [RunCounters.cached_numberOfRunningJobs]
    split
    · exact Option.some_ne_none _
    · exact (h.own b n hn).2

/-- The query for all the cores is right, and changes nothing else. -/
theorem QueueCounters.Sound.cores {q : QueueCounters} (h : q.Sound totalProcs) :
    ∃ q', q.numberOfRunningCores totalProcs = some (coreSum totalProcs q.runningJobs, q') ∧
      q'.Sound totalProcs ∧ q'.toRunCounters = q.toRunCounters ∧
      q'.coresCached = q.coresCached := by
  unfold QueueCounters.numberOfRunningCores
  by_cases hfilled : q.runningCores.1 = true
  · rw [if_pos hfilled, h.all hfilled]
    exact ⟨q, rfl, h, rfl, rfl⟩
  · rw [if_neg hfilled, RunCounters.countQueueProcs, RunCounters.countProcs_eq h.running,
      List.filter_true]
    have hcores : ∀ cores : Bool × ℤ,
        ({ q with runningCores := cores } : QueueCounters).coresCached = q.coresCached := by
      intro cores
      funext b
      cases b with
      | user _ => rfl
      | group _ => rfl
    refine ⟨_, rfl, ⟨h.running, fun _ => rfl, ?_⟩, rfl, hcores _⟩
    intro a n hn
    rw [hcores] at hn
    exact h.own a n hn

/-! ## When the queue answers right -/

/-- The cores of the account are asked for before one of its jobs is started. -/
def asksCoresFirst (a : JobOwner) : List QueueCall → Bool
  | [] => false
  | .updateOnJobRun j :: calls => if a.holds j then false else asksCoresFirst a calls
  | .numberOfRunningCoresFor b :: calls => if b = a then true else asksCoresFirst a calls
  | _ :: calls => asksCoresFirst a calls

/-- With `jobs` and `cores` remembered for an account of `n` jobs and `c` cores, the calls to come
get right answers about it: while nothing is remembered, a first query for the cores must not be
followed by one for the jobs; an entry of the jobs must be what is asked for. -/
def AnswersRight (jobs cores : Option ℤ) (n c : ℤ) (coresFirst : Bool) (jobsAsked : Prop) : Prop :=
  match jobs with
  | none => n = c ∨ coresFirst = false ∨ ¬ jobsAsked
  | some m => (m = n ∨ ¬ jobsAsked) ∧ (cores ≠ none ∨ m = c ∨ coresFirst = false)

/-- The calls to come get right answers about the account. -/
def QueueCounters.AnswersRightFor (totalProcs : JobInfo → ℕ) (q : QueueCounters)
    (calls : List QueueCall) (a : JobOwner) : Prop :=
  AnswersRight (q.cached a) (q.coresCached a) (a.countJobs q.runningJobs)
    (a.countCores totalProcs q.runningJobs) (asksCoresFirst a calls)
    (.numberOfRunningJobs a ∈ calls)

/-- One account is asked about, the others are as before: what is known of the answer and of the
account decides. -/
theorem right_and_forall_iff {P P' : JobOwner → Prop} {right : Prop} (a : JobOwner)
    (hown : right ∧ P' a ↔ P a) (hothers : ∀ b, b ≠ a → (P' b ↔ P b)) :
    (right ∧ ∀ b, P' b) ↔ ∀ b, P b := by
  refine ⟨?_, ?_⟩
  · rintro ⟨hright, h⟩ b
    by_cases hb : b = a
    · rw [hb]
      exact hown.mp ⟨hright, h a⟩
    · exact (hothers b hb).mp (h b)
  · intro h
    obtain ⟨hright, ha⟩ := hown.mpr (h a)
    refine ⟨hright, fun b => ?_⟩
    by_cases hb : b = a
    · rw [hb]
      exact ha
    · exact (hothers b hb).mpr (h b)

/-- A query for the jobs. -/
theorem QueueCounters.Sound.jobs_right_iff {q : QueueCounters} (h : q.Sound totalProcs)
    (a : JobOwner) (calls : List QueueCall) :
    ((q.numberOfRunningJobs a).1 = a.countJobs q.runningJobs ∧
      ∀ b, (q.numberOfRunningJobs a).2.AnswersRightFor totalProcs calls b)
        ↔ ∀ b, q.AnswersRightFor totalProcs (.numberOfRunningJobs a :: calls) b := by
  have hjobs : (q.numberOfRunningJobs a).2.runningJobs = q.runningJobs :=
    (q.toRunCounters.numberOfRunningJobs_jobs a).1
  have hcores : ∀ b, (q.numberOfRunningJobs a).2.coresCached b = q.coresCached b := by
    intro b
    cases b with
    | user _ => rfl
    | group _ => rfl
  have hcached : ∀ b, (q.numberOfRunningJobs a).2.cached b
      = if b = a then some ((q.cached a).getD (a.countJobs q.runningJobs)) else q.cached b :=
    q.toRunCounters.cached_numberOfRunningJobs a
  have hfst : (q.numberOfRunningJobs a).1 = (q.cached a).getD (a.countJobs q.runningJobs) :=
    q.toRunCounters.numberOfRunningJobs_fst a
  apply right_and_forall_iff a
  · unfold QueueCounters.AnswersRightFor
    rw [hjobs, hcores, hcached, if_pos rfl, hfst]
    have hasked : QueueCall.numberOfRunningJobs a ∈ QueueCall.numberOfRunningJobs a :: calls :=
      List.mem_cons_self
    cases hentry : q.cached a with
    | none =>
        have hnone : q.coresCached a = none := by
          cases hc : q.coresCached a with
          | none => rfl
          | some c => exact absurd hentry (h.own a c hc).2
        simp [AnswersRight, asksCoresFirst, hasked, hnone]
    | some n => simp [AnswersRight, asksCoresFirst, hasked]; tauto
  · intro b hb
    unfold QueueCounters.AnswersRightFor
    rw [hjobs, hcores, hcached, if_neg hb]
    simp [asksCoresFirst, hb]

/-- A query for the cores of an account. -/
theorem QueueCounters.Sound.coresFor_right_iff {q : QueueCounters} (h : q.Sound totalProcs)
    (a : JobOwner) (calls : List QueueCall) :
    ∃ n q', q.numberOfRunningCoresFor totalProcs a = some (n, q') ∧ q'.Sound totalProcs ∧
      q'.runningJobs = q.runningJobs ∧
      ((n = a.countCores totalProcs q.runningJobs ∧ ∀ b, q'.AnswersRightFor totalProcs calls b)
        ↔ ∀ b, q.AnswersRightFor totalProcs (.numberOfRunningCoresFor a :: calls) b) := by
  obtain ⟨n, q', hcall, hjobs, hrunning, hall, hcores, hn, hcached⟩ := h.coresFor a
  refine ⟨n, q', hcall, ⟨?_, ?_, ?_⟩, hjobs, ?_⟩
  · rw [hjobs, hrunning]
    exact h.running
  · rw [hjobs, hall]
    exact h.all
  · intro b m hm
    rw [hcores] at hm
    rw [hjobs, hcached]
    refine ⟨(h.own b m hm).1, ?_⟩
    split
    · exact Option.some_ne_none _
    · exact (h.own b m hm).2
  -- only the entry of the account that was asked for can change
  · apply right_and_forall_iff a
    · unfold QueueCounters.AnswersRightFor
      rw [hjobs, hcores, hcached]
      cases hc : q.coresCached a with
      | none =>
          rw [hc] at hn
          cases hentry : q.cached a with
          | none =>
              rw [hentry] at hn
              simp [AnswersRight, asksCoresFirst, hn]
              tauto
          | some m =>
              rw [hentry] at hn
              simp [AnswersRight, asksCoresFirst, hn]
              tauto
      | some c =>
          have hright := (h.own a c hc).1
          rw [hc] at hn
          cases hentry : q.cached a with
          | none => exact absurd hentry (h.own a c hc).2
          | some m => simp [AnswersRight, asksCoresFirst, hn, hright]
    · intro b hb
      unfold QueueCounters.AnswersRightFor
      rw [hjobs, hcores, hcached, if_neg (fun hba => hb hba.1)]
      simp [asksCoresFirst, hb.symm]

/-- A start. -/
theorem QueueCounters.start_right_iff (q : QueueCounters) (j : JobInfo)
    (calls : List QueueCall) :
    (∀ b, (q.started totalProcs j).AnswersRightFor totalProcs calls b)
      ↔ ∀ b, q.AnswersRightFor totalProcs (.updateOnJobRun j :: calls) b := by
  apply forall_congr'
  intro b
  have hcached : (q.started totalProcs j).cached b = _ :=
    q.toRunCounters.cached_updateOnJobRun j b
  have hjobs : (q.started totalProcs j).runningJobs = q.runningJobs ++ [j] := rfl
  unfold QueueCounters.AnswersRightFor
  rw [hcached, hjobs, q.coresCached_started, b.countJobs_append, b.countCores_append]
  by_cases hb : b.holds j
  · rw [if_pos hb, if_pos hb, if_pos hb, if_pos hb]
    cases hentry : q.cached b with
    | none => simp [AnswersRight, asksCoresFirst, hb]
    | some m => simp [AnswersRight, asksCoresFirst, hb]
  · rw [if_neg hb, if_neg hb, if_neg hb, if_neg hb, add_zero, add_zero]
    simp [asksCoresFirst, hb]

/-- One call keeps the counters sound; what is right from here on is the answer and what is right
after the call. -/
theorem QueueCounters.Sound.call_right_iff {q : QueueCounters} (h : q.Sound totalProcs)
    (call : QueueCall) (calls : List QueueCall) :
    ∃ answer q', q.call totalProcs call = some (answer, q') ∧ q'.Sound totalProcs ∧
      q'.runningJobs = call.jobsAfter q.runningJobs ∧
      answer.isSome = (call.count totalProcs q.runningJobs).isSome ∧
      ((answer = call.count totalProcs q.runningJobs ∧
          ∀ a, q'.AnswersRightFor totalProcs calls a)
        ↔ ∀ a, q.AnswersRightFor totalProcs (call :: calls) a) := by
  cases call with
  | updateOnJobRun j =>
      refine ⟨none, q.started totalProcs j, ?_, h.started j, rfl, rfl, ?_⟩
      · rw [QueueCounters.call, h.updateOnJobRun_eq]
        rfl
      · rw [← q.start_right_iff j calls]
        exact and_iff_right rfl
  | numberOfRunningJobs a =>
      refine ⟨_, _, rfl, h.jobs a, (q.toRunCounters.numberOfRunningJobs_jobs a).1, rfl, ?_⟩
      rw [← h.jobs_right_iff a calls]
      exact and_congr_left' Option.some_inj
  | numberOfRunningCores =>
      obtain ⟨q', hcall, hsound, hcounters, hcores⟩ := h.cores
      refine ⟨some (coreSum totalProcs q.runningJobs), q', ?_, hsound, ?_, rfl, ?_⟩
      · rw [QueueCounters.call, hcall]
        rfl
      · rw [hcounters]
        rfl
      · refine Iff.trans (and_iff_right rfl) (forall_congr' fun a => ?_)
        unfold QueueCounters.AnswersRightFor
        rw [hcounters, hcores]
        simp [asksCoresFirst]
  | numberOfRunningCoresFor a =>
      obtain ⟨n, q', hcall, hsound, hjobs, hright⟩ := h.coresFor_right_iff a calls
      refine ⟨some n, q', ?_, hsound, hjobs, rfl, ?_⟩
      · rw [QueueCounters.call, hcall]
        rfl
      · rw [← hright]
        exact and_congr_left' Option.some_inj

/-- Two answers or none, in front of two lists. -/
theorem toList_append_inj {x y : Option ℤ} (h : x.isSome = y.isSome) (xs ys : List ℤ) :
    x.toList ++ xs = y.toList ++ ys ↔ x = y ∧ xs = ys := by
  cases x with
  | none =>
      cases y with
      | none => simp
      | some n => cases h
  | some m =>
      cases y with
      | none => cases h
      | some n => simp

/-- All the answers of a run are right exactly when they are for every account. -/
theorem QueueCounters.Sound.answers_eq_iff {q : QueueCounters} (h : q.Sound totalProcs)
    (calls : List QueueCall) :
    q.answers totalProcs calls = some (queueCounts totalProcs q.runningJobs calls)
      ↔ ∀ a, q.AnswersRightFor totalProcs calls a := by
  induction calls generalizing q with
  | nil =>
      refine iff_of_true rfl fun a => ?_
      unfold QueueCounters.AnswersRightFor
      cases q.cached a with
      | none => simp [AnswersRight]
      | some n => simp [AnswersRight, asksCoresFirst]
  | cons call calls ih =>
      obtain ⟨answer, q', hcall, hsound, hjobs, hsome, hright⟩ := h.call_right_iff call calls
      rw [← hright, ← ih hsound, hjobs, QueueCounters.answers, hcall, queueCounts]
      cases hrest : q'.answers totalProcs calls with
      | none => simp [hrest]
      | some ns =>
          have : (some (answer.toList ++ ns)
              = some ((call.count totalProcs q.runningJobs).toList
                  ++ queueCounts totalProcs (call.jobsAfter q.runningJobs) calls))
                ↔ answer = call.count totalProcs q.runningJobs ∧
                  some ns = some (queueCounts totalProcs (call.jobsAfter q.runningJobs) calls) := by
            rw [Option.some_inj, Option.some_inj]
            exact toList_append_inj hsome _ _
          simpa [hrest] using this

/-- The counters of a queue before the first call. -/
def QueueCounters.snapshot (maxRun maxUserRun maxGroupRun : ℤ) (runningJobs : List JobInfo) :
    QueueCounters :=
  ⟨RunCounters.snapshot maxRun maxUserRun maxGroupRun runningJobs, (false, 0), [], []⟩

/-- Nothing remembered is wrong. -/
theorem QueueCounters.sound_snapshot (maxRun maxUserRun maxGroupRun : ℤ)
    (runningJobs : List JobInfo) :
    (QueueCounters.snapshot maxRun maxUserRun maxGroupRun runningJobs).Sound totalProcs := by
  refine ⟨rfl, fun hfilled => Bool.noConfusion hfilled, ?_⟩
  intro a n hn
  cases a with
  | user name => cases hn
  | group name => cases hn

/-- Every query of a run is answered right exactly when, for every account that starts with
different numbers of running jobs and of cores, its cores are not asked for before one of its jobs
is started, or its jobs are never asked for. -/
theorem QueueCounters.answers_exact_iff (totalProcs : JobInfo → ℕ)
    (maxRun maxUserRun maxGroupRun : ℤ) (runningJobs : List JobInfo) (calls : List QueueCall) :
    (QueueCounters.snapshot maxRun maxUserRun maxGroupRun runningJobs).answers totalProcs calls
        = some (queueCounts totalProcs runningJobs calls)
      ↔ ∀ a : JobOwner, a.countJobs runningJobs = a.countCores totalProcs runningJobs ∨
          asksCoresFirst a calls = false ∨ QueueCall.numberOfRunningJobs a ∉ calls := by
  have hsound : (QueueCounters.snapshot maxRun maxUserRun maxGroupRun runningJobs).Sound
      totalProcs := QueueCounters.sound_snapshot maxRun maxUserRun maxGroupRun runningJobs
  refine (hsound.answers_eq_iff calls).trans (forall_congr' fun a => ?_)
  have hcached : (QueueCounters.snapshot maxRun maxUserRun maxGroupRun runningJobs).cached a
      = none := by
    cases a with
    | user _ => rfl
    | group _ => rfl
  unfold QueueCounters.AnswersRightFor
  rw [hcached]
  rfl

/-- A user runs one job of four cores: asked for the user's cores and then for the number of the
user's jobs, the queue answers four twice. -/
theorem QueueCounters.answers_cores_for_jobs :
    ∃ (runningJobs : List JobInfo) (calls : List QueueCall),
      (QueueCounters.snapshot RESC_INFINITY RESC_INFINITY RESC_INFINITY runningJobs).answers
          (fun _ => 4) calls = some [4, 4] ∧
        some [4, 4] ≠ some (queueCounts (fun _ => 4) runningJobs calls) := by
  let j : JobInfo := { (default : JobInfo) with account := "anna", group := "staff" }
  refine ⟨[j], [.numberOfRunningCoresFor (.user "anna"), .numberOfRunningJobs (.user "anna")],
    ?_, ?_⟩
  · rfl
  · intro h
    have hcounts : ([4, 4] : List ℤ) = [4, 1] := Option.some.inj h
    cases hcounts

end

end PlanSched
