/-
# New jobs

Models `add_already_running_jobs` and `try_to_schedule_new_jobs` (`plan_jobs.cpp`) with
`set_and_get_account_id` (`plan_limits.cpp`): a new job that runs already is entered
before the jobs of the first cluster on which it occupies a CPU, a queued one goes to the
earliest gap of the suitable clusters, and the accounts get numbers in a table that is
never emptied.

* `setAndGetAccountId_spec`: the number of a name is its first place in the table;
* `Enters`: of the new jobs those in one state come into the plan, each at most once;
  `addAlreadyRunningJobs_enters` for the running ones and `tryToScheduleNewJobs_enters` for the
  queued ones.
-/
import PlanSched.EarliestCluster
import PlanSched.PlanIdentity

namespace PlanSched

open CheckedRun Pools

/-! ## Account numbers -/

/-- `set_and_get_account_id`: the table of names, and the number of the account. -/
def setAndGetAccountId (accountTable : List String) (account : String) : List String × ℕ :=
  match accountTable.findIdx? (· == account) with
  | some i => (accountTable, i)
  | none => (accountTable ++ [account], accountTable.length)

/-- The number is the first place of the name, in a table that has grown at its end at most. -/
theorem setAndGetAccountId_spec (accountTable : List String) (account : String) :
    accountTable <+: (setAndGetAccountId accountTable account).1 ∧
      account ∈ (setAndGetAccountId accountTable account).1 ∧
      (setAndGetAccountId accountTable account).2
        = (setAndGetAccountId accountTable account).1.idxOf account := by
  unfold setAndGetAccountId
  cases hfind : accountTable.findIdx? (· == account) with
  | some i =>
      obtain ⟨hlt, hidx⟩ := List.findIdx?_eq_some_iff_findIdx_eq.mp hfind
      have hidx : accountTable.idxOf account = i := hidx
      exact ⟨List.prefix_refl _, List.idxOf_lt_length_iff.mp (hidx ▸ hlt), hidx.symm⟩
  | none =>
      have hnew : account ∉ accountTable := List.idxOf?_eq_none_iff.mp hfind
      refine ⟨List.prefix_append _ _, by simp, ?_⟩
      rw [List.idxOf_append_of_notMem hnew, List.idxOf_cons_self, Nat.add_zero]

/-! ## Entering new jobs -/

/-- What the planner works on in a cycle: the schedule and the names of the accounts. -/
structure Planner where
  schedule : Schedule
  accountTable : List String

/-- `job_create`, `job_fillin` and `set_and_get_account_id`: the job, and the table of
account names then. -/
def createJob (accountTable : List String) (newJob : ℕ × JobInfo) (startTime : ℤ) :
    Run (PlanJob × List String) := do
  let job ← jobFillin newJob.1 newJob.2 startTime
  let (accountTable, accountId) := setAndGetAccountId accountTable newJob.2.account
  return ({ job with accountId := accountId }, accountTable)

/-- The job occupies a CPU of the node. -/
def runsOn (jinfo : JobInfo) (node : NodeInfo) : Run Bool :=
  match node.jobsOnCpu with
  | none => .ok false
  | some jobsOnCpu =>
      (List.range node.coresTotal).anyM (fun j => do
        let cell ← getAt jobsOnCpu j
        return cell == some jinfo)

/-- The first cluster, from `k` on, with a node on which the job runs. -/
def findRunningCluster (jinfo : JobInfo) : List ClusterPlan → ℕ → Run (Option ℕ)
  | [], _ => .ok none
  | plan :: clusters, k => do
      if ← plan.cluster.nodes.anyM (runsOn jinfo) then return some k
      else findRunningCluster jinfo clusters (k + 1)

/-- One pass of `add_already_running_jobs`. -/
def addRunningJob (planner : Planner) (newJob : ℕ × JobInfo) : Run Planner :=
  if newJob.2.state = .running then do
    let (job, accountTable) ← createJob planner.accountTable newJob newJob.2.stime
    let found ← findRunningCluster newJob.2 planner.schedule.clusters 0
    match found with
    | none => return { planner with accountTable := accountTable }
    | some k => do
        let plan ← getAt planner.schedule.clusters k
        return ⟨planner.schedule.setJobs k (job :: plan.jobs), accountTable⟩
  else return planner

/-- `add_already_running_jobs`; every new job comes with the address it gets. -/
def Planner.addAlreadyRunningJobs (planner : Planner) (newJobs : List (ℕ × JobInfo)) :
    Run Planner :=
  newJobs.foldlM addRunningJob planner

/-- One pass of `try_to_schedule_new_jobs`. -/
def Planner.tryToScheduleNewJob (conf : LimitsForClusters) (time : ℤ) (input : SuitableInput)
    (planner : Planner) (newJob : ℕ × JobInfo) : Run Planner :=
  if newJob.2.state = .queued then do
    let (job, accountTable) ← createJob planner.accountTable newJob (-1)
    let (values, found) ← findEarliestGap conf input planner.schedule job
    match found with
    | none => return ⟨{ planner.schedule with values := values }, accountTable⟩
    | some choice => do
        let schedule ← enterNewJob planner.schedule choice
        let schedule ← updateWithRetry conf time choice.cluster schedule
        return ⟨schedule, accountTable⟩
  else return planner

/-- `try_to_schedule_new_jobs`, with the search over all clusters. -/
def Planner.tryToScheduleNewJobs (conf : LimitsForClusters) (time : ℤ) (input : SuitableInput)
    (planner : Planner) (newJobs : List (ℕ × JobInfo)) : Run Planner :=
  newJobs.foldlM (Planner.tryToScheduleNewJob conf time input) planner

/-! ## What comes into the plan -/

section Entering

variable {conf : LimitsForClusters} {time : ℤ} {input : SuitableInput}

/-- The identity of a new job, with the number the table gives its account. -/
def newIdentity (accountTable : List String) (newJob : ℕ × JobInfo) : JobIdentity where
  ptr := newJob.1
  jobId := newJob.2.number
  accountId := accountTable.idxOf newJob.2.account
  jinfo := newJob.2.reported

/-- A new job carries its own data and the number of its account. -/
theorem createJob_spec {accountTable accountTable' : List String} {newJob : ℕ × JobInfo}
    {startTime : ℤ} {job : PlanJob}
    (h : createJob accountTable newJob startTime = .ok (job, accountTable')) :
    accountTable <+: accountTable' ∧ newJob.2.account ∈ accountTable' ∧
      job.identity = newIdentity accountTable' newJob := by
  unfold createJob at h
  obtain ⟨filled, hfilled, h⟩ := bind_ok.mp h
  obtain ⟨hextends, hmem, hnumber⟩ := setAndGetAccountId_spec accountTable newJob.2.account
  obtain ⟨procs, nodect, hnodect, mem, gpu, rfl⟩ := jobFillin_ok hfilled
  generalize setAndGetAccountId accountTable newJob.2.account = result at hextends hmem hnumber h
  obtain ⟨table, number⟩ := result
  cases pure_ok.mp h
  refine ⟨hextends, hmem, ?_⟩
  unfold newIdentity
  rw [← hnumber]
  rfl

/-- The search leaves the identity of its job. -/
theorem findEarliestGap_identity {schedule : Schedule} {job : PlanJob} {values : LimitsValues}
    {choice : GapChoice} (h : findEarliestGap conf input schedule job = .ok (values, some choice)) :
    choice.job.identity = job.identity := by
  have hfirst : ∀ {values' : LimitsValues} {plan : ClusterPlan} {job₁ job₂ : PlanJob}
      {fixJob : Bool} {found : Option PlanGap} {left : LimitsValues},
      findFirstGap conf values' plan job₁ fixJob = .ok (found, job₂, left) →
      job₂.identity = job₁.identity := by
    intro values' plan job₁ job₂ fixJob found left h
    unfold findFirstGap at h
    obtain ⟨⟨search, found'⟩, -, h⟩ := bind_ok.mp h
    cases pure_ok.mp h
    rfl
  unfold findEarliestGap at h
  obtain ⟨search, hsearch, h⟩ := bind_ok.mp h
  have hjob : search.job.identity = job.identity := by
    unfold searchClusters at hsearch
    refine foldlM_invariant (fun s => s.job.identity = job.identity) _ _ _ search ?_ rfl hsearch
    intro s k s' _ hs hstep
    unfold searchCluster at hstep
    obtain ⟨plan, -, hstep⟩ := bind_ok.mp hstep
    obtain ⟨suitable, -, hstep⟩ := bind_ok.mp hstep
    split at hstep
    · obtain ⟨⟨found, job', values'⟩, hfound, hstep⟩ := bind_ok.mp hstep
      obtain rfl := pure_ok.mp hstep
      exact (hfirst hfound).trans hs
    · obtain rfl := pure_ok.mp hstep
      exact hs
  dsimp only at h
  split at h
  · cases pure_ok.mp h
  · obtain ⟨plan, -, h⟩ := bind_ok.mp h
    obtain ⟨⟨found, job', values'⟩, hfound, h⟩ := bind_ok.mp h
    obtain ⟨gap, -, h⟩ := bind_ok.mp h
    cases pure_ok.mp h
    exact (hfirst hfound).trans hjob

/-- The new jobs in the given state, with the numbers the table gives their accounts. -/
def entering (state : JobState) (accountTable : List String) (newJobs : List (ℕ × JobInfo)) :
    Multiset JobIdentity :=
  ((newJobs.filter (fun newJob => newJob.2.state = state)).map (newIdentity accountTable) :
    Multiset JobIdentity)

/-- Of the new jobs, those in the given state come into the plan, each at most once. -/
structure Enters (state : JobState) (newJobs : List (ℕ × JobInfo)) (planner planner' : Planner) :
    Prop where
  table : planner.accountTable <+: planner'.accountTable
  accounts : ∀ newJob ∈ newJobs, newJob.2.state = state → newJob.2.account ∈ planner'.accountTable
  jobs : planner'.schedule.identities
    ≤ entering state planner'.accountTable newJobs + planner.schedule.identities

/-- The table may grow: the numbers given stay the same. -/
theorem entering_extended {state : JobState} {accountTable accountTable' : List String}
    {newJobs : List (ℕ × JobInfo)} (htable : accountTable <+: accountTable')
    (haccounts : ∀ newJob ∈ newJobs, newJob.2.state = state → newJob.2.account ∈ accountTable) :
    entering state accountTable newJobs = entering state accountTable' newJobs := by
  unfold entering
  refine congrArg _ (List.map_congr_left (fun newJob hnewJob => ?_))
  obtain ⟨hmem, hstate⟩ := List.mem_filter.mp hnewJob
  unfold newIdentity
  rw [htable.idxOf_eq_of_mem (haccounts newJob hmem (of_decide_eq_true hstate))]

/-- One pass after the other. -/
theorem Enters.trans {state : JobState} {newJobs newJobs' : List (ℕ × JobInfo)}
    {planner planner' planner'' : Planner} (h : Enters state newJobs planner planner')
    (h' : Enters state newJobs' planner' planner'') :
    Enters state (newJobs ++ newJobs') planner planner'' := by
  refine ⟨h.table.trans h'.table, ?_, ?_⟩
  · intro newJob hnewJob hstate
    rcases List.mem_append.mp hnewJob with hmem | hmem
    · exact h'.table.subset (h.accounts newJob hmem hstate)
    · exact h'.accounts newJob hmem hstate
  · have hsplit : entering state planner''.accountTable (newJobs ++ newJobs')
        = entering state planner''.accountTable newJobs
          + entering state planner''.accountTable newJobs' := by
      unfold entering
      rw [List.filter_append, List.map_append, Multiset.coe_add]
    calc planner''.schedule.identities
        ≤ entering state planner''.accountTable newJobs' + planner'.schedule.identities := h'.jobs
      _ ≤ entering state planner''.accountTable newJobs'
          + (entering state planner'.accountTable newJobs + planner.schedule.identities) :=
        add_le_add_right h.jobs _
      _ = entering state planner''.accountTable (newJobs ++ newJobs')
          + planner.schedule.identities := by
        rw [hsplit, entering_extended h'.table h.accounts]
        abel

/-- A loop over the new jobs whose passes enter one job each. -/
theorem foldlM_enters {state : JobState} {pass : Planner → ℕ × JobInfo → Run Planner}
    (hpass : ∀ planner newJob planner', pass planner newJob = .ok planner' →
      Enters state [newJob] planner planner') (newJobs : List (ℕ × JobInfo)) :
    ∀ {planner planner' : Planner}, newJobs.foldlM pass planner = .ok planner' →
      Enters state newJobs planner planner' := by
  induction newJobs with
  | nil =>
      intro planner planner' h
      rw [List.foldlM_nil, pure_ok] at h
      subst h
      exact ⟨List.prefix_refl _, by simp, (zero_add _).ge⟩
  | cons newJob newJobs ih =>
      intro planner planner' h
      rw [List.foldlM_cons] at h
      obtain ⟨mid, hmid, h⟩ := bind_ok.mp h
      exact (hpass planner newJob mid hmid).trans (ih h)

/-- A job in the state is entered at most once. -/
theorem Enters.single {state : JobState} {newJob : ℕ × JobInfo} {planner planner' : Planner}
    {job : PlanJob} (hstate : newJob.2.state = state)
    (h : planner.accountTable <+: planner'.accountTable ∧
      newJob.2.account ∈ planner'.accountTable ∧
      job.identity = newIdentity planner'.accountTable newJob)
    (hjobs : planner'.schedule.identities ≤ {job.identity} + planner.schedule.identities) :
    Enters state [newJob] planner planner' := by
  obtain ⟨htable, hmem, hidentity⟩ := h
  refine ⟨htable, ?_, ?_⟩
  · intro other hother _
    rw [List.mem_singleton.mp hother]
    exact hmem
  · unfold entering
    rw [List.filter_cons_of_pos (by simpa using hstate), List.filter_nil, List.map_singleton,
      ← hidentity]
    exact hjobs

/-- A job in another state is passed by. -/
theorem Enters.passed {state : JobState} {newJob : ℕ × JobInfo} (planner : Planner)
    (hstate : newJob.2.state ≠ state) : Enters state [newJob] planner planner := by
  refine ⟨List.prefix_refl _, ?_, ?_⟩
  · intro other hother hsame
    rw [List.mem_singleton.mp hother] at hsame
    exact absurd hsame hstate
  · exact Multiset.le_add_left _ _

/-- `add_already_running_jobs` enters running jobs. -/
theorem addAlreadyRunningJobs_enters {planner planner' : Planner} {newJobs : List (ℕ × JobInfo)}
    (h : planner.addAlreadyRunningJobs newJobs = .ok planner') :
    Enters .running newJobs planner planner' := by
  refine foldlM_enters ?_ newJobs h
  intro planner newJob planner' h
  unfold addRunningJob at h
  split at h
  · next hstate =>
      obtain ⟨⟨job, accountTable⟩, hcreate, h⟩ := bind_ok.mp h
      obtain ⟨found, -, h⟩ := bind_ok.mp h
      cases found with
      | none =>
          cases pure_ok.mp h
          exact Enters.single hstate (createJob_spec hcreate) (Multiset.le_add_left _ _)
      | some k =>
          obtain ⟨plan, hplan, h⟩ := bind_ok.mp h
          cases pure_ok.mp h
          refine Enters.single hstate (createJob_spec hcreate) ?_
          show (contents (planner.schedule.setJobs k (job :: plan.jobs)).lists).map _ ≤ _
          rw [lists_setJobs]
          exact map_contents_set_le (lists_getElem? (getAt_ok.mp hplan)) le_rfl
  · next hstate =>
      cases pure_ok.mp h
      exact Enters.passed planner hstate

/-- A pass of `try_to_schedule_new_jobs` enters a queued job. -/
theorem tryToScheduleNewJob_enters {planner planner' : Planner} {newJob : ℕ × JobInfo}
    (h : planner.tryToScheduleNewJob conf time input newJob = .ok planner') :
    Enters .queued [newJob] planner planner' := by
  unfold Planner.tryToScheduleNewJob at h
  split at h
  · next hstate =>
      obtain ⟨⟨job, accountTable⟩, hcreate, h⟩ := bind_ok.mp h
      obtain ⟨⟨values, found⟩, hfound, h⟩ := bind_ok.mp h
      cases found with
      | none =>
          cases pure_ok.mp h
          exact Enters.single hstate (createJob_spec hcreate) (Multiset.le_add_left _ _)
      | some choice =>
          obtain ⟨entered, hentered, h⟩ := bind_ok.mp h
          obtain ⟨updated, hupdated, h⟩ := bind_ok.mp h
          cases pure_ok.mp h
          refine Enters.single hstate (createJob_spec hcreate) ?_
          rw [← findEarliestGap_identity hfound]
          exact (updateWithRetry_identities hupdated).trans (enterNewJob_identities hentered)
  · next hstate =>
      cases pure_ok.mp h
      exact Enters.passed planner hstate

/-- `try_to_schedule_new_jobs` enters queued jobs. -/
theorem tryToScheduleNewJobs_enters {planner planner' : Planner} {newJobs : List (ℕ × JobInfo)}
    (h : planner.tryToScheduleNewJobs conf time input newJobs = .ok planner') :
    Enters .queued newJobs planner planner' :=
  foldlM_enters (fun _ _ _ => tryToScheduleNewJob_enters) newJobs h

end Entering

end PlanSched
