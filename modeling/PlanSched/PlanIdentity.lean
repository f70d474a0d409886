/-
# Identities of the jobs of the plan

What the planner never changes of a `plan_job`: its address, its number, the number of
its account, and the job it is bound to but for its priority.  Nothing in
`update_sched`, in the placing of new jobs, in the optimisation or in `try_run_plan`
makes a job twice or gives one job the identity of another; jobs only come in through
`job_fillin` and only get lost.

* `updateSched_identities`, `updateAllPlans_identities`, `updateWithRetry_identities`;
* `enterNewJob_identities`: a new job comes in once;
* `planOptimization_identities`: no attempt doubles a job, kept or rolled back;
* `tryRunPlan_identities`: starting jobs leaves jobs of the lists.
-/
import PlanSched.KnownJobs
import PlanSched.Pools
import PlanSched.RandomMoves
import PlanSched.RunPlan

namespace PlanSched

open CheckedRun CursorWalk Pools

/-! ## Identities -/

/-- What the planner leaves of a reported job: it sets the priority only. -/
def JobInfo.reported (jinfo : JobInfo) : JobInfo := { jinfo with priority := 0 }

/-- What the planner leaves of a job. -/
structure JobIdentity where
  ptr : ℕ
  jobId : ℤ
  accountId : ℤ
  jinfo : JobInfo
  deriving DecidableEq, Repr

/-- The identity of a job of the plan. -/
def PlanJob.identity (job : PlanJob) : JobIdentity where
  ptr := job.ptr
  jobId := job.jobId
  accountId := job.accountId
  jinfo := job.jinfo.reported

/-- The identities of a list of jobs. -/
def identities (jobs : List PlanJob) : Multiset JobIdentity :=
  (jobs : Multiset PlanJob).map PlanJob.identity

/-- The job lists of the clusters. -/
def Schedule.lists (schedule : Schedule) : List (List PlanJob) :=
  schedule.clusters.map ClusterPlan.jobs

/-- The identities of all jobs of the schedule. -/
def Schedule.identities (schedule : Schedule) : Multiset JobIdentity :=
  (contents schedule.lists).map PlanJob.identity

@[simp] theorem identities_nil : identities [] = 0 := rfl

@[simp] theorem identities_cons (job : PlanJob) (jobs : List PlanJob) :
    identities (job :: jobs) = job.identity ::ₘ identities jobs := rfl

@[simp] theorem identities_append (jobs jobs' : List PlanJob) :
    identities (jobs ++ jobs') = identities jobs + identities jobs' := by
  unfold identities
  rw [← Multiset.coe_add, Multiset.map_add]

@[simp] theorem identity_startAt (job : PlanJob) (t : ℤ) :
    (job.startAt t).identity = job.identity := rfl

@[simp] theorem identity_unplaced (job : PlanJob) : job.unplaced.identity = job.identity := rfl

@[simp] theorem identity_setPriority (job : PlanJob) (priority : ℤ) :
    (job.setPriority priority).identity = job.identity := rfl

@[simp] theorem identity_afterMove (job : PlanJob) : job.afterMove.identity = job.identity := by
  unfold PlanJob.afterMove
  split <;> rfl

/-- The identities of a list, in its order. -/
theorem identities_eq (jobs : List PlanJob) :
    identities jobs = (jobs.map PlanJob.identity : Multiset JobIdentity) := Multiset.map_coe _ _

/-- Jobs that differ in their places only. -/
theorem identities_of_unplaced {jobs jobs' : List PlanJob}
    (h : jobs.map PlanJob.unplaced = jobs'.map PlanJob.unplaced) :
    identities jobs = identities jobs' := by
  have hmap := congrArg (List.map PlanJob.identity) h
  rw [List.map_map, List.map_map] at hmap
  rw [identities_eq, identities_eq]
  exact congrArg _ hmap

/-! ## Planning a cluster -/

section Planning

variable {conf : LimitsForClusters} {time : ℤ} {values : LimitsValues}

/-- `update_sched` loses a job at most: none if it returns 0. -/
theorem updateSched_identities {plan : ClusterPlan} {result : SchedUpdate}
    (h : updateSched conf time values plan = .ok result) :
    identities result.plan.jobs ≤ identities plan.jobs ∧
      (result.code ≠ 2 → identities result.plan.jobs = identities plan.jobs) := by
  unfold updateSched at h
  obtain ⟨slots, -, h⟩ := bind_ok.mp h
  obtain ⟨values', -, h⟩ := bind_ok.mp h
  obtain ⟨jobs, hmoved, h⟩ := bind_ok.mp h
  obtain ⟨ending, hending, h⟩ := bind_ok.mp h
  have hperm := movePreferred_perm (f := PlanJob.identity) (fun _ _ => rfl) _ hmoved
  rw [List.nil_append] at hperm
  have hjobs : identities jobs = identities plan.jobs := by
    rw [identities_eq, identities_eq]
    exact Multiset.coe_eq_coe.mpr hperm
  have hpassed : ∀ jobs : List PlanJob,
      identities (jobs.map PlanJob.afterMove) = identities jobs := by
    intro jobs
    rw [identities_eq, identities_eq, List.map_map]
    exact congrArg _ (List.map_congr_left (fun job _ => identity_afterMove job))
  cases ending with
  | complete st =>
      obtain ⟨gaps, -, h⟩ := bind_ok.mp h
      obtain rfl := pure_ok.mp h
      have hdone : identities st.done = identities jobs := by
        rw [← hpassed jobs]
        refine identities_of_unplaced ?_
        rw [planJobs_unplaced jobs hending, List.map_nil, List.nil_append, List.map_map]
        rfl
      rw [hjobs] at hdone
      exact ⟨hdone.le, fun _ => hdone⟩
  | failed st behind =>
      obtain rfl := pure_ok.mp h
      obtain ⟨pre, job, rfl, -, hdone⟩ := planJobs_failed_unplaced jobs hending
      have hpre : identities st.done = identities pre := by
        rw [← hpassed pre]
        refine identities_of_unplaced ?_
        rw [hdone, List.map_nil, List.nil_append, List.map_map]
        rfl
      refine ⟨?_, fun hcode => absurd rfl hcode⟩
      rw [← hjobs, identities_append, identities_append, identities_cons, hpre]
      exact add_le_add_right (Multiset.le_cons_self _ _) _

/-- The job lists after a call of `update_sched`. -/
theorem lists_set (schedule : Schedule) (k : ℕ) (plan : ClusterPlan) (values : LimitsValues) :
    Schedule.lists ⟨schedule.clusters.set k plan, values⟩ = schedule.lists.set k plan.jobs := by
  unfold Schedule.lists
  rw [List.map_set]

/-- The job lists after one was exchanged. -/
theorem lists_setJobs (schedule : Schedule) (k : ℕ) (jobs : List PlanJob) :
    (schedule.setJobs k jobs).lists = schedule.lists.set k jobs := by
  refine List.ext_getElem? (fun i => ?_)
  unfold Schedule.lists Schedule.setJobs
  rw [List.getElem?_map, List.getElem?_modify, List.getElem?_set, List.getElem?_map,
    List.length_map]
  by_cases hi : k = i
  · subst hi
    rw [if_pos rfl]
    cases hk : schedule.clusters[k]? with
    | none =>
        rw [if_neg (by simpa using hk)]
        rfl
    | some plan =>
        rw [if_pos (List.getElem?_eq_some_iff.mp hk).1]
        simp
  · rw [if_neg hi]
    simp [hi]

/-- The list of a cluster. -/
theorem lists_getElem? {schedule : Schedule} {k : ℕ} {plan : ClusterPlan}
    (h : schedule.clusters[k]? = some plan) : schedule.lists[k]? = some plan.jobs := by
  unfold Schedule.lists
  rw [List.getElem?_map, h]
  rfl

/-- A call of `update_sched` on one cluster of the schedule. -/
theorem updateSchedAt_identities {k code : ℕ} {schedule schedule' : Schedule}
    (h : updateSchedAt conf time k schedule = .ok (code, schedule')) :
    schedule'.identities ≤ schedule.identities := by
  obtain ⟨plan, result, hplan, hresult, rfl, rfl⟩ := updateSchedAt_spec h
  unfold Schedule.identities
  rw [lists_set]
  have hle := map_contents_set_le (s := 0) (lists_getElem? hplan)
    ((updateSched_identities hresult).1.trans_eq (zero_add _).symm)
  rwa [zero_add] at hle

/-- The calls of `update_sched` until nothing fails. -/
theorem updateUntilPlanned_identities {k : ℕ} (fuel : ℕ) :
    ∀ {schedule schedule' : Schedule},
      updateUntilPlanned conf time k fuel schedule = .ok schedule' →
      schedule'.identities ≤ schedule.identities := by
  induction fuel with
  | zero =>
      intro schedule schedule' h
      rw [updateUntilPlanned] at h
      cases h
  | succ fuel ih =>
      intro schedule schedule' h
      rw [updateUntilPlanned] at h
      obtain ⟨⟨code, mid⟩, hcall, h⟩ := bind_ok.mp h
      have hmid := updateSchedAt_identities hcall
      dsimp only at h
      split at h
      · exact (ih h).trans hmid
      · obtain rfl := pure_ok.mp h
        exact hmid

/-- The updates of all clusters at the start of a cycle. -/
theorem updateAllPlans_identities {schedule schedule' : Schedule}
    (h : updateAllPlans conf time schedule = .ok schedule') :
    schedule'.identities ≤ schedule.identities := by
  unfold updateAllPlans at h
  refine foldlM_invariant (fun s => s.identities ≤ schedule.identities) _ _ schedule schedule' ?_
    le_rfl h
  intro s k s' _ hs hstep
  exact (updateUntilPlanned_identities _ hstep).trans hs

/-- A call of `update_sched`, and its repetition after a failure. -/
theorem updateWithRetry_identities {k : ℕ} {schedule schedule' : Schedule}
    (h : updateWithRetry conf time k schedule = .ok schedule') :
    schedule'.identities ≤ schedule.identities := by
  unfold updateWithRetry at h
  obtain ⟨⟨code, mid⟩, hcall, h⟩ := bind_ok.mp h
  have hmid := updateSchedAt_identities hcall
  dsimp only at h
  split at h
  · obtain ⟨⟨code', last⟩, hcall', h⟩ := bind_ok.mp h
    obtain rfl := pure_ok.mp h
    exact (updateSchedAt_identities hcall').trans hmid
  · obtain rfl := pure_ok.mp h
    exact hmid

end Planning

/-! ## New jobs -/

section NewJobs

variable {conf : LimitsForClusters} {time : ℤ}

/-- `list_add_infrontof` adds its job. -/
theorem addInFrontOf_identities {ptr : ℕ} {job : PlanJob} (jobs : List PlanJob) :
    ∀ {jobs' : List PlanJob}, addInFrontOf jobs ptr job = .ok jobs' →
      identities jobs' = job.identity ::ₘ identities jobs := by
  induction jobs with
  | nil =>
      intro jobs' h
      rw [addInFrontOf] at h
      cases h
  | cons j rest ih =>
      intro jobs' h
      rw [addInFrontOf] at h
      split at h
      · cases h
        rfl
      · obtain ⟨rest', hrest, h⟩ := bind_ok.mp h
        obtain rfl := pure_ok.mp h
        rw [identities_cons, identities_cons, ih hrest, Multiset.cons_swap]

/-- `job_put_in_gap` adds its job, or refuses it. -/
theorem jobPutInGap_identities {jobs jobs' : List PlanJob} {job : PlanJob} {gap : PlanGap}
    (h : jobPutInGap jobs job gap = .ok jobs') :
    identities jobs' ≤ {job.identity} + identities jobs := by
  unfold jobPutInGap at h
  split at h
  · cases h
    exact Multiset.le_add_left _ _
  · cases hfollowing : gap.followingJob with
    | none =>
        rw [hfollowing] at h
        cases h
        rw [identities_append, add_comm]
        exact le_rfl
    | some ptr =>
        rw [hfollowing] at h
        rw [addInFrontOf_identities jobs h]
        exact le_rfl

/-- A new job comes into the schedule once. -/
theorem enterNewJob_identities {schedule schedule' : Schedule} {choice : GapChoice}
    (h : enterNewJob schedule choice = .ok schedule') :
    schedule'.identities ≤ {choice.job.identity} + schedule.identities := by
  unfold enterNewJob at h
  obtain ⟨plan, hplan, h⟩ := bind_ok.mp h
  obtain ⟨jobs, hjobs, h⟩ := bind_ok.mp h
  obtain rfl := pure_ok.mp h
  show (contents (schedule.setJobs choice.cluster jobs).lists).map PlanJob.identity ≤ _
  rw [lists_setJobs]
  exact map_contents_set_le (lists_getElem? (getAt_ok.mp hplan)) (jobPutInGap_identities hjobs)

end NewJobs

/-! ## The optimisation -/

section Optimisation

variable {conf : LimitsForClusters} {time optimMinimalQueued : ℤ}

/-- What a job that was taken out leaves, together with the job. -/
theorem takeOutJob_identities {schedule schedule' : Schedule} {attempt : Attempt} {job : PlanJob}
    (h : takeOutJob schedule attempt = .ok (job, schedule')) :
    {job.identity} + schedule'.identities ≤ schedule.identities := by
  unfold takeOutJob at h
  obtain ⟨plan, hplan, h⟩ := bind_ok.mp h
  obtain ⟨job', hjob, h⟩ := bind_ok.mp h
  obtain ⟨rfl, rfl⟩ := Prod.mk.inj (pure_ok.mp h)
  obtain ⟨hlt, rfl⟩ := List.getElem?_eq_some_iff.mp (getAt_ok.mp hjob)
  unfold Schedule.identities
  rw [lists_setJobs]
  refine map_contents_set_add_le (lists_getElem? (getAt_ok.mp hplan)) ?_
  have hperm := (List.getElem_cons_eraseIdx_perm hlt).map PlanJob.identity
  rw [List.map_cons] at hperm
  exact (Multiset.coe_eq_coe.mpr hperm).le

/-- The job is put back once. -/
theorem putJobBehind_identities {schedule schedule' : Schedule} {attempt : Attempt} {job : PlanJob}
    (h : putJobBehind schedule attempt job = .ok schedule') :
    schedule'.identities ≤ {job.identity} + schedule.identities := by
  unfold putJobBehind at h
  obtain ⟨plan, hplan, h⟩ := bind_ok.mp h
  have hlist := lists_getElem? (getAt_ok.mp hplan)
  dsimp only at h
  split at h
  · obtain rfl := pure_ok.mp h
    unfold Schedule.identities
    rw [lists_setJobs]
    exact map_contents_set_le hlist le_rfl
  · obtain ⟨j, hj, h⟩ := bind_ok.mp h
    obtain rfl := pure_ok.mp h
    obtain ⟨hlt, -⟩ := List.getElem?_eq_some_iff.mp (getAt_ok.mp hj)
    unfold Schedule.identities
    rw [lists_setJobs]
    refine map_contents_set_le hlist ?_
    have hperm := (List.perm_insertIdx
      { job with fixedNnameArr := job.fixedNnameArr.map (fun _ => none) } plan.jobs
      (Nat.succ_le_of_lt hlt)).map PlanJob.identity
    exact (Multiset.coe_eq_coe.mpr hperm).le

/-- `restore_job_order` brings back jobs that are still there, each once, if the copy of
the list names no job twice. -/
theorem restoreJobOrder_identities {schedule schedule' : Schedule} {attempt : Attempt}
    {backup : List PlanJob} {job : PlanJob} (honce : (backup.map PlanJob.ptr).Nodup)
    (h : restoreJobOrder schedule attempt backup job = .ok schedule') :
    schedule'.identities ≤ schedule.identities := by
  unfold restoreJobOrder at h
  obtain ⟨plan, hplan, h⟩ := bind_ok.mp h
  split at h
  · obtain rfl := pure_ok.mp h
    exact le_rfl
  · obtain ⟨jobs, hjobs, h⟩ := bind_ok.mp h
    obtain rfl := pure_ok.mp h
    unfold Schedule.identities
    rw [lists_setJobs]
    have hcells := mapM_ok.mp hjobs
    -- every job of the new list is one of the list, found by the address in the copy
    have hfound : ∀ old new : PlanJob, (do
          let current ← deref (plan.jobs.find? (fun j => j.ptr == old.ptr))
          return if old.ptr = job.ptr then { current with fixedNnameArr := job.fixedNnameArr }
            else current : Run PlanJob) = .ok new →
        new.ptr = old.ptr ∧ new.identity ∈ identities plan.jobs := by
      intro old new hnew
      obtain ⟨current, hcurrent, hnew⟩ := bind_ok.mp hnew
      have hfind := deref_ok.mp hcurrent
      have hptr : current.ptr = old.ptr := by simpa using List.find?_some hfind
      have hmem : current.identity ∈ identities plan.jobs :=
        Multiset.mem_map_of_mem _ (List.mem_of_find?_eq_some hfind)
      obtain rfl := pure_ok.mp hnew
      split
      · exact ⟨hptr, hmem⟩
      · exact ⟨hptr, hmem⟩
    have hptrs : jobs.map PlanJob.ptr = backup.map PlanJob.ptr := by
      rw [← List.forall₂_eq_eq_eq, List.forall₂_map_left_iff, List.forall₂_map_right_iff]
      exact (hcells.imp (fun old new hnew => (hfound old new hnew).1)).flip
    have hle : identities jobs ≤ identities plan.jobs := by
      refine map_le_of_once (f := JobIdentity.ptr) ?_ ?_
      · show (Multiset.map _ _).Nodup
        rw [identities_eq, Multiset.map_coe, List.map_map]
        rw [← hptrs] at honce
        exact honce
      · intro identity hidentity
        obtain ⟨new, hnew, rfl⟩ := Multiset.mem_map.mp hidentity
        obtain ⟨i, hi⟩ := List.mem_iff_getElem?.mp hnew
        obtain ⟨old, -, hold⟩ := exists_of_mapM_getElem? hjobs hi
        exact (hfound old new hold).2
    have hset := map_contents_set_le (s := 0) (lists_getElem? (getAt_ok.mp hplan))
      (hle.trans_eq (zero_add _).symm)
    rwa [zero_add] at hset

/-- No list of the schedule has two jobs of one address. -/
theorem nodup_of_once {schedule : Schedule} (honce : Once JobIdentity.ptr schedule.identities)
    {k : ℕ} {plan : ClusterPlan} (hplan : schedule.clusters[k]? = some plan) :
    (plan.jobs.map PlanJob.ptr).Nodup := by
  have hsub : (plan.jobs : Multiset PlanJob) ≤ contents schedule.lists := by
    unfold contents
    rw [Multiset.coe_le]
    exact (List.sublist_flatten_of_mem (List.mem_of_getElem? (lists_getElem? hplan))).subperm
  have hjobs := honce.mono (Multiset.map_le_map (f := PlanJob.identity) hsub)
  unfold Once at hjobs
  rwa [Multiset.map_coe, Multiset.map_coe, List.map_map, Multiset.coe_nodup] at hjobs

/-- An attempt of the optimisation doubles no job, kept or rolled back. -/
theorem optimizationAttempt_identities {schedule schedule' : Schedule} {attempt : Attempt}
    (honce : Once JobIdentity.ptr schedule.identities)
    (h : optimizationAttempt conf time optimMinimalQueued schedule attempt = .ok schedule') :
    schedule'.identities ≤ schedule.identities := by
  unfold optimizationAttempt at h
  obtain ⟨plan, hplan, h⟩ := bind_ok.mp h
  split at h
  · obtain rfl := pure_ok.mp h
    exact le_rfl
  · obtain ⟨⟨job, s₁⟩, htake, h⟩ := bind_ok.mp h
    obtain ⟨s₂, hs₂, h⟩ := bind_ok.mp h
    obtain ⟨s₃, hput, h⟩ := bind_ok.mp h
    obtain ⟨s₄, hs₄, h⟩ := bind_ok.mp h
    obtain ⟨gaps, -, h⟩ := bind_ok.mp h
    have hback : s₄.identities ≤ schedule.identities := calc
      s₄.identities ≤ s₃.identities := updateWithRetry_identities hs₄
      _ ≤ {job.identity} + s₂.identities := putJobBehind_identities hput
      _ ≤ {job.identity} + s₁.identities := add_le_add_right (updateWithRetry_identities hs₂) _
      _ ≤ schedule.identities := takeOutJob_identities htake
    split at h
    · obtain rfl := pure_ok.mp h
      exact hback
    · obtain ⟨s₅, hrestore, h⟩ := bind_ok.mp h
      have hnodup := nodup_of_once honce (getAt_ok.mp hplan)
      exact (updateWithRetry_identities h).trans
        ((restoreJobOrder_identities hnodup hrestore).trans hback)

/-- Neither does the whole optimisation. -/
theorem planOptimization_identities {schedule schedule' : Schedule} {attempts : List Attempt}
    (honce : Once JobIdentity.ptr schedule.identities)
    (h : planOptimization conf time optimMinimalQueued schedule attempts = .ok schedule') :
    schedule'.identities ≤ schedule.identities := by
  unfold planOptimization at h
  obtain ⟨gaps, -, h⟩ := bind_ok.mp h
  refine foldlM_invariant (fun s => s.identities ≤ schedule.identities) _ _ schedule schedule' ?_
    le_rfl h
  intro s attempt s' _ hs hstep
  exact (optimizationAttempt_identities (honce.mono hs) hstep).trans hs

end Optimisation

/-! ## Starting jobs -/

section Starting

variable {env : RunEnv} {timeNow : ℤ}

/-- A visit that keeps its job keeps its identity. -/
theorem tryRunVisit_identity {st st' : RunState} {job job' : PlanJob}
    (h : tryRunVisit env timeNow st job = .keep st' job') : job'.identity = job.identity := by
  rcases tryRunVisit_cases env timeNow st job with ⟨-, hv⟩ | ⟨-, -, hv⟩ | ⟨-, -, hv⟩ <;>
    rw [hv] at h
  · cases h
  · rcases tryRunJob_cases env timeNow st job with
      ⟨st₁, hrun, -, -⟩ | ⟨st₁, job₁, hrun, -, hjob, -⟩ <;> rw [hrun] at h <;> cases h
    rcases hjob with rfl | rfl <;> rfl
  · cases h
    rfl

/-- `try_run_plan` leaves jobs of the lists. -/
theorem tryRunPlan_identities (lists : List (List PlanJob)) :
    ∀ st, (contents (tryRunPlan env timeNow st lists).2).map PlanJob.identity
      ≤ (contents lists).map PlanJob.identity := by
  induction lists with
  | nil => exact fun st => le_rfl
  | cons jobs rest ih =>
      intro st
      have hkeep : ∀ s a s' a', tryRunVisit env timeNow s a = .keep s' a' →
          a'.identity = a.identity := fun _ _ _ _ h => tryRunVisit_identity h
      have hwalk := walk_map_sublist hkeep jobs st
      have hjobs : identities (walk (tryRunVisit env timeNow) st jobs).2.1 ≤ identities jobs := by
        rw [identities_eq, identities_eq]
        exact hwalk.subperm
      rw [tryRunPlan]
      generalize walk (tryRunVisit env timeNow) st jobs = r at hjobs
      obtain ⟨st', jobs', finished⟩ := r
      cases finished with
      | false =>
          simp only [Bool.false_eq_true, if_false, contents_cons, Multiset.map_add]
          exact add_le_add_left hjobs _
      | true =>
          simp only [if_true, contents_cons, Multiset.map_add]
          exact add_le_add hjobs (ih st')

end Starting

end PlanSched
