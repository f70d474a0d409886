/-
# Starting the jobs of the plan

Models `World::try_run_plan` (`SchedulerRealm.cpp`): the walk through the job
list of every cluster that submits the jobs whose time has come.

The walk follows the cursor of the list, and `list_remove_item` resets that
cursor, so removing a job makes the walk start again at the first one
(`CursorWalk`).  A successful start changes neither the job's state nor any run
counter.

* `tryRunPlan_atMostOnce_iff`: every job is submitted at most once, whatever the
  checks and the servers answer, exactly when no list has a job to be removed
  behind a job that is due.
* `tryRunPlan_withinLimits_iff`: the run limits hold afterwards, whatever the other
  checks and the servers answer, exactly when no finite limit has fewer places
  left than there are due jobs that pass the checks against the snapshot.
-/
import PlanSched.CursorWalk
import PlanSched.RunChecks

namespace PlanSched

open CursorWalk

/-! ## The walk -/

/-- Midnight, 1 January 2000: a start time that was really planned is later. -/
def EARLIEST_START : ℤ := 946684800

/-- The job is to be removed: it is not running and has no place in the plan. -/
def PlanJob.removable (timeNow : ℤ) (job : PlanJob) : Bool :=
  decide (job.availableAfter ≤ timeNow) && job.jinfo.state != .running &&
    decide (job.startTime < 0)

/-- The job is to be started. -/
def PlanJob.due (timeNow : ℤ) (job : PlanJob) : Bool :=
  decide (job.availableAfter ≤ timeNow) && job.jinfo.state == .queued &&
    decide (job.startTime ≤ timeNow) && decide (EARLIEST_START < job.startTime)

/-- One call of `pbs_runjob`, or of `pbs_movejob` for a job of another server. -/
structure Submission where
  ptr : ℕ
  jinfo : JobInfo
  moved : Bool
  ret : ℤ
  deriving DecidableEq, Repr

/-- The state the walk passes on: the run counters, the dynamic resources of the
server, the number of jobs tried so far and the calls made. -/
structure RunState where
  counters : Counters
  dynamicResources : List (String × DynamicResource)
  tried : ℕ
  log : List Submission

/-- What the walk depends on besides its state: the local server's name, the
run check, the dynamic resources to be recorded, and the outcomes by attempt. -/
structure RunEnv where
  localServer : String
  rescInfoDb : List String
  outcome : ℕ → Outcome
  isOk : RunState → PlanJob → RunCheck × Counters

/-- The environment in which `is_ok_to_run_job_new` makes the checks. -/
def RunEnv.checked (localServer : String) (rescInfoDb : List String) (outcome : ℕ → Outcome) :
    RunEnv where
  localServer := localServer
  rescInfoDb := rescInfoDb
  outcome := outcome
  isOk := fun st job =>
    isOkToRunJobNew rescInfoDb st.counters st.dynamicResources (outcome st.tried) job.jinfo

/-- Submit a job that passed the checks. -/
def submit (env : RunEnv) (st : RunState) (job : PlanJob) (ret : ℤ) : RunState :=
  { st with
    log := st.log ++ [{
      ptr := job.ptr
      jinfo := job.jinfo
      moved := (st.counters.queues job.jinfo.queue).serverName != env.localServer
      ret := ret }]
    dynamicResources :=
      if ret = 0 then recordScheduled env.rescInfoDb st.dynamicResources job.jinfo
      else st.dynamicResources }

/-- Try to start a job that is due.  An unknown server name is an exception that
leaves the walk. -/
def tryRunJob (env : RunEnv) (timeNow : ℤ) (st : RunState) (job : PlanJob) :
    Visit RunState PlanJob :=
  let outcome := env.outcome st.tried
  if outcome.connected then
    let (rc, counters) := env.isOk st job
    let st := { st with counters := counters, tried := st.tried + 1 }
    if rc = .insuficientDynamicResource then
      .keep st { job with availableAfter := timeNow + 1800 }
    else if rc ≠ .success then .keep st job
    else .keep (submit env st job outcome.ret) job
  else .stop { st with tried := st.tried + 1 }

/-- The body of the loop of `try_run_plan`. -/
def tryRunVisit (env : RunEnv) (timeNow : ℤ) (st : RunState) (job : PlanJob) :
    Visit RunState PlanJob :=
  if job.removable timeNow then .remove st
  else if job.due timeNow then tryRunJob env timeNow st job
  else .keep st job

/-- `try_run_plan`, cluster by cluster: the state and the job lists it leaves. -/
def tryRunPlan (env : RunEnv) (timeNow : ℤ) :
    RunState → List (List PlanJob) → RunState × List (List PlanJob)
  | st, [] => (st, [])
  | st, jobs :: rest =>
      let (st', jobs', finished) := walk (tryRunVisit env timeNow) st jobs
      if finished then
        let (st'', rest') := tryRunPlan env timeNow st' rest
        (st'', jobs' :: rest')
      else (st', jobs' :: rest)

/-- The state before the first visit. -/
def RunState.initial (counters : Counters) (dynamicResources : List (String × DynamicResource)) :
    RunState :=
  ⟨counters, dynamicResources, 0, []⟩

/-- The job lists of the clusters; every `plan_job` is one object in one list. -/
structure PlanLists where
  clusters : List (List PlanJob)
  nodup : (clusters.flatten.map PlanJob.ptr).Nodup

/-! ## What a visit can do -/

/-- A due job is not to be removed. -/
theorem PlanJob.not_removable_of_due {timeNow : ℤ} {job : PlanJob} (h : job.due timeNow = true) :
    job.removable timeNow = false := by
  unfold PlanJob.due EARLIEST_START at h
  unfold PlanJob.removable
  simp only [Bool.and_eq_true, decide_eq_true_eq] at h
  have : ¬ job.startTime < 0 := by omega
  simp [this]

section visit

variable (env : RunEnv) (timeNow : ℤ) (st : RunState) (job : PlanJob)

/-- A job that passed the checks, submitted after them. -/
def submitted : Submission where
  ptr := job.ptr
  jinfo := job.jinfo
  moved := ((env.isOk st job).2.queues job.jinfo.queue).serverName != env.localServer
  ret := (env.outcome st.tried).ret

/-- A due job is tried, and then kept as it was or set back, unless the walk
stops at it; only a job that passed the check is submitted. -/
theorem tryRunJob_cases :
    (∃ st', tryRunJob env timeNow st job = .stop st' ∧ st'.log = st.log ∧
      st'.counters = st.counters) ∨
    (∃ st' job', tryRunJob env timeNow st job = .keep st' job' ∧
      st'.counters = (env.isOk st job).2 ∧
      (job' = job ∨ job' = { job with availableAfter := timeNow + 1800 }) ∧
      (st'.log = st.log ∨
        ((env.isOk st job).1 = .success ∧ st'.log = st.log ++ [submitted env st job]))) := by
  unfold tryRunJob
  simp only
  split
  · right
    split
    · exact ⟨_, _, rfl, rfl, Or.inr rfl, Or.inl rfl⟩
    · split
      · exact ⟨_, _, rfl, rfl, Or.inl rfl, Or.inl rfl⟩
      · rename_i hrc
        exact ⟨_, _, rfl, rfl, Or.inl rfl, Or.inr ⟨not_not.mp hrc, rfl⟩⟩
  · exact Or.inl ⟨_, rfl, rfl, rfl⟩

/-- A visit removes a job, tries one that is due, or passes by. -/
theorem tryRunVisit_cases :
    (job.removable timeNow = true ∧ tryRunVisit env timeNow st job = .remove st) ∨
    (job.removable timeNow = false ∧ job.due timeNow = true ∧
      tryRunVisit env timeNow st job = tryRunJob env timeNow st job) ∨
    (job.removable timeNow = false ∧ job.due timeNow = false ∧
      tryRunVisit env timeNow st job = .keep st job) := by
  unfold tryRunVisit
  cases hr : job.removable timeNow with
  | true => exact Or.inl ⟨rfl, by simp⟩
  | false =>
      right
      cases hd : job.due timeNow with
      | true => exact Or.inl ⟨rfl, rfl, by simp⟩
      | false => exact Or.inr ⟨rfl, rfl, by simp⟩

end visit

/-! ## What a pass adds to the log -/

section log

variable (env : RunEnv) (timeNow : ℤ)

/-- A pass submits a job at most once, and only jobs of its list. -/
theorem passOnce_log (jobs : List PlanJob) :
    ∀ st, ∃ new : List Submission, (new.map Submission.ptr).Sublist (jobs.map PlanJob.ptr) ∧
      (passOnce (tryRunVisit env timeNow) st jobs).state.log = st.log ++ new := by
  induction jobs with
  | nil => intro st; exact ⟨[], by simp, by simp [passOnce, Pass.state]⟩
  | cons job jobs ih =>
      intro st
      rcases tryRunVisit_cases env timeNow st job with ⟨_, hv⟩ | ⟨_, _, hv⟩ | ⟨_, _, hv⟩
      · rw [passOnce_of_remove hv]
        exact ⟨[], by simp, by simp [Pass.state]⟩
      · rcases tryRunJob_cases env timeNow st job with
          ⟨st', hrun, hlog, _⟩ | ⟨st', job', hrun, _, _, hlog⟩
        · rw [passOnce_of_stop (hv.trans hrun)]
          exact ⟨[], by simp, by simpa [Pass.state] using hlog⟩
        · rw [passOnce_of_keep (hv.trans hrun), Pass.cons_state]
          obtain ⟨new, hnew, hpass⟩ := ih st'
          rcases hlog with hlog | ⟨_, hlog⟩
          · exact ⟨new, hnew.cons _, by rw [hpass, hlog]⟩
          · refine ⟨submitted env st job :: new, hnew.cons_cons _, ?_⟩
            rw [hpass, hlog, List.append_assoc]
            rfl
      · rw [passOnce_of_keep hv, Pass.cons_state]
        obtain ⟨new, hnew, hpass⟩ := ih st
        exact ⟨new, hnew.cons _, hpass⟩

/-- Exactly the removable jobs are removed, and only the due ones are tried. -/
theorem tryRunVisit_orderly : Orderly (tryRunVisit env timeNow) (PlanJob.removable timeNow)
    (PlanJob.due timeNow) := by
  intro st job
  rcases tryRunVisit_cases env timeNow st job with h | ⟨hrem, hdue, hv⟩ | ⟨hrem, hdue, hv⟩
  · exact Or.inl h
  · refine Or.inr (Or.inr ⟨hrem, hdue, ?_⟩)
    rcases tryRunJob_cases env timeNow st job with ⟨st', hrun, _⟩ | ⟨st', job', hrun, _⟩
    · exact Or.inl ⟨st', hv.trans hrun⟩
    · exact Or.inr ⟨st', job', hv.trans hrun⟩
  · exact Or.inr (Or.inl ⟨hrem, hdue, hv⟩)

/-- No job to be removed stands behind a due one. -/
def RemovalsFirst (jobs : List PlanJob) : Prop :=
  jobs.Pairwise (fun a b => ¬ (a.due timeNow = true ∧ b.removable timeNow = true))

/-- When removals come first, a whole walk submits a job at most once. -/
theorem walk_log (jobs : List PlanJob) (hfirst : RemovalsFirst timeNow jobs) (st : RunState) :
    ∃ new : List Submission, (new.map Submission.ptr).Sublist (jobs.map PlanJob.ptr) ∧
      (walk (tryRunVisit env timeNow) st jobs).1.log = st.log ++ new := by
  have horderly := tryRunVisit_orderly env timeNow
  have hnone : ∀ job ∈ jobs.filter (fun job => !job.removable timeNow),
      job.removable timeNow = false := by
    intro job hjob
    have := (List.mem_filter.mp hjob).2
    simpa using this
  obtain ⟨new, hnew, hlog⟩ :=
    passOnce_log env timeNow (jobs.filter (fun job => !job.removable timeNow)) st
  refine ⟨new, hnew.trans (List.filter_sublist.map _), ?_⟩
  rw [horderly.walk_filter jobs hfirst, horderly.walk_of_none hnone]
  exact hlog

/-- The same for all clusters. -/
theorem tryRunPlan_log (clusters : List (List PlanJob))
    (hfirst : ∀ jobs ∈ clusters, RemovalsFirst timeNow jobs) :
    ∀ st, ∃ new : List Submission,
      (new.map Submission.ptr).Sublist (clusters.flatten.map PlanJob.ptr) ∧
      (tryRunPlan env timeNow st clusters).1.log = st.log ++ new := by
  induction clusters with
  | nil => intro st; exact ⟨[], by simp, by simp [tryRunPlan]⟩
  | cons jobs rest ih =>
      intro st
      obtain ⟨new, hnew, hlog⟩ := walk_log env timeNow jobs (hfirst jobs List.mem_cons_self) st
      rw [tryRunPlan]
      generalize walk (tryRunVisit env timeNow) st jobs = r at hlog
      obtain ⟨st', jobs', finished⟩ := r
      rw [List.flatten_cons, List.map_append]
      cases finished with
      | false => exact ⟨new, hnew.trans (List.sublist_append_left _ _), hlog⟩
      | true =>
          obtain ⟨new', hnew', hlog'⟩ :=
            ih (fun j hj => hfirst j (List.mem_cons_of_mem _ hj)) st'
          refine ⟨new ++ new', ?_, ?_⟩
          · rw [List.map_append]
            exact hnew.append hnew'
          · simp only [if_true]
            rw [hlog', hlog, List.append_assoc]

end log

/-! ## Environments in which nothing goes wrong -/

/-- A submission of the job that the server accepted. -/
def Submission.Starts (job : PlanJob) (s : Submission) : Prop := s.ptr = job.ptr ∧ s.ret = 0

instance (job : PlanJob) (s : Submission) : Decidable (s.Starts job) :=
  inferInstanceAs (Decidable (_ ∧ _))

/-- Under the invariant, a due job is kept as it is, and started when it is `ok`. -/
def Steady (env : RunEnv) (timeNow : ℤ) (ok : PlanJob → Prop) (inv : RunState → Prop) : Prop :=
  ∀ st job, inv st → job.due timeNow = true →
    ∃ st' new, tryRunJob env timeNow st job = .keep st' job ∧ inv st' ∧
      st'.log = st.log ++ new ∧ (ok job → ∃ s ∈ new, s.Starts job)

section steady

variable {env : RunEnv} {timeNow : ℤ} {ok : PlanJob → Prop} {inv : RunState → Prop}
  (hsteady : Steady env timeNow ok inv)

include hsteady

/-- A pass starts every due job in front of the first job to be removed. -/
theorem passOnce_steady (jobs : List PlanJob) :
    ∀ st, inv st → ∃ st' new, inv st' ∧ st'.log = st.log ++ new ∧
      ((passOnce (tryRunVisit env timeNow) st jobs = .finished st' jobs ∧
          (∀ job ∈ jobs, job.removable timeNow = false) ∧
          ∀ job ∈ jobs, job.due timeNow = true → ok job → ∃ s ∈ new, s.Starts job) ∨
        ∃ pre gone post, jobs = pre ++ gone :: post ∧ gone.removable timeNow = true ∧
          passOnce (tryRunVisit env timeNow) st jobs = .removed st' (pre ++ post) ∧
          ∀ job ∈ pre, job.due timeNow = true → ok job → ∃ s ∈ new, s.Starts job) := by
  induction jobs with
  | nil =>
      intro st hst
      exact ⟨st, [], hst, by simp, Or.inl ⟨rfl, by simp, by simp⟩⟩
  | cons job jobs ih =>
      intro st hst
      -- the job is removed, or kept and started if it should be
      have hstep : (job.removable timeNow = true ∧ tryRunVisit env timeNow st job = .remove st) ∨
          (job.removable timeNow = false ∧ ∃ st₁ first,
            tryRunVisit env timeNow st job = .keep st₁ job ∧ inv st₁ ∧
            st₁.log = st.log ++ first ∧
            (job.due timeNow = true → ok job → ∃ s ∈ first, s.Starts job)) := by
        rcases tryRunVisit_cases env timeNow st job with h | ⟨hrem, hdue, hv⟩ | ⟨hrem, hdue, hv⟩
        · exact Or.inl h
        · obtain ⟨st₁, first, hrun, hst₁, hlog₁, hstart⟩ := hsteady st job hst hdue
          exact Or.inr ⟨hrem, st₁, first, hv.trans hrun, hst₁, hlog₁, fun _ => hstart⟩
        · refine Or.inr ⟨hrem, st, [], hv, hst, by simp, ?_⟩
          intro h
          rw [hdue] at h
          cases h
      rcases hstep with ⟨hrem, hv⟩ | ⟨hrem, st₁, first, hv, hst₁, hlog₁, hstart⟩
      · exact ⟨st, [], hst, by simp,
          Or.inr ⟨[], job, jobs, rfl, hrem, passOnce_of_remove hv, by simp⟩⟩
      · obtain ⟨st', new, hst', hlog, hcases⟩ := ih st₁ hst₁
        refine ⟨st', first ++ new, hst', by rw [hlog, hlog₁, List.append_assoc], ?_⟩
        have hstarts : ∀ (front : List PlanJob),
            (∀ j ∈ front, j.due timeNow = true → ok j → ∃ s ∈ new, s.Starts j) →
            ∀ j ∈ job :: front, j.due timeNow = true → ok j → ∃ s ∈ first ++ new, s.Starts j := by
          intro front hfront j hj hjdue hjok
          rcases List.mem_cons.mp hj with rfl | hj
          · obtain ⟨s, hs, hstarts⟩ := hstart hjdue hjok
            exact ⟨s, List.mem_append_left _ hs, hstarts⟩
          · obtain ⟨s, hs, hstarts⟩ := hfront j hj hjdue hjok
            exact ⟨s, List.mem_append_right _ hs, hstarts⟩
        rw [passOnce_of_keep hv]
        rcases hcases with ⟨hp, hnone, hall⟩ | ⟨pre, gone, post, rfl, hgone, hp, hall⟩
        · refine Or.inl ⟨by rw [hp]; rfl, ?_, hstarts jobs hall⟩
          intro j hj
          rcases List.mem_cons.mp hj with rfl | hj
          · exact hrem
          · exact hnone j hj
        · exact Or.inr ⟨job :: pre, gone, post, rfl, hgone, by rw [hp]; rfl, hstarts pre hall⟩

/-- A walk reaches its end and starts every due job, and some due job twice when
a job to be removed stands behind one. -/
theorem walk_steady (jobs : List PlanJob) :
    ∀ st, inv st → ∃ st' jobs' new, walk (tryRunVisit env timeNow) st jobs = (st', jobs', true) ∧
      inv st' ∧ st'.log = st.log ++ new ∧
      (∀ job ∈ jobs, job.due timeNow = true → ok job → ∃ s ∈ new, s.Starts job) ∧
      ((∀ job, ok job) → ¬ RemovalsFirst timeNow jobs → ¬ (new.map Submission.ptr).Nodup) := by
  induction hn : jobs.length using Nat.strong_induction_on generalizing jobs with
  | _ n ih =>
      intro st hst
      obtain ⟨st₁, first, hst₁, hlog₁, hcases⟩ := passOnce_steady hsteady jobs st hst
      rw [walk_eq]
      rcases hcases with ⟨hp, hnone, hall⟩ | ⟨pre, gone, post, rfl, hgone, hp, hall⟩
      · rw [hp]
        refine ⟨st₁, jobs, first, rfl, hst₁, hlog₁, hall, ?_⟩
        intro _ hnot
        refine absurd (List.pairwise_of_forall_mem_list ?_) hnot
        intro a _ b hb hab
        rw [hnone b hb] at hab
        cases hab.2
      · rw [hp]
        obtain ⟨st', jobs', new, hwalk, hst', hlog, hstarts, htwice⟩ :=
          ih (pre ++ post).length (by rw [← hn]; simp) (pre ++ post) rfl st₁ hst₁
        refine ⟨st', jobs', first ++ new, hwalk, hst',
          by rw [hlog, hlog₁, List.append_assoc], ?_, ?_⟩
        · intro job hjob hdue hok
          have hmem : job ∈ pre ++ post := by
            rcases List.mem_append.mp hjob with h | h
            · exact List.mem_append_left _ h
            · rcases List.mem_cons.mp h with rfl | h
              · rw [PlanJob.not_removable_of_due hdue] at hgone
                cases hgone
              · exact List.mem_append_right _ h
          obtain ⟨s, hs, hstart⟩ := hstarts job hmem hdue hok
          exact ⟨s, List.mem_append_right _ hs, hstart⟩
        · intro hok hnot hnodup
          rw [List.map_append, List.nodup_append] at hnodup
          obtain ⟨_, hnodup₂, hdisjoint⟩ := hnodup
          by_cases hpre : ∃ job ∈ pre, job.due timeNow = true
          · -- a due job of `pre` was started before the removal and is started again
            obtain ⟨job, hjob, hdue⟩ := hpre
            obtain ⟨s, hs, hstart⟩ := hall job hjob hdue (hok job)
            obtain ⟨s', hs', hstart'⟩ :=
              hstarts job (List.mem_append_left _ hjob) hdue (hok job)
            exact hdisjoint s.ptr (List.mem_map_of_mem hs) s'.ptr (List.mem_map_of_mem hs')
              (hstart.1.trans hstart'.1.symm)
          · -- otherwise the offending pair stands behind the removed job
            refine htwice hok ?_ hnodup₂
            intro hfirst
            apply hnot
            unfold RemovalsFirst at hfirst ⊢
            rw [List.pairwise_append] at hfirst ⊢
            obtain ⟨h₁, h₂, h₃⟩ := hfirst
            refine ⟨h₁, List.pairwise_cons.mpr ⟨?_, h₂⟩, ?_⟩
            · intro b _ hab
              rw [PlanJob.not_removable_of_due hab.1] at hgone
              cases hgone
            · intro a ha b _ hab
              exact hpre ⟨a, ha, hab.1⟩

/-- The same for all clusters. -/
theorem tryRunPlan_steady (clusters : List (List PlanJob)) :
    ∀ st, inv st → ∃ new, (tryRunPlan env timeNow st clusters).1.log = st.log ++ new ∧
      (∀ job ∈ clusters.flatten, job.due timeNow = true → ok job → ∃ s ∈ new, s.Starts job) ∧
      ((∀ job, ok job) → (∃ jobs ∈ clusters, ¬ RemovalsFirst timeNow jobs) →
        ¬ (new.map Submission.ptr).Nodup) := by
  induction clusters with
  | nil => intro st _; exact ⟨[], by simp [tryRunPlan], by simp, by simp⟩
  | cons jobs rest ih =>
      intro st hst
      obtain ⟨st₁, jobs', first, hwalk, hst₁, hlog₁, hstarts₁, htwice₁⟩ :=
        walk_steady hsteady jobs st hst
      obtain ⟨new, hlog, hstarts, htwice⟩ := ih st₁ hst₁
      refine ⟨first ++ new, ?_, ?_, ?_⟩
      · rw [tryRunPlan, hwalk]
        simp only [if_true]
        rw [hlog, hlog₁, List.append_assoc]
      · intro job hjob hdue hok
        rw [List.flatten_cons] at hjob
        rcases List.mem_append.mp hjob with h | h
        · obtain ⟨s, hs, hstart⟩ := hstarts₁ job h hdue hok
          exact ⟨s, List.mem_append_left _ hs, hstart⟩
        · obtain ⟨s, hs, hstart⟩ := hstarts job h hdue hok
          exact ⟨s, List.mem_append_right _ hs, hstart⟩
      · rintro hok ⟨list, hlist, hnot⟩ hnodup
        rw [List.map_append, List.nodup_append] at hnodup
        rcases List.mem_cons.mp hlist with rfl | hlist
        · exact htwice₁ hok hnot hnodup.1
        · exact htwice hok ⟨list, hlist, hnot⟩ hnodup.2.1

end steady

/-! ## At most one start for each job -/

/-- The environment in which every check passes and every call succeeds. -/
def RunEnv.allPass : RunEnv where
  localServer := ""
  rescInfoDb := []
  outcome := fun _ => ⟨true, .success, .success, 0⟩
  isOk := fun st _ => (.success, st.counters)

/-- There, every due job is started. -/
theorem steady_allPass (timeNow : ℤ) :
    Steady RunEnv.allPass timeNow (fun _ => True) (fun _ => True) := by
  intro st job _ _
  exact ⟨_, [_], rfl, trivial, rfl, fun _ => ⟨_, List.mem_singleton_self _, rfl, rfl⟩⟩

/-- Counters without any running job. -/
def Counters.idle : Counters :=
  ⟨RunCounters.snapshot RESC_INFINITY RESC_INFINITY RESC_INFINITY [],
    fun _ => ⟨"", "", RunCounters.snapshot RESC_INFINITY RESC_INFINITY RESC_INFINITY []⟩⟩

/-- **Each job is submitted at most once, whatever the checks and servers answer,
exactly when no list has a job to be removed behind a due one.** -/
theorem tryRunPlan_atMostOnce_iff (plan : PlanLists) (timeNow : ℤ) :
    (∀ env counters dynamicResources,
      ((tryRunPlan env timeNow (RunState.initial counters dynamicResources)
        plan.clusters).1.log.map Submission.ptr).Nodup) ↔
    ∀ jobs ∈ plan.clusters, jobs.Pairwise
      (fun a b => ¬ (a.due timeNow = true ∧ b.removable timeNow = true)) := by
  constructor
  · intro hall jobs hjobs
    by_contra hnotfirst
    obtain ⟨new, hlog, _, htwice⟩ := tryRunPlan_steady (steady_allPass timeNow) plan.clusters
      (RunState.initial Counters.idle []) trivial
    have hnodup := hall RunEnv.allPass Counters.idle []
    rw [hlog] at hnodup
    exact htwice (fun _ => trivial) ⟨jobs, hjobs, hnotfirst⟩ hnodup
  · intro hfirst env counters dynamicResources
    obtain ⟨new, hsub, hlog⟩ := tryRunPlan_log env timeNow plan.clusters hfirst
      (RunState.initial counters dynamicResources)
    rw [hlog]
    exact plan.nodup.sublist hsub

/-- `NODESPEC_NOT_ENOUGH_NODES_TOTAL`, from `RET_BASE`. -/
def nodespecNotEnoughNodesTotal : RunCheck := .other 20

/-- One job is tried again and again.  A try that succeeds leaves its nodes assigned, so
`check_nodespec` finds them occupied at the next one, and cleans them for the try after that. -/
def RunEnv.sameNodes : RunEnv :=
  RunEnv.checked "" [] (fun tried =>
    ⟨true, .success, if tried % 2 = 0 then .success else nodespecNotEnoughNodesTotal, 0⟩)

/-- A job due since ten seconds, and behind it two queued jobs without a place in the plan: both
are removed, and the first job is tried three times and submitted twice. -/
theorem tryRunPlan_submits_twice :
    ∃ plan : PlanLists,
      (tryRunPlan RunEnv.sameNodes 1700000010 (RunState.initial Counters.idle [])
        plan.clusters).1.log.map Submission.ptr = [0, 0] ∧
      ¬ ((tryRunPlan RunEnv.sameNodes 1700000010 (RunState.initial Counters.idle [])
        plan.clusters).1.log.map Submission.ptr).Nodup := by
  refine ⟨⟨[[PlanJob.filled 0 { (default : JobInfo) with state := .queued } 1 1 (by decide)
        0 3600 0 1700000000,
      PlanJob.filled 1 { (default : JobInfo) with state := .queued } 1 1 (by decide)
        0 3600 0 (-1),
      PlanJob.filled 2 { (default : JobInfo) with state := .queued } 1 1 (by decide)
        0 3600 0 (-1)]], by decide⟩, ?_, ?_⟩
  · decide +kernel
  · decide +kernel

/-! ## Run limits -/

/-- The counters of a snapshot, counted and cached correctly. -/
structure Snapshot where
  counters : Counters
  coherent : counters.Coherent

/-- The jobs of the plan that the limit counts and that were started. -/
def startedCount (plan : PlanLists) (log : List Submission) (limit : RunLimit) : ℤ :=
  (plan.clusters.flatten.filter (fun job =>
    limit.counts job.jinfo && log.any (fun s => decide (s.Starts job)))).length

/-- No finite limit is exceeded by the running jobs and the started ones. -/
def WithinLimits (c : Counters) (plan : PlanLists) (log : List Submission) : Prop :=
  ∀ limit : RunLimit, limit.value c ≠ RESC_INFINITY →
    limit.running c + startedCount plan log limit ≤ limit.value c

/-- The due jobs that the limit counts and that pass the checks against the
counters. -/
def admissibleCount (c : Counters) (timeNow : ℤ) (plan : PlanLists) (limit : RunLimit) : ℤ :=
  (plan.clusters.flatten.filter (fun job =>
    limit.counts job.jinfo && (job.due timeNow && decide (c.Admits job.jinfo)))).length

/-- Every check but those of the limits passes and every call succeeds: the due
jobs whose limits are open are started. -/
theorem steady_checked (snapshot : Snapshot) (timeNow : ℤ) :
    Steady (RunEnv.checked "" [] (fun _ => ⟨true, .success, .success, 0⟩)) timeNow
      (fun job => snapshot.counters.Admits job.jinfo)
      (fun st => st.counters.Coherent ∧ snapshot.counters.SameJobs st.counters) := by
  intro st job hinv _
  obtain ⟨hcoh, hsame⟩ := hinv
  obtain ⟨hiff, hne, hcoh', hsame'⟩ := checkLimits_spec hcoh job.jinfo
  have hok : (RunEnv.checked "" [] (fun _ => ⟨true, .success, .success, 0⟩)).isOk st job
      = ((checkLimits st.counters job.jinfo).1, (checkLimits st.counters job.jinfo).2) := by
    simp only [RunEnv.checked, isOkToRunJobNew, checkDynamicResources]
    by_cases h : (checkLimits st.counters job.jinfo).1 = .success
    · simp [h]
    · simp [h]
  have hconnected : ((RunEnv.checked "" [] (fun _ => ⟨true, .success, .success, 0⟩)).outcome
      st.tried).connected = true := rfl
  unfold tryRunJob
  simp only [hok]
  rw [if_pos hconnected, if_neg hne]
  by_cases hrc : (checkLimits st.counters job.jinfo).1 = .success
  · rw [if_neg (not_not.mpr hrc)]
    exact ⟨_, [_], rfl, ⟨hcoh', hsame.trans hsame'⟩, rfl,
      fun _ => ⟨_, List.mem_singleton_self _, rfl, rfl⟩⟩
  · rw [if_pos hrc]
    refine ⟨_, [], rfl, ⟨hcoh', hsame.trans hsame'⟩, by simp, ?_⟩
    intro hadmits
    exact absurd (hiff.mpr ((hsame.admits_iff job.jinfo).mpr hadmits)) hrc

/-- The job is one of the plan, possibly set back to a later time. -/
def FromPlan (plan : PlanLists) (timeNow : ℤ) (job : PlanJob) : Prop :=
  ∃ origin ∈ plan.clusters.flatten, job = origin ∨ timeNow < job.availableAfter

/-- The counters are those of the snapshot up to caches, and every submission is
of a due job of the plan whose limits were open. -/
def RunInv (snapshot : Snapshot) (plan : PlanLists) (timeNow : ℤ) (st : RunState) : Prop :=
  st.counters.Coherent ∧ snapshot.counters.SameJobs st.counters ∧
    ∀ s ∈ st.log, ∃ job ∈ plan.clusters.flatten, job.ptr = s.ptr ∧
      job.due timeNow = true ∧ snapshot.counters.Admits job.jinfo

/-- A visit keeps that invariant. -/
theorem tryRunVisit_keeps (snapshot : Snapshot) (plan : PlanLists) (timeNow : ℤ)
    (localServer : String) (rescInfoDb : List String) (outcome : ℕ → Outcome)
    (st : RunState) (job : PlanJob) (hst : RunInv snapshot plan timeNow st)
    (hjob : FromPlan plan timeNow job) :
    Keeps (RunInv snapshot plan timeNow) (FromPlan plan timeNow)
      (tryRunVisit (RunEnv.checked localServer rescInfoDb outcome) timeNow st job) := by
  rcases tryRunVisit_cases (RunEnv.checked localServer rescInfoDb outcome) timeNow st job with
    ⟨_, hv⟩ | ⟨_, hdue, hv⟩ | ⟨_, _, hv⟩
  · rw [hv]
    exact hst
  · obtain ⟨hcoh, hsame, hlog⟩ := hst
    rw [hv]
    obtain ⟨hcoh', hsame', hadmits⟩ := isOkToRunJobNew_spec rescInfoDb hcoh st.dynamicResources
      (outcome st.tried) job.jinfo
    rcases tryRunJob_cases (RunEnv.checked localServer rescInfoDb outcome) timeNow st job with
      ⟨st', hrun, hlog', hcounters⟩ | ⟨st', job', hrun, hcounters, hjob', hlog'⟩
    · rw [hrun]
      refine ⟨by rw [hcounters]; exact hcoh, by rw [hcounters]; exact hsame, ?_⟩
      rw [hlog']
      exact hlog
    · rw [hrun]
      refine ⟨⟨by rw [hcounters]; exact hcoh', by rw [hcounters]; exact hsame.trans hsame', ?_⟩,
        ?_⟩
      · rcases hlog' with hlog' | ⟨hpass, hlog'⟩
        · rw [hlog']
          exact hlog
        · rw [hlog']
          intro s hs
          rcases List.mem_append.mp hs with hs | hs
          · exact hlog s hs
          · -- the job tried is due, so it was not set back before
            obtain ⟨origin, horigin, hor | hlate⟩ := hjob
            · rw [List.mem_singleton.mp hs]
              refine ⟨origin, horigin, by rw [← hor]; rfl, by rw [← hor]; exact hdue, ?_⟩
              rw [← hor]
              exact (hsame.admits_iff job.jinfo).mp (hadmits hpass)
            · unfold PlanJob.due at hdue
              simp only [Bool.and_eq_true, decide_eq_true_eq] at hdue
              omega
      · rcases hjob' with rfl | rfl
        · exact hjob
        · obtain ⟨origin, horigin, _⟩ := hjob
          refine ⟨origin, horigin, Or.inr ?_⟩
          simp only
          omega
  · rw [hv]
    exact ⟨hst, hjob⟩

/-- So does the whole run. -/
theorem tryRunPlan_inv (snapshot : Snapshot) (plan : PlanLists) (timeNow : ℤ)
    (localServer : String) (rescInfoDb : List String) (outcome : ℕ → Outcome)
    (clusters : List (List PlanJob)) :
    ∀ st, RunInv snapshot plan timeNow st → (∀ job ∈ clusters.flatten, FromPlan plan timeNow job) →
      RunInv snapshot plan timeNow
        (tryRunPlan (RunEnv.checked localServer rescInfoDb outcome) timeNow st clusters).1 := by
  induction clusters with
  | nil => intro st hst _; exact hst
  | cons jobs rest ih =>
      intro st hst hjobs
      rw [List.flatten_cons] at hjobs
      have hwalk := walk_invariant
        (tryRunVisit_keeps snapshot plan timeNow localServer rescInfoDb outcome) jobs st hst
        (fun job hjob => hjobs job (List.mem_append_left _ hjob))
      rw [tryRunPlan]
      generalize walk (tryRunVisit (RunEnv.checked localServer rescInfoDb outcome) timeNow)
        st jobs = r at hwalk
      obtain ⟨st', jobs', finished⟩ := r
      cases finished with
      | false => exact hwalk
      | true => exact ih st' hwalk (fun job hjob => hjobs job (List.mem_append_right _ hjob))

/-- **The run limits hold after `try_run_plan`, whatever the other checks and the
servers answer, exactly when no finite limit has fewer places left than there are
due jobs passing the checks against the snapshot.** -/
theorem tryRunPlan_withinLimits_iff (snapshot : Snapshot) (plan : PlanLists) (timeNow : ℤ) :
    (∀ localServer rescInfoDb outcome dynamicResources,
      WithinLimits snapshot.counters plan
        (tryRunPlan (RunEnv.checked localServer rescInfoDb outcome) timeNow
          (RunState.initial snapshot.counters dynamicResources) plan.clusters).1.log) ↔
    ∀ limit : RunLimit, limit.value snapshot.counters ≠ RESC_INFINITY →
      limit.running snapshot.counters + admissibleCount snapshot.counters timeNow plan limit
        ≤ limit.value snapshot.counters := by
  constructor
  · intro hall limit hfinite
    have hwithin := hall "" [] (fun _ => ⟨true, .success, .success, 0⟩) [] limit hfinite
    obtain ⟨new, hlog, hstarts, _⟩ := tryRunPlan_steady (steady_checked snapshot timeNow)
      plan.clusters (RunState.initial snapshot.counters [])
      ⟨snapshot.coherent, Counters.SameJobs.refl _⟩
    rw [hlog] at hwithin
    have hle : admissibleCount snapshot.counters timeNow plan limit
        ≤ startedCount plan ([] ++ new) limit := by
      unfold admissibleCount startedCount
      rw [← List.countP_eq_length_filter, ← List.countP_eq_length_filter, Int.ofNat_le]
      apply List.countP_mono_left
      intro job hjob hadm
      simp only [Bool.and_eq_true, decide_eq_true_eq] at hadm
      obtain ⟨hcounts, hdue, hadmits⟩ := hadm
      obtain ⟨s, hs, hstart⟩ := hstarts job hjob hdue hadmits
      rw [Bool.and_eq_true, List.any_eq_true]
      exact ⟨hcounts, s, hs, by simpa using hstart⟩
    simp only [RunState.initial] at hwithin
    omega
  · intro hroom localServer rescInfoDb outcome dynamicResources limit hfinite
    obtain ⟨_, _, hlog⟩ := tryRunPlan_inv snapshot plan timeNow localServer rescInfoDb outcome
      plan.clusters (RunState.initial snapshot.counters dynamicResources)
      ⟨snapshot.coherent, Counters.SameJobs.refl _, by simp [RunState.initial]⟩
      (fun job hjob => ⟨job, hjob, Or.inl rfl⟩)
    have hle : startedCount plan (tryRunPlan (RunEnv.checked localServer rescInfoDb outcome)
        timeNow (RunState.initial snapshot.counters dynamicResources) plan.clusters).1.log limit
        ≤ admissibleCount snapshot.counters timeNow plan limit := by
      unfold admissibleCount startedCount
      rw [← List.countP_eq_length_filter, ← List.countP_eq_length_filter, Int.ofNat_le]
      apply List.countP_mono_left
      intro job hjob hstarted
      rw [Bool.and_eq_true, List.any_eq_true] at hstarted
      obtain ⟨hcounts, s, hs, hstart⟩ := hstarted
      obtain ⟨origin, horigin, hptr, hdue, hadmits⟩ := hlog s hs
      have hstart : s.Starts job := by simpa using hstart
      -- jobs of the plan are told apart by their address
      have heq : origin = job :=
        List.inj_on_of_nodup_map plan.nodup horigin hjob (hptr.trans hstart.1)
      rw [heq] at hdue hadmits
      simp [hcounts, hdue, hadmits]
    have := hroom limit hfinite
    omega

/-- A server that may run one job and runs none, and two due jobs: both are
started. -/
theorem tryRunPlan_exceeds_maxRun :
    ∃ (snapshot : Snapshot) (plan : PlanLists),
      (∀ limit : RunLimit, limit.value snapshot.counters ≠ RESC_INFINITY →
        limit.running snapshot.counters ≤ limit.value snapshot.counters) ∧
      ¬ WithinLimits snapshot.counters plan
        (tryRunPlan (RunEnv.checked "" [] (fun _ => ⟨true, .success, .success, 0⟩)) 1700000010
          (RunState.initial snapshot.counters []) plan.clusters).1.log := by
  refine ⟨⟨{ Counters.idle with server := RunCounters.snapshot 1 RESC_INFINITY RESC_INFINITY [] },
    RunCounters.coherent_snapshot _ _ _ _, fun _ => RunCounters.coherent_snapshot _ _ _ _⟩,
    ⟨[[PlanJob.filled 0 { (default : JobInfo) with state := .queued } 1 1 (by decide) 0 3600 0
          1700000000,
        PlanJob.filled 1 { (default : JobInfo) with state := .queued } 1 1 (by decide) 0 3600 0
          1700000000]], by decide⟩, ?_, ?_⟩
  · intro limit hfinite
    cases limit <;> first
      | exact absurd rfl hfinite
      | decide
  · intro hwithin
    exact absurd (hwithin .serverRun (by decide)) (by decide +kernel)

end PlanSched
