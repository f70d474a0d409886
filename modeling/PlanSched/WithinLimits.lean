/-
# The plan keeps within the limits of its classes

`update_sched` enters every job it passes into the limit profile and, before it enters
a queued one, lets `adjust_job_starttime_according_to_limits` move it behind the
snapshots it would overflow.  Here both halves are put together over a whole call: the
profile is always the load of the jobs passed so far (`LoadInv.profile`), so a queued job
together with all jobs in front of it never uses more CPUs of its class than the limit
says (`plan_within_limits`), and no more do the jobs that `try_run_plan` starts together
(`started_jobs_within_limits`).

Nothing is asked of the own limit of an account, and a running job is entered without
a test, wherever it stands in the list.
-/
import PlanSched.StartedJobs
import PlanSched.EarliestCluster

namespace PlanSched

open CheckedRun StepProfile

/-! ## The start that was returned -/

section Adjusted

variable {values : LimitsValues} {c : ℕ} {global : ℤ}

/-- A pass that returns has moved the job, or the snapshot does not concern it, or its
class has room for it. -/
theorem adjustToLimit_within {limit : PlanLimit} {successor : Option PlanLimit}
    {job job' : PlanJob} (hc : c < NUM_LIMITS)
    (hglobal : values.limitsValuesGlobal[c]? = some global)
    (h : adjustToLimit values c limit successor job = .ok job') :
    (∃ next ∈ successor, job' = job.startAt next.timestamp) ∨
      ¬ limit.concerns successor job ∨ limit.classTotal c + job.limitCpus ≤ global := by
  by_cases hconcerns : limit.concerns successor job
  · unfold adjustToLimit at h
    rw [if_pos hconcerns, sumLimitsOfLimit_eq limit hc, getAt_ok.mpr hglobal] at h
    simp only [bind, Except.bind] at h
    split at h
    · left
      obtain ⟨next, hnext, hmoved⟩ := bind_ok.mp h
      exact ⟨next, deref_ok.mp hnext, (pure_ok.mp hmoved).symm⟩
    · next hroom => exact Or.inr (Or.inr (not_lt.mp hroom))
  · exact Or.inr (Or.inl hconcerns)

/-- The adjustment moves a job to the beginning of a snapshot behind the first one. -/
theorem adjustToLimits_timestamps (limits : List PlanLimit) :
    ∀ {job job' : PlanJob}, adjustToLimits values c limits job = .ok job' →
      job' = job ∨ ∃ limit ∈ limits.tail, job' = job.startAt limit.timestamp := by
  induction limits with
  | nil =>
      intro job job' h
      rw [adjustToLimits] at h
      cases h
      exact Or.inl rfl
  | cons limit rest ih =>
      intro job job' h
      rw [adjustToLimits] at h
      obtain ⟨job₁, h₁, h₂⟩ := bind_ok.mp h
      rcases ih h₂ with rfl | ⟨later, hlater, rfl⟩
      · rcases adjustToLimit_cases h₁ with rfl | ⟨next, hnext, -, rfl⟩
        · exact Or.inl rfl
        · exact Or.inr ⟨next, List.mem_of_mem_head? hnext, rfl⟩
      · refine Or.inr ⟨later, List.mem_of_mem_tail hlater, ?_⟩
        rcases adjustToLimit_cases h₁ with rfl | ⟨next, -, -, rfl⟩ <;> rfl

/-- The entry in force in front of all others of the rest. -/
theorem lastLe_cons (limit : PlanLimit) (rest : List PlanLimit) (t : ℤ) :
    lastLe PlanLimit.timestamp (limit :: rest) t =
      (lastLe PlanLimit.timestamp rest t).or
        (if limit.timestamp ≤ t then some limit else none) := by
  unfold lastLe
  by_cases hle : limit.timestamp ≤ t
  · rw [List.filter_cons_of_pos (by simpa using hle), List.getLast?_cons, if_pos hle]
    cases (rest.filter (fun a => a.timestamp ≤ t)).getLast? <;> rfl
  · rw [List.filter_cons_of_neg (by simpa using hle), if_neg hle, Option.or_none]

/-- Every snapshot in force while the returned job runs has room for it, if it alone keeps
within the limit. -/
theorem adjustToLimits_within (hc : c < NUM_LIMITS)
    (hglobal : values.limitsValuesGlobal[c]? = some global) (limits : List PlanLimit) :
    ∀ {job job' : PlanJob}, LimitsInv limits → job.limitCpus ≤ global →
      adjustToLimits values c limits job = .ok job' → ∀ t, job'.occupies t →
      ∀ limit, lastLe PlanLimit.timestamp limits t = some limit →
        limit.classTotal c + job.limitCpus ≤ global := by
  induction limits with
  | nil =>
      intro job job' _ _ _ t _ limit hlimit
      cases hlimit
  | cons limit rest ih =>
      intro job job' hinv halone h t hocc found hfound
      rw [adjustToLimits] at h
      obtain ⟨job₁, h₁, h₂⟩ := bind_ok.mp h
      obtain ⟨hhead, htail⟩ := List.pairwise_cons.mp hinv.increasing
      have hcpus : job₁.limitCpus = job.limitCpus := by
        rcases adjustToLimit_cases h₁ with rfl | ⟨next, -, -, rfl⟩ <;> rfl
      rw [lastLe_cons] at hfound
      cases hlater : lastLe PlanLimit.timestamp rest t with
      | some later =>
          -- a snapshot behind this one is in force
          rw [hlater, Option.some_or] at hfound
          cases hfound
          have hrest : LimitsInv rest := by
            refine ⟨htail, ?_⟩
            intro last hlast
            refine hinv.last_empty last ?_
            rw [List.getLast?_cons, hlast]
            rfl
          rw [← hcpus] at halone ⊢
          exact ih hrest halone h₂ t hocc _ hlater
      | none =>
          rw [hlater, Option.none_or] at hfound
          split at hfound
          case isFalse => cases hfound
          case isTrue hle =>
            cases hfound
            have hbehind : ∀ a ∈ rest, t < a.timestamp := by
              intro a ha
              by_contra hat
              obtain ⟨b, hb, -⟩ := key_le_lastLe htail ha (not_lt.mp hat)
              rw [hlater] at hb
              cases hb
            -- the job was not moved: every move would take it behind `t`
            have hstay : job' = job₁ := by
              rcases adjustToLimits_timestamps rest h₂ with heq | ⟨a, ha, rfl⟩
              · exact heq
              · exact absurd hocc.1 (not_le.mpr (hbehind a (List.mem_of_mem_tail ha)))
            subst hstay
            rcases adjustToLimit_within hc hglobal h₁ with ⟨next, hnext, rfl⟩ | hfree | hroom
            · exact absurd hocc.1 (not_le.mpr (hbehind next (List.mem_of_mem_head? hnext)))
            · cases rest with
              | nil =>
                  rw [classTotal_of_accounts_nil (hinv.last_empty limit (by simp))]
                  omega
              | cons next others =>
                  have hunmoved : job' = job := by
                    rcases adjustToLimit_cases h₁ with heq | ⟨later, hlater', -, rfl⟩
                    · exact heq
                    · exact absurd hocc.1
                        (not_le.mpr (hbehind later (List.mem_of_mem_head? hlater')))
                  subst hunmoved
                  refine absurd ?_ hfree
                  have hbefore := hbehind next List.mem_cons_self
                  obtain ⟨hstart, hend⟩ := hocc
                  unfold PlanLimit.concerns
                  by_cases hearly : limit.timestamp ≤ job'.startTime
                  · exact Or.inl ⟨next, rfl, hearly, by omega⟩
                  · exact Or.inr ⟨not_le.mp hearly, by omega⟩
            · exact hroom

end Adjusted

/-! ## The profile is the load -/

/-- The job counts against the limits: it waits for its start or it runs. -/
def PlanJob.counts (job : PlanJob) : Bool :=
  job.isQueued || decide (job.jinfo.state = .running)

/-- The CPUs of class `c` in use at time `t` by those of the jobs that wait or run. -/
def plannedLoad (conf : LimitsForClusters) (cluster : PlanCluster) (jobs : List PlanJob)
    (c : ℕ) (t : ℤ) : ℤ :=
  classLoad conf cluster (jobs.filter PlanJob.counts) c t

section Load

variable {conf : LimitsForClusters} {cluster : PlanCluster} {values : LimitsValues}

/-- Loads of lists add up. -/
theorem plannedLoad_append (jobs jobs' : List PlanJob) (c : ℕ) (t : ℤ) :
    plannedLoad conf cluster (jobs ++ jobs') c t
      = plannedLoad conf cluster jobs c t + plannedLoad conf cluster jobs' c t := by
  unfold plannedLoad classLoad
  rw [List.filter_append, List.filter_append, List.map_append, List.sum_append]

/-- The load of a single job. -/
theorem plannedLoad_singleton (job : PlanJob) (c : ℕ) (t : ℤ) :
    plannedLoad conf cluster [job] c t =
      if job.counts = true ∧ job.limitClass conf cluster = .ok c ∧ job.occupies t
        then job.limitCpus else 0 := by
  unfold plannedLoad classLoad
  by_cases hcounts : job.counts = true
  · rw [List.filter_cons_of_pos hcounts, List.filter_nil]
    by_cases hin : job.limitClass conf cluster = .ok c ∧ job.occupies t
    · rw [List.filter_cons_of_pos (by simpa using hin), if_pos ⟨hcounts, hin⟩]
      simp
    · rw [List.filter_cons_of_neg (by simpa using hin), if_neg (fun h => hin h.2)]
      rfl
  · rw [List.filter_cons_of_neg hcounts, if_neg (fun h => hcounts h.1)]
    rfl

/-- No job frees CPUs. -/
theorem plannedLoad_nonneg (jobs : List PlanJob) (c : ℕ) (t : ℤ) :
    0 ≤ plannedLoad conf cluster jobs c t := by
  unfold plannedLoad classLoad
  refine List.sum_nonneg ?_
  intro cpus hcpus
  obtain ⟨job, -, rfl⟩ := List.mem_map.mp hcpus
  unfold PlanJob.limitCpus
  positivity

/-- A job that was entered while it occupies its CPUs has a class of the profile. -/
theorem addJobToLimits_class {limits limits' : List PlanLimit} {job : PlanJob}
    (hinv : LimitsInv limits) (hle : job.startTime < job.completionTime)
    (h : addJobToLimits conf cluster limits job = .ok limits') :
    ∃ c < NUM_LIMITS, job.limitClass conf cluster = .ok c := by
  obtain ⟨-, hkeys⟩ := breakpointsForJob_spec hinv job
  obtain ⟨⟨first, hfirst, hstart⟩, -⟩ := hkeys hle.le
  unfold addJobToLimits at h
  -- the snapshot at the start is one of those the job is entered into
  obtain ⟨i, hi, rfl⟩ := List.getElem_of_mem hfirst
  have hcells := forall₂_of_mapM _ _ h
  have hentered := hcells.get hi (hcells.length_eq ▸ hi)
  dsimp only [List.get_eq_getElem] at hentered
  rw [if_pos ⟨hstart.ge, by omega⟩] at hentered
  unfold addLimitToLimit at hentered
  obtain ⟨found, -, hentered⟩ := bind_ok.mp hentered
  obtain ⟨c, hclass, hentered⟩ := bind_ok.mp hentered
  obtain ⟨account, -, hentered⟩ := bind_ok.mp hentered
  obtain ⟨cell, hcell, -⟩ := bind_ok.mp hentered
  refine ⟨c, ?_, hclass⟩
  obtain ⟨hlt, -⟩ := List.getElem?_eq_some_iff.mp (getAt_ok.mp hcell)
  rw [← account.length_numCpus]
  exact hlt

/-- `add_job_to_limits` adds the load of the job, whatever times it has. -/
theorem addJobToLimits_profile {limits limits' : List PlanLimit} {job : PlanJob}
    (hinv : LimitsInv limits) (h : addJobToLimits conf cluster limits job = .ok limits')
    (c : ℕ) (t : ℤ) :
    profileAt limits' c t = profileAt limits c t + classLoad conf cluster [job] c t := by
  unfold classLoad
  rw [List.filter_singleton]
  by_cases hlt : job.startTime < job.completionTime
  · obtain ⟨foundLimit, hfound, hclass⟩ := addJobToLimits_class hinv hlt h
    obtain ⟨limits₁, hrun, -, hprofile⟩ :=
      addJobToLimits_spec conf cluster hinv hlt.le hclass hfound
    rw [h] at hrun
    cases hrun
    rw [hprofile c t]
    congr 1
    have hiff : (c = foundLimit ∧ job.occupies t) ↔
        (job.limitClass conf cluster = .ok c ∧ job.occupies t) := by
      rw [show job.limitClass conf cluster = .ok foundLimit from hclass, Except.ok.injEq]
      exact and_congr_left' eq_comm
    simp only [hiff]
    by_cases hin : job.limitClass conf cluster = .ok c ∧ job.occupies t
    · simp [hin]
    · simp [hin]
  · -- a job that ends before it starts changes no snapshot
    have hnever : ∀ s, ¬ job.occupies s := by
      rintro s ⟨hstart, hend⟩
      omega
    have hsame : limits' = breakpointsForJob limits job := by
      have hrel := (forall₂_addJobToLimits h).imp
        (fun (a b : PlanLimit) hab => (hab.2 (hnever a.timestamp)).symm)
      exact (List.forall₂_eq_eq_eq ▸ hrel : breakpointsForJob limits job = limits').symm
    rw [hsame, (breakpointsForJob_spec hinv job).1.profileAt_eq]
    simp [hnever]

/-! ## One job -/

/-- The adjusted job runs where the class has room for it. -/
theorem adjustJob_within {limits : List PlanLimit} {job job' : PlanJob} {c : ℕ} {global : ℤ}
    (hinv : LimitsInv limits) (hc : c < NUM_LIMITS)
    (hclass : walltimeSuitsToLimit conf job.estimatedProcessing cluster = .ok c)
    (hglobal : values.limitsValuesGlobal[c]? = some global) (halone : job.limitCpus ≤ global)
    (h : adjustJobStarttimeAccordingToLimits conf cluster values limits job = .ok job')
    {t : ℤ} (hocc : job'.occupies t) : profileAt limits c t + job.limitCpus ≤ global := by
  unfold adjustJobStarttimeAccordingToLimits at h
  obtain ⟨foundLimit, hfound, h⟩ := bind_ok.mp h
  rw [hclass] at hfound
  cases hfound
  unfold profileAt valueAt
  cases hforce : lastLe PlanLimit.timestamp limits t with
  | none =>
      show 0 + job.limitCpus ≤ global
      omega
  | some limit => exact adjustToLimits_within hc hglobal limits hinv halone h t hocc limit hforce

/-- `update_job` places a job where its class has room for it. -/
theorem updateJob_within {limits : List PlanLimit} {slots : List FirstFreeSlot} {job : PlanJob}
    {update : JobUpdate} {c : ℕ} {global : ℤ} (hinv : LimitsInv limits) (hc : c < NUM_LIMITS)
    (h : updateJob conf cluster values limits slots job = .ok (some update))
    (hclass : update.job.limitClass conf cluster = .ok c)
    (hglobal : values.limitsValuesGlobal[c]? = some global)
    (halone : update.job.limitCpus ≤ global) {t : ℤ} (hocc : update.job.occupies t) :
    profileAt limits c t + update.job.limitCpus ≤ global := by
  obtain ⟨table, hplaced⟩ := updateJob_placed hinv h
  have htime : update.job.completionTime - update.job.startTime
      = update.job.estimatedProcessing := by
    have := hplaced.completion
    omega
  unfold PlanJob.limitClass at hclass
  rw [htime] at hclass
  -- the job that was adjusted asks for the same time and as many CPUs
  rcases updateJob_cases h with
    ⟨-, placed, adjusted, claimed, hcall⟩ | ⟨-, placed, hcall⟩
  · have hadjusted := hcall.adjusted_ok
    rw [hcall.job_eq] at hclass halone hocc ⊢
    have hsame : adjusted.estimatedProcessing = placed.estimatedProcessing ∧
        adjusted.limitCpus = placed.limitCpus := by
      rcases adjustJob_cases hadjusted with rfl | ⟨s, rfl⟩ <;> exact ⟨rfl, rfl⟩
    have hcpus : PlanJob.limitCpus { adjusted with
        cpuIndexes := cpusOfNodes adjusted.ninfoArr claimed
        usage := (cpusOfNodes adjusted.ninfoArr claimed).length } = placed.limitCpus := hsame.2
    rw [hcpus] at halone ⊢
    exact adjustJob_within hinv hc (hsame.1 ▸ hclass) hglobal halone hadjusted hocc
  · have hadjusted := hcall.adjusted_ok
    have hsame : update.job.estimatedProcessing = placed.estimatedProcessing ∧
        update.job.limitCpus = placed.limitCpus := by
      rcases adjustJob_cases hadjusted with heq | ⟨s, heq⟩ <;> rw [heq] <;> exact ⟨rfl, rfl⟩
    rw [hsame.2] at halone ⊢
    exact adjustJob_within hinv hc (hsame.1 ▸ hclass) hglobal halone hadjusted hocc

/-! ## The whole call -/

/-- What holds after every pass of the second loop of `update_sched`: the profile is the
load of the jobs passed so far, and each queued one keeps within the limit together with
those in front of it. -/
structure LoadInv (conf : LimitsForClusters) (cluster : PlanCluster) (values : LimitsValues)
    (st : Planning) : Prop where
  limits : LimitsInv st.limits
  profile : ∀ c t, profileAt st.limits c t = plannedLoad conf cluster st.done c t
  within : ∀ front job behind, st.done = front ++ job :: behind → job.isQueued = true →
    ∀ c global, job.limitClass conf cluster = .ok c →
      values.limitsValuesGlobal[c]? = some global → job.limitCpus ≤ global →
      ∀ t, job.occupies t → plannedLoad conf cluster (front ++ [job]) c t ≤ global

/-- The last of the passed jobs, or one of those passed before. -/
theorem split_concat_cases {α : Type} {xs front behind : List α} {x a : α}
    (h : xs ++ [x] = front ++ a :: behind) :
    (front = xs ∧ a = x) ∨ ∃ behind', xs = front ++ a :: behind' := by
  rcases List.eq_nil_or_concat behind with rfl | ⟨behind', y, rfl⟩
  · obtain ⟨hfront, hlast⟩ := List.append_inj' h rfl
    exact Or.inl ⟨hfront.symm, (List.singleton_inj.mp hlast).symm⟩
  · rw [List.concat_eq_append, ← List.cons_append, ← List.append_assoc] at h
    exact Or.inr ⟨behind', (List.append_inj' h rfl).1⟩

/-- One more job keeps the invariant, if it is entered as it counts and was tested where
it waits. -/
theorem LoadInv.snoc {st st' : Planning} {job : PlanJob} (hinv : LoadInv conf cluster values st)
    (hdone : st'.done = st.done ++ [job])
    (hlimits : (job.counts = true ∧ addJobToLimits conf cluster st.limits job = .ok st'.limits) ∨
      (job.counts = false ∧ st'.limits = st.limits))
    (hroom : job.isQueued = true → ∀ c global, job.limitClass conf cluster = .ok c →
      values.limitsValuesGlobal[c]? = some global → job.limitCpus ≤ global →
      ∀ t, job.occupies t → profileAt st.limits c t + job.limitCpus ≤ global) :
    LoadInv conf cluster values st' := by
  constructor
  case limits =>
    rcases hlimits with ⟨-, hentered⟩ | ⟨-, hsame⟩
    · exact addJobToLimits_inv hinv.limits hentered
    · rw [hsame]
      exact hinv.limits
  case profile =>
    intro c t
    rw [hdone, plannedLoad_append, ← hinv.profile c t]
    rcases hlimits with ⟨hcounts, hentered⟩ | ⟨hcounts, hsame⟩
    · rw [addJobToLimits_profile hinv.limits hentered]
      congr 1
      unfold plannedLoad
      rw [List.filter_cons_of_pos hcounts, List.filter_nil]
    · rw [hsame, plannedLoad_singleton, if_neg (by simp [hcounts]), add_zero]
  case within =>
    intro front last behind hsplit hqueued c global hclass hglobal halone t hocc
    rw [hdone] at hsplit
    rcases split_concat_cases hsplit with ⟨rfl, rfl⟩ | ⟨behind', hbefore⟩
    · rw [plannedLoad_append, ← hinv.profile c t, plannedLoad_singleton]
      have hcounts : last.counts = true := by
        unfold PlanJob.counts
        rw [hqueued, Bool.true_or]
      rw [if_pos ⟨hcounts, hclass, hocc⟩]
      exact hroom hqueued c global hclass hglobal halone t hocc
    · exact hinv.within front last behind' hbefore hqueued c global hclass hglobal halone t hocc

/-- A pass that does not fail keeps the invariant. -/
theorem LoadInv.step {rest : List PlanJob} {job : PlanJob} {st st' : Planning}
    (hinv : LoadInv conf cluster values st)
    (h : planJob conf cluster values rest st job = .ok (some st')) :
    LoadInv conf cluster values st' := by
  rcases planJob_cases h with ⟨hqueued, update, hplan⟩ | ⟨hqueued, hpass⟩
  · obtain ⟨table, hplaced⟩ := updateJob_placed hinv.limits hplan.update_ok
    have hqueued' : update.job.isQueued = true := by
      unfold PlanJob.isQueued at hqueued ⊢
      rw [hplaced.jinfo_eq]
      exact hqueued
    have hcounts : update.job.counts = true := by
      unfold PlanJob.counts
      rw [hqueued', Bool.true_or]
    refine hinv.snoc hplan.done_eq (Or.inl ⟨hcounts, hplan.limits_ok⟩) ?_
    intro _ c global hclass hglobal halone t hocc
    obtain ⟨c', hc', hclass'⟩ :=
      addJobToLimits_class hinv.limits (hocc.1.trans_lt hocc.2) hplan.limits_ok
    rw [hclass] at hclass'
    cases hclass'
    exact updateJob_within hinv.limits hc' hplan.update_ok hclass hglobal halone hocc
  · refine hinv.snoc hpass.done_eq ?_ (fun h => absurd (hqueued.symm.trans h) Bool.false_ne_true)
    -- a running job is entered, any other is passed without a trace
    unfold planJob at h
    dsimp only at h
    rw [if_neg (by rw [hqueued]; exact Bool.false_ne_true)] at h
    by_cases hrunning : job.afterMove.jinfo.state = .running
    · rw [if_pos hrunning] at h
      obtain ⟨limits, hlimits, h⟩ := bind_ok.mp h
      obtain rfl := Option.some.inj (pure_ok.mp h)
      refine Or.inl ⟨?_, hlimits⟩
      simp [PlanJob.counts, hrunning]
    · rw [if_neg hrunning] at h
      obtain rfl := Option.some.inj (pure_ok.mp h)
      refine Or.inr ⟨?_, rfl⟩
      simp [PlanJob.counts, hqueued, hrunning]

/-- The invariant holds at the end of the second loop. -/
theorem planJobs_loadInv (jobs : List PlanJob) :
    ∀ {st st' : Planning}, LoadInv conf cluster values st →
      planJobs conf cluster values jobs st = .ok (.complete st') →
      LoadInv conf cluster values st' := by
  induction jobs with
  | nil =>
      intro st st' hinv h
      rw [planJobs] at h
      cases h
      exact hinv
  | cons job rest ih =>
      intro st st' hinv h
      rw [planJobs] at h
      obtain ⟨next, hnext, h⟩ := bind_ok.mp h
      cases next with
      | none => cases pure_ok.mp h
      | some st₁ => exact ih (hinv.step hnext) h

/-- The invariant holds before the first job. -/
theorem loadInv_initial (slots : List FirstFreeSlot) (time : ℤ) :
    LoadInv conf cluster values ⟨[], slots, [], [], time, 0⟩ := by
  refine ⟨limitsInv_nil, ?_, ?_⟩
  · intro c t
    unfold profileAt valueAt lastLe plannedLoad classLoad
    rfl
  · intro front job behind h
    cases front <;> cases h

/-- The invariant holds of the plan that `update_sched` returns. -/
theorem updateSched_loadInv {time : ℤ} {plan : ClusterPlan} {result : SchedUpdate}
    (h : updateSched conf time values plan = .ok result) (hcode : result.code = 0) :
    ∃ st, st.done = result.plan.jobs ∧ LoadInv conf result.plan.cluster result.values st := by
  unfold updateSched at h
  obtain ⟨slots, -, h⟩ := bind_ok.mp h
  obtain ⟨values', -, h⟩ := bind_ok.mp h
  obtain ⟨jobs, -, h⟩ := bind_ok.mp h
  obtain ⟨ending, hending, h⟩ := bind_ok.mp h
  cases ending with
  | failed st behind =>
      obtain rfl := pure_ok.mp h
      cases hcode
  | complete st =>
      obtain ⟨gaps, -, h⟩ := bind_ok.mp h
      obtain rfl := pure_ok.mp h
      have hinv := planJobs_loadInv jobs (loadInv_initial slots time) hending
      exact ⟨st, rfl, hinv.limits, hinv.profile, hinv.within⟩

/-- **The plan keeps within the limits**: if a queued job alone keeps within the limit of
its class, then so it does together with all waiting and running jobs in front of it, at
every moment it is planned for. -/
theorem plan_within_limits {time : ℤ} {plan : ClusterPlan} {result : SchedUpdate}
    (h : updateSched conf time values plan = .ok result) (hcode : result.code = 0)
    (front behind : List PlanJob) {job : PlanJob}
    (hsplit : result.plan.jobs = front ++ job :: behind) (hqueued : job.isQueued = true)
    {c : ℕ} {global : ℤ} (hclass : job.limitClass conf result.plan.cluster = .ok c)
    (hglobal : result.values.limitsValuesGlobal[c]? = some global)
    (halone : job.limitCpus ≤ global) {t : ℤ} (hocc : job.occupies t) :
    plannedLoad conf result.plan.cluster (front ++ [job]) c t ≤ global := by
  obtain ⟨st, hdone, hinv⟩ := updateSched_loadInv h hcode
  exact hinv.within front job behind (hdone.trans hsplit) hqueued c global hclass hglobal halone
    t hocc

/-- One class of limits, which lets each user have the whole cluster and all users
together one half of it. -/
def halfForAll : LimitsForClusters :=
  [("", ⟨[(0, ⟨[.finite 1], [.finite (1 / 2)], [7200]⟩)], by decide⟩)]

/-- A job that asks for one CPU. -/
def oneCpuJob (ptr : ℕ) (walltime : ℤ) : PlanJob := queuedJob ptr 1 1 (by decide) 2 walltime

/-- The job on CPU `cpu` of the first node. -/
def PlanJob.onCpu (job : PlanJob) (startTime : ℤ) (cpu : ℕ) : PlanJob :=
  { job.startAt startTime with
    cpuIndexes := [cpu]
    ninfoArr := [some 0]
    latestNcpuIndex := [cpu]
    fixedNnameArr := [some "zubat1"] }

/-- Four CPUs, of which two may be used, and three jobs. -/
def halfPlan : ClusterPlan :=
  ⟨⟨"zubat", [plainNode "zubat1" 4 8], 4, 0, 0⟩,
    [oneCpuJob 1 100, oneCpuJob 2 50, oneCpuJob 3 10], [], []⟩

/-- Two of the jobs are planned for now, the third for the end of the second one. -/
def halfPlanned : List PlanJob :=
  [(oneCpuJob 1 100).onCpu 1000000000 0, (oneCpuJob 2 50).onCpu 1000000000 1,
    (oneCpuJob 3 10).onCpu 1000000050 2]

/-- A call on this cluster. -/
theorem halfPlan_planned : ∃ result,
    updateSched halfForAll 1000000000 ⟨[], []⟩ halfPlan = .ok result ∧ result.code = 0 ∧
      result.values.limitsValuesGlobal = [2] ∧ result.plan.jobs = halfPlanned ∧
      ((oneCpuJob 3 10).onCpu 1000000050 2).limitClass halfForAll result.plan.cluster
        = .ok 0 := by
  have hrun : (updateSched halfForAll 1000000000 ⟨[], []⟩ halfPlan >>= fun r => do
      let c ← ((oneCpuJob 3 10).onCpu 1000000050 2).limitClass halfForAll r.plan.cluster
      return (r.code, r.values.limitsValuesGlobal, r.plan.jobs, c))
      = .ok (0, [2], halfPlanned, 0) := by
    decide +kernel
  obtain ⟨result, hresult, h⟩ := bind_ok.mp hrun
  obtain ⟨c, hclass, h⟩ := bind_ok.mp h
  obtain ⟨hcode, hvalues, hjobs, rfl⟩ := by simpa only [pure_ok, Prod.mk.injEq] using h
  exact ⟨result, hresult, hcode, hvalues, hjobs, hclass⟩

/-- The three jobs never use more than two CPUs, although two others are idle. -/
theorem plan_within_limits_half : ∃ result,
    updateSched halfForAll 1000000000 ⟨[], []⟩ halfPlan = .ok result ∧
    result.plan.jobs = halfPlanned ∧ ∀ t, 1000000050 ≤ t → t < 1000000060 →
      plannedLoad halfForAll result.plan.cluster halfPlanned 0 t ≤ 2 := by
  obtain ⟨result, hresult, hcode, hvalues, hjobs, hclass⟩ := halfPlan_planned
  refine ⟨result, hresult, hjobs, ?_⟩
  intro t hstart hend
  exact plan_within_limits hresult hcode (halfPlanned.take 2) [] hjobs rfl hclass
    (by rw [hvalues]; rfl) (by decide) ⟨hstart, hend⟩

end Load

/-! ## The jobs that are started -/

section Started

variable {conf : LimitsForClusters} {time : ℤ}

/-- `update_sched` works with the limit values of the cluster it leaves. -/
theorem updateSched_values {values : LimitsValues} {plan : ClusterPlan} {result : SchedUpdate}
    (h : updateSched conf time values plan = .ok result) :
    updateLimitsValues conf result.plan.cluster values = .ok result.values := by
  unfold updateSched at h
  obtain ⟨slots, -, h⟩ := bind_ok.mp h
  obtain ⟨values', hvalues, h⟩ := bind_ok.mp h
  obtain ⟨jobs, -, h⟩ := bind_ok.mp h
  obtain ⟨ending, -, h⟩ := bind_ok.mp h
  cases ending with
  | failed st behind =>
      obtain rfl := pure_ok.mp h
      exact hvalues
  | complete st =>
      obtain ⟨gaps, -, h⟩ := bind_ok.mp h
      obtain rfl := pure_ok.mp h
      exact hvalues

/-- The limit in force for all jobs of class `c` of the cluster together. -/
def ClassLimit (conf : LimitsForClusters) (cluster : PlanCluster) (c : ℕ) (global : ℤ) : Prop :=
  ∃ before values, updateLimitsValues conf cluster before = .ok values ∧
    values.limitsValuesGlobal[c]? = some global

/-- The jobs keep within the limits of their classes when they start: those of a class
together use no more CPUs than its limit, if each alone does not. -/
def StartWithinLimits (conf : LimitsForClusters) (time : ℤ) (plan : ClusterPlan)
    (jobs : List PlanJob) : Prop :=
  ∀ job ∈ jobs, ∀ c global, job.limitClass conf plan.cluster = .ok c →
    ClassLimit conf plan.cluster c global →
    (∀ j ∈ jobs, j.limitClass conf plan.cluster = .ok c → j.limitCpus ≤ global) →
    plannedLoad conf plan.cluster jobs c time ≤ global

/-- Fewer jobs have no larger load. -/
theorem plannedLoad_sublist {cluster : PlanCluster} {jobs jobs' : List PlanJob}
    (h : jobs.Sublist jobs') (c : ℕ) (t : ℤ) :
    plannedLoad conf cluster jobs c t ≤ plannedLoad conf cluster jobs' c t := by
  induction h with
  | slnil => exact le_rfl
  | @cons jobs jobs' job _ ih =>
      rw [← List.singleton_append, plannedLoad_append]
      exact le_add_of_nonneg_of_le (plannedLoad_nonneg [job] c t) ih
  | @cons_cons jobs jobs' job _ ih =>
      rw [← List.singleton_append, ← List.singleton_append (l := jobs'), plannedLoad_append,
        plannedLoad_append]
      exact Int.add_le_add_left ih _

/-- The last job of a class: behind it none counts for the class. -/
theorem split_last {α : Type} {p : α → Bool} {xs : List α} (h : ∃ a ∈ xs, p a = true) :
    ∃ front a behind, xs = front ++ a :: behind ∧ p a = true ∧ ∀ b ∈ behind, p b = false := by
  have hsome : ¬ ∀ a ∈ xs.reverse, p a = false := by
    obtain ⟨a, ha, hpa⟩ := h
    intro hnone
    rw [hnone a (List.mem_reverse.mpr ha)] at hpa
    cases hpa
  obtain ⟨pre, a, post, hxs, hpa, hpre⟩ := CursorWalk.split_first hsome
  refine ⟨post.reverse, a, pre.reverse, ?_, hpa, fun b hb => hpre b (List.mem_reverse.mp hb)⟩
  rw [← List.reverse_reverse xs, hxs]
  simp

/-- Due jobs of a planned cluster keep within the limits. -/
theorem LastPlanned.startWithinLimits (hclasses : HasClasses conf) {plan : ClusterPlan}
    {jobs : List PlanJob} (h : LastPlanned conf time plan)
    (hsub : jobs.Sublist (plan.jobs.filter (PlanJob.due time))) :
    StartWithinLimits conf time plan jobs := by
  intro job hjob c global hclass hlimit halone
  obtain ⟨-, hnow, -, -⟩ := h.startTogether hsub
  obtain ⟨hplaced, -⟩ := h.spec
  have hdue : ∀ j ∈ jobs, j ∈ plan.jobs ∧ j.isQueued = true ∧ j.occupies time := by
    intro j hj
    obtain ⟨hmem, hdue⟩ := List.mem_filter.mp (hsub.subset hj)
    obtain ⟨hqueued, -⟩ := PlanJob.due_spec hdue
    have htakes := (hplaced j hmem hqueued).2.1
    have hstart := hnow j hj
    exact ⟨hmem, hqueued, hstart.le, by omega⟩
  -- behind the last job of the class none adds to the load
  obtain ⟨front, last, behind, rfl, hlast, hbehind⟩ := split_last
    (p := fun j : PlanJob => decide (j.limitClass conf plan.cluster = .ok c))
    ⟨job, hjob, by simpa using hclass⟩
  have hnone : plannedLoad conf plan.cluster behind c time = 0 := by
    unfold plannedLoad classLoad
    rw [List.filter_eq_nil_iff.mpr]
    · rfl
    · intro j hj
      have := hbehind j (List.mem_of_mem_filter hj)
      simp only [decide_eq_true_eq, decide_eq_false_iff_not] at this ⊢
      exact fun hin => this hin.1
  rw [← List.singleton_append, ← List.append_assoc, plannedLoad_append, hnone, add_zero]
  -- the started jobs up to that one stand in the plan up to it
  have hlastmem : last ∈ front ++ last :: behind := by simp
  have hplan := hsub.trans List.filter_sublist
  obtain ⟨l₁, l₂, hjobs, hfront, hrest⟩ := List.append_sublist_iff.mp hplan
  obtain ⟨r₁, r₂, rfl, hmem, -⟩ := List.cons_sublist_iff.mp hrest
  obtain ⟨between, after, rfl⟩ := List.append_of_mem hmem
  have hsplit : plan.jobs = (l₁ ++ between) ++ last :: (after ++ r₂) := by
    rw [hjobs]
    simp
  have hle : (front ++ [last]).Sublist ((l₁ ++ between) ++ [last]) := by
    refine List.Sublist.append ?_ (List.Sublist.refl _)
    exact hfront.trans (List.sublist_append_left l₁ between)
  refine (plannedLoad_sublist hle c time).trans ?_
  obtain ⟨-, hqueued, hocc⟩ := hdue last hlastmem
  have hlastclass : last.limitClass conf plan.cluster = .ok c := by simpa using hlast
  obtain ⟨values, before, result, hresult, hcode, rfl, -⟩ := h
  obtain ⟨values₁, values₂, hvalues, hglobal⟩ := hlimit
  obtain ⟨st, hdone, hinv⟩ := updateSched_loadInv hresult hcode
  refine hinv.within _ last _ (hdone.trans hsplit) hqueued c global hlastclass ?_
    (halone last hlastmem hlastclass) time hocc
  have hcluster := updateSched_values hresult
  rw [updateLimitsValues_eq hclasses _ values values₁, hvalues] at hcluster
  cases hcluster
  exact hglobal

/-- Every cluster of this configuration has its only class. -/
theorem hasClasses_halfForAll : HasClasses halfForAll := by
  intro name cpus arrays h
  obtain ⟨m, key, hm, hmem, -⟩ := findLimitsForCluster_ok.mp h
  obtain rfl : m = ⟨[(0, ⟨[.finite 1], [.finite (1 / 2)], [7200]⟩)], by decide⟩ := by
    unfold limitArray halfForAll at hm
    by_cases hname : name = ""
    · subst hname
      exact (Option.some.inj hm).symm
    · rw [List.lookup_cons, beq_false_of_ne hname] at hm
      exact (Option.some.inj hm).symm
  obtain ⟨rfl, rfl⟩ := Prod.mk.inj (List.mem_singleton.mp hmem)
  exact List.cons_ne_nil _ _

end Started

end PlanSched
