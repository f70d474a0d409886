/-
# The shape of the gap list

`update_sched` is to leave a list of gaps that follow one another in time and end
in a gap without end, which starts with the end of the plan.  Gaps are inserted in
the order of the jobs; that the last gap can be appended blindly rests on no gap
reaching past the end of the plan.

It does not always hold.  A job with `usage` above `req_ppn * req_num_nodes` gets
its last CPUs after its start was fixed by the last chunk, and when such a CPU is
busy for longer than the whole plan, the gap in front of it ends too late
(`updateSched_gaps_too_late`).  `updateSched_gapShape` shows that nothing else goes
wrong: the shape holds when there is no such job, or when every CPU is free by the
end of the jobs that are not queued.
-/
import PlanSched.UpdateSched

namespace PlanSched

open CheckedRun

/-! ## The property and the condition -/

/-- The end of the plan: the latest completion of its jobs, and at least `time`. -/
def planEnd (time : ℤ) (jobs : List PlanJob) : ℤ :=
  jobs.foldl (fun latest job => max latest job.completionTime) time

/-- The gaps follow one another; all but the last are proper, and the last one
starts with the end of the plan and has no end. -/
def GapShape (time : ℤ) (jobs : List PlanJob) (gaps : List PlanGap) : Prop :=
  ∃ front last, gaps = front ++ [last] ∧
    (∀ gap ∈ front, gap.startTime < gap.endTime ∧
      gap.duration = gap.endTime - gap.startTime) ∧
    gaps.IsChain (fun gap gap' => gap.endTime ≤ gap'.startTime) ∧
    last.endTime = LONG_MAX ∧ last.duration = LONG_MAX ∧ last.startTime = planEnd time jobs

/-- No queued job that shares its nodes uses more CPUs than its chunks have. -/
def NoLeftovers (jobs : List PlanJob) : Prop :=
  ∀ job ∈ jobs, job.isQueued = true →
    job.jinfo.isExclusive = true ∨ job.usage ≤ job.reqPpn * job.reqNumNodes

/-- Every CPU is free at first by the end of the jobs that are not queued. -/
def FreeByPassedJobs (time : ℤ) (plan : ClusterPlan) : Prop :=
  ∀ initial, initialSlots plan.cluster time = .ok initial →
    ∀ slot ∈ initial, slot.time ≤ planEnd time (plan.jobs.filter (fun job => !job.isQueued))

/-! ## The end of the plan -/

/-- One more job moves the end of the plan to its completion, or leaves it. -/
theorem planEnd_append_singleton (time : ℤ) (jobs : List PlanJob) (job : PlanJob) :
    planEnd time (jobs ++ [job]) = max (planEnd time jobs) job.completionTime := by
  unfold planEnd
  rw [List.foldl_append]
  rfl

/-- The plan ends by any time that bounds its jobs. -/
theorem planEnd_le {time t : ℤ} (jobs : List PlanJob) (htime : time ≤ t)
    (hjobs : ∀ job ∈ jobs, job.completionTime ≤ t) : planEnd time jobs ≤ t := by
  unfold planEnd
  refine List.foldlRecOn (motive := fun latest : ℤ => latest ≤ t) _ _ htime ?_
  intro latest hlatest job hjob
  exact max_le hlatest (hjobs job hjob)

/-- The plan does not end before `time`. -/
theorem le_planEnd (time : ℤ) (jobs : List PlanJob) : time ≤ planEnd time jobs := by
  induction jobs using List.reverseRecOn with
  | nil => exact le_rfl
  | append_singleton jobs last ih =>
      rw [planEnd_append_singleton]
      exact ih.trans (le_max_left _ _)

/-- The plan does not end before its jobs. -/
theorem completionTime_le_planEnd {time : ℤ} {jobs : List PlanJob} {job : PlanJob}
    (h : job ∈ jobs) : job.completionTime ≤ planEnd time jobs := by
  induction jobs using List.reverseRecOn with
  | nil => cases h
  | append_singleton jobs last ih =>
      rw [planEnd_append_singleton]
      rcases List.mem_append.mp h with h | h
      · exact (ih h).trans (le_max_left _ _)
      · rw [List.mem_singleton.mp h]
        exact le_max_right _ _

section Runs

variable {conf : LimitsForClusters} {cluster : PlanCluster} {values : LimitsValues}

/-- The plan does not end before a job that is not queued. -/
theorem planJobs_maxCompletionTime (jobs : List PlanJob) :
    ∀ {st st' : Planning}, planJobs conf cluster values jobs st = .ok (.complete st') →
      st.maxCompletionTime ≤ st'.maxCompletionTime ∧
        ∀ job ∈ jobs, job.isQueued = false → job.completionTime ≤ st'.maxCompletionTime := by
  induction jobs with
  | nil =>
      intro st st' h
      rw [planJobs] at h
      cases h
      exact ⟨le_rfl, by simp⟩
  | cons job rest ih =>
      intro st st' h
      rw [planJobs] at h
      obtain ⟨next, hnext, h⟩ := bind_ok.mp h
      cases next with
      | none => cases pure_ok.mp h
      | some st₁ =>
          obtain ⟨hmono, hrest⟩ := ih h
          have hcompletion : job.afterMove.completionTime = job.completionTime := by
            rcases afterMove_eq job with heq | ⟨priority, heq⟩ <;> rw [heq]
            rfl
          have hqueued : job.afterMove.isQueued = job.isQueued := by
            rcases afterMove_eq job with heq | ⟨priority, heq⟩ <;> rw [heq]
            rfl
          rw [List.forall_mem_cons]
          rcases planJob_cases hnext with ⟨hq, update, hplan⟩ | ⟨hq, hpass⟩
          · rw [hplan.maxCompletionTime_eq] at hmono
            refine ⟨(le_max_left _ _).trans hmono, ?_, hrest⟩
            intro hnot
            rw [hqueued, hnot] at hq
            cases hq
          · rw [hpass.maxCompletionTime_eq, hcompletion] at hmono
            exact ⟨(le_max_left _ _).trans hmono, fun _ => (le_max_right _ _).trans hmono, hrest⟩

/-- What holds after every pass of the second loop: the gaps are in order and end
by the end of the plan so far or by `bound`.  If `covered`, so do the times of all
CPUs. -/
structure GapInv (time bound : ℤ) (covered : Prop) (st : Planning) : Prop where
  limits : LimitsInv st.limits
  planEnd_eq : st.maxCompletionTime = planEnd time st.done
  ordered : OrderedGaps st.gaps
  ends : EndBy (max st.maxCompletionTime bound) st.gaps
  times : covered → ∀ c < st.slots.length,
    slotTime st.slots c ≤ max st.maxCompletionTime bound

/-- The job cannot make a gap that ends too late. -/
def PlanJob.InTime (covered : Prop) (job : PlanJob) : Prop :=
  job.isQueued = true → 0 ≤ job.estimatedProcessing ∧
    (covered ∨ job.jinfo.isExclusive = true ∨ job.usage ≤ job.reqPpn * job.reqNumNodes)

variable {time bound : ℤ} {covered : Prop} {st st' : Planning}

/-- Planning a queued job keeps the invariant. -/
theorem GapInv.planned {rest : List PlanJob} {job : PlanJob} {update : JobUpdate}
    (hinv : GapInv time bound covered st) (hjob : job.InTime covered)
    (hqueued : job.isQueued = true) (h : Planned conf cluster values rest st job update st') :
    GapInv time bound covered st' := by
  obtain ⟨hest, hwhen⟩ := hjob hqueued
  obtain ⟨table, hplaced⟩ := updateJob_placed hinv.limits h.update_ok
  have hmax := h.maxCompletionTime_eq
  have hgrows : max st.maxCompletionTime bound ≤ max st'.maxCompletionTime bound := by
    rw [hmax]
    omega
  have hstart : update.job.startTime ≤ update.job.completionTime := by
    rw [hplaced.completion, hplaced.estimatedProcessing_eq]
    omega
  -- the gaps in front of the job end when its CPUs get free
  have hcpus : ∀ c ∈ update.job.cpuIndexes, c < table.length →
      slotTime table c ≤ max st'.maxCompletionTime bound := by
    intro c hc hlen
    rw [hplaced.table_length] at hlen
    rcases hwhen with hcovered | hwhole
    · exact (hplaced.table_le c).trans ((hinv.times hcovered c hlen).trans hgrows)
    · have := hplaced.start_latest hwhole c hc
      omega
  have hnew := gapsOfJob_spec _ hplaced.byTime (Or.inl rfl) hplaced.gaps_ok
  obtain ⟨hordered, hends⟩ := foldlM_insertNewGap hinv.ordered
    (fun gap hgap => (hinv.ends gap hgap).trans hgrows)
    (fun gap hgap => (hnew gap hgap).1)
    (fun gap hgap => by
      obtain ⟨-, c, hc, hlen, hend⟩ := hnew gap hgap
      rw [hend]
      exact hcpus c hc hlen) h.gaps_ok
  refine ⟨addJobToLimits_inv hinv.limits h.limits_ok, ?_, hordered, hends, ?_⟩
  · rw [hmax, h.done_eq, planEnd_append_singleton, hinv.planEnd_eq]
  · intro hcovered c hlen
    rw [h.slots_eq] at hlen ⊢
    rw [hplaced.slots_length, hplaced.table_length] at hlen
    rcases hplaced.slots_time c with htime | htime <;> rw [htime]
    · rw [hmax]
      omega
    · exact (hplaced.table_le c).trans ((hinv.times hcovered c hlen).trans hgrows)

/-- Passing any other job keeps the invariant. -/
theorem GapInv.passed {job : PlanJob} (hinv : GapInv time bound covered st)
    (h : Passed conf cluster st job st') : GapInv time bound covered st' := by
  have hgrows : max st.maxCompletionTime bound ≤ max st'.maxCompletionTime bound := by
    rw [h.maxCompletionTime_eq]
    omega
  constructor
  case limits =>
    rcases h.limits_ok with heq | hlimits
    · rw [heq]
      exact hinv.limits
    · exact addJobToLimits_inv hinv.limits hlimits
  case planEnd_eq =>
    rw [h.maxCompletionTime_eq, h.done_eq, planEnd_append_singleton, hinv.planEnd_eq]
  case ordered =>
    rw [h.gaps_eq]
    exact hinv.ordered
  case ends =>
    rw [h.gaps_eq]
    exact fun gap hgap => (hinv.ends gap hgap).trans hgrows
  case times =>
    intro hcovered c hlen
    rw [h.slots_eq] at hlen ⊢
    exact (hinv.times hcovered c hlen).trans hgrows

/-- The invariant holds at the end of the second loop. -/
theorem planJobs_gapInv {jobs : List PlanJob} {initial : List FirstFreeSlot}
    (hjobs : ∀ job ∈ jobs, job.InTime covered)
    (htimes : covered → ∀ c < initial.length, slotTime initial c ≤ max time bound)
    (h : planJobs conf cluster values jobs ⟨[], initial, [], [], time, 0⟩ = .ok (.complete st)) :
    GapInv time bound covered st := by
  have hpriority : ∀ (job : PlanJob) (priority : ℤ), job.InTime covered →
      (job.setPriority priority).InTime covered := fun _ _ hjob => hjob
  refine planJobs_invariant hpriority ?_ ?_ jobs hjobs ?_ h
  · intro rest s job update s' hjob hqueued hinv hstep
    exact hinv.planned hjob hqueued hstep
  · intro s job s' _ _ hinv hstep
    exact hinv.passed hstep
  · exact ⟨limitsInv_nil, rfl, ⟨by simp, List.Pairwise.nil⟩, by simp [EndBy], htimes⟩

/-- The gaps after the last job close the list. -/
theorem closingGaps_shape {gaps : List PlanGap} (hinv : GapInv time bound covered st)
    (hbound : bound ≤ st.maxCompletionTime) (h : closingGaps cluster st = .ok gaps) :
    GapShape time st.done gaps := by
  have hends : EndBy st.maxCompletionTime st.gaps := by
    intro gap hgap
    have := hinv.ends gap hgap
    omega
  have hclosed : ∃ front, OrderedGaps front ∧ EndBy st.maxCompletionTime front ∧
      gaps = front ++ [gapCreateLast st.maxCompletionTime cluster] := by
    unfold closingGaps at h
    dsimp only at h
    split at h
    · obtain ⟨front, hfront, h⟩ := bind_ok.mp h
      rw [← pure_ok.mp hfront] at h
      exact ⟨st.gaps, hinv.ordered, hends, (pure_ok.mp h).symm⟩
    · obtain ⟨new, hnew, h⟩ := bind_ok.mp h
      obtain ⟨front, hfront, h⟩ := bind_ok.mp h
      have hspec := gapsBetweenSlots_spec _ hnew
      obtain ⟨hordered, hclosedends⟩ := foldlM_insertNewGap hinv.ordered hends
        (fun gap hgap => (hspec gap hgap).1) (fun gap hgap => (hspec gap hgap).2) hfront
      exact ⟨front, hordered, hclosedends, (pure_ok.mp h).symm⟩
  obtain ⟨front, hordered, hfrontends, heq⟩ := hclosed
  refine ⟨front, _, heq, hordered.proper, ?_, rfl, rfl, hinv.planEnd_eq⟩
  rw [heq]
  refine (List.pairwise_append.mpr ⟨hordered.ordered, List.pairwise_singleton _ _, ?_⟩).isChain
  intro gap hgap last hlast
  rw [List.mem_singleton.mp hlast]
  exact hfrontends gap hgap

end Runs

/-! ## The shape -/

/-- A job that is not queued is not moved. -/
theorem mem_movePreferred {time : ℤ} {job : PlanJob} (hjob : job.isQueued = false) (fuel : ℕ) :
    ∀ {front rest jobs : List PlanJob}, job ∈ front ++ rest →
      movePreferred time fuel front rest = .ok jobs → job ∈ jobs := by
  induction fuel with
  | zero =>
      intro front rest jobs _ h
      rw [movePreferred] at h
      cases h
  | succ fuel ih =>
      intro front rest jobs hmem h
      rw [movePreferred] at h
      split at h
      · cases h
        exact hmem
      · next moved behind hdrop =>
          obtain ⟨hsplit, hmoved⟩ := dropWhile_preferred hdrop
          have hne : job ≠ moved := by
            rintro rfl
            unfold PlanJob.preferred at hmoved
            rw [hjob] at hmoved
            simp at hmoved
          refine ih ?_ h
          rw [← hsplit] at hmem
          simp only [List.mem_append, List.mem_cons] at hmem ⊢
          tauto

/-- After `update_sched` returned 0 the gap list has its shape, if no job takes CPUs
beyond its chunks or all CPUs are free by the end of the jobs that are not queued. -/
theorem updateSched_gapShape {conf : LimitsForClusters} {time : ℤ} {values : LimitsValues}
    {plan : ClusterPlan} {result : SchedUpdate}
    (h : updateSched conf time values plan = .ok result) (hcode : result.code = 0)
    (hest : ∀ job ∈ plan.jobs, job.isQueued = true → 0 ≤ job.estimatedProcessing)
    (hwhen : NoLeftovers plan.jobs ∨ FreeByPassedJobs time plan) :
    GapShape time result.plan.jobs result.plan.gaps := by
  obtain ⟨initial, values', jobs, st, gaps, hinitial, hmoved, hplanned, hclosing, hdone, hgaps⟩ :=
    updateSched_complete h hcode
  rw [hdone, hgaps]
  obtain ⟨htime, hpassed⟩ := planJobs_maxCompletionTime jobs hplanned
  rcases hwhen with hwhole | hcovered
  · have hjobs : ∀ job ∈ jobs, job.InTime False := by
      refine movePreferred_forall (fun _ _ hjob => hjob) _ ?_ hmoved
      intro job hjob hqueued
      exact ⟨hest job hjob hqueued, Or.inr (hwhole job hjob hqueued)⟩
    exact closingGaps_shape (planJobs_gapInv hjobs (fun hfalse => hfalse.elim) hplanned)
      htime hclosing
  · have hjobs : ∀ job ∈ jobs, job.InTime True := by
      refine movePreferred_forall (fun _ _ hjob => hjob) _ ?_ hmoved
      intro job hjob hqueued
      exact ⟨hest job hjob hqueued, Or.inl trivial⟩
    have htimes : True → ∀ c < initial.length, slotTime initial c ≤
        max time (planEnd time (plan.jobs.filter (fun job => !job.isQueued))) := by
      intro _ c hlen
      rw [slotTime_of_getElem? (List.getElem?_eq_getElem hlen)]
      exact (hcovered initial hinitial _ (List.getElem_mem hlen)).trans (le_max_right _ _)
    refine closingGaps_shape (planJobs_gapInv hjobs htimes hplanned) ?_ hclosing
    refine planEnd_le _ htime ?_
    intro job hjob
    obtain ⟨hmem, hnot⟩ := List.mem_filter.mp hjob
    rw [Bool.not_eq_true'] at hnot
    exact hpassed job (mem_movePreferred hnot _ hmem hmoved) hnot

/-- One node with five CPUs, the last of which runs a job until 5000. -/
def busyCluster : PlanCluster where
  clusterName := "zubat"
  nodes := [{ plainNode "zubat1" 5 8 with
    jobsOnCpu := some [none, none, none, none, some (runningJob 900 4100)] }]
  numCpus := 5
  numRunningCpus := 0
  numQueuedJobs := 0

/-- The running job is in the plan as well, so the fifth CPU of the queued job is
free by the end of the plan. -/
theorem updateSched_gapShape_running :
    ∃ result, updateSched oneClass 1000 ⟨[], []⟩ ⟨busyCluster,
        [PlanJob.filled 1 (runningJob 900 4100) 1 1 (by decide) 0 4100 0 900,
          queuedJob 2 5 2 (by decide) 4 100], [], []⟩ = .ok result ∧ result.code = 0 ∧
      GapShape 1000 result.plan.jobs result.plan.gaps := by
  have hrun : (updateSched oneClass 1000 ⟨[], []⟩ ⟨busyCluster,
      [PlanJob.filled 1 (runningJob 900 4100) 1 1 (by decide) 0 4100 0 900,
        queuedJob 2 5 2 (by decide) 4 100], [], []⟩ >>= fun r => pure r.code) = .ok 0 := by
    decide +kernel
  have hslots : (initialSlots busyCluster 1000 >>= fun slots =>
      pure (decide (∀ slot ∈ slots, slot.time ≤ 5000))) = .ok true := by
    decide +kernel
  obtain ⟨result, hresult, hcode⟩ := bind_ok.mp hrun
  refine ⟨result, hresult, pure_ok.mp hcode,
    updateSched_gapShape hresult (pure_ok.mp hcode) (by decide) (Or.inr ?_)⟩
  intro initial hinitial slot hslot
  obtain ⟨slots, hslots, htimes⟩ := bind_ok.mp hslots
  rw [hslots] at hinitial
  cases hinitial
  exact of_decide_eq_true (pure_ok.mp htimes) slot hslot

/-- Without it, the queued job is planned from 1000 to 1100 on five CPUs, the gap in
front of it reaches to 5000, and the gap without end starts at 1100. -/
theorem updateSched_gaps_too_late :
    ∃ result, updateSched oneClass 1000 ⟨[], []⟩ ⟨busyCluster,
        [queuedJob 2 5 2 (by decide) 4 100], [], []⟩ = .ok result ∧ result.code = 0 ∧
      ¬ GapShape 1000 result.plan.jobs result.plan.gaps := by
  have hrun : (updateSched oneClass 1000 ⟨[], []⟩ ⟨busyCluster,
      [queuedJob 2 5 2 (by decide) 4 100], [], []⟩ >>= fun r =>
        pure (r.code, r.plan.gaps.map (fun gap => (gap.startTime, gap.endTime))))
      = .ok (0, [(1000, 5000), (1100, LONG_MAX)]) := by
    decide +kernel
  obtain ⟨result, hresult, hcode⟩ := bind_ok.mp hrun
  rw [pure_ok, Prod.mk.injEq] at hcode
  refine ⟨result, hresult, hcode.1, ?_⟩
  rintro ⟨front, last, -, -, hchain, -⟩
  have hpairs := (List.isChain_map (R := fun g g' : ℤ × ℤ => g.2 ≤ g'.1)
    (fun gap : PlanGap => (gap.startTime, gap.endTime))).mpr hchain
  rw [hcode.2] at hpairs
  exact absurd hpairs (by decide)

end PlanSched
