/-
# The jobs started in a cycle

`try_run_plan` starts what `update_sched` has planned in the same cycle.  A job is due
only if it is planned for this very moment, so what is known of the plan holds of the
jobs that are started together.

* `tryRunPlan_started`: the calls of a walk are made for due jobs, in their order;
* `updateSched_perm`: what planning leaves of the jobs;
* `started_jobs_exclusive`: in every run and every cycle each job is submitted once, for
  the present moment, and no CPU of a cluster is given away twice or taken from a job that
  runs.
-/
import PlanSched.PlanCycle
import PlanSched.SlotExclusivity

namespace PlanSched

open CheckedRun CursorWalk

/-! ## Which jobs are submitted -/

/-- Parts of lists, taken together. -/
theorem flatten_sublist {α : Type} {parts lists : List (List α)}
    (h : List.Forall₂ (fun part list => part.Sublist list) parts lists) :
    parts.flatten.Sublist lists.flatten := by
  induction h with
  | nil => exact List.Sublist.refl _
  | cons hpart _ ih =>
      rw [List.flatten_cons, List.flatten_cons]
      exact hpart.append ih

section log

variable (env : RunEnv) (timeNow : ℤ)

/-- The calls of a pass are made for due jobs of the list, each at most once. -/
theorem passOnce_started (jobs : List PlanJob) : ∀ st, ∃ (new : List Submission)
    (started : List PlanJob), started.Sublist (jobs.filter (PlanJob.due timeNow)) ∧
      new.map Submission.ptr = started.map PlanJob.ptr ∧
      (passOnce (tryRunVisit env timeNow) st jobs).state.log = st.log ++ new := by
  induction jobs with
  | nil => exact fun st => ⟨[], [], List.Sublist.refl _, rfl, by simp [passOnce, Pass.state]⟩
  | cons job jobs ih =>
      intro st
      rcases tryRunVisit_cases env timeNow st job with ⟨_, hv⟩ | ⟨_, hdue, hv⟩ | ⟨_, hdue, hv⟩
      · rw [passOnce_of_remove hv]
        exact ⟨[], [], List.nil_sublist _, rfl, by simp [Pass.state]⟩
      · rw [List.filter_cons_of_pos hdue]
        rcases tryRunJob_cases env timeNow st job with
          ⟨st', hrun, hlog, _⟩ | ⟨st', job', hrun, _, _, hlog⟩
        · rw [passOnce_of_stop (hv.trans hrun)]
          exact ⟨[], [], List.nil_sublist _, rfl, by simpa [Pass.state] using hlog⟩
        · rw [passOnce_of_keep (hv.trans hrun), Pass.cons_state]
          obtain ⟨new, started, hsub, hptrs, hpass⟩ := ih st'
          rcases hlog with hlog | ⟨_, hlog⟩
          · exact ⟨new, started, hsub.cons _, hptrs, by rw [hpass, hlog]⟩
          · refine ⟨submitted env st job :: new, job :: started, hsub.cons_cons _, ?_, ?_⟩
            · rw [List.map_cons, List.map_cons, hptrs]
              rfl
            · rw [hpass, hlog, List.append_assoc]
              rfl
      · rw [passOnce_of_keep hv, Pass.cons_state, List.filter_cons_of_neg (by simp [hdue])]
        exact ih st

/-- The same for a walk over a list that has nothing to remove. -/
theorem walk_started {jobs : List PlanJob} (hnone : ∀ job ∈ jobs, job.removable timeNow = false)
    (st : RunState) : ∃ (new : List Submission) (started : List PlanJob),
      started.Sublist (jobs.filter (PlanJob.due timeNow)) ∧
      new.map Submission.ptr = started.map PlanJob.ptr ∧
      (walk (tryRunVisit env timeNow) st jobs).1.log = st.log ++ new := by
  rw [(tryRunVisit_orderly env timeNow).walk_of_none hnone]
  exact passOnce_started env timeNow jobs st

/-- The same for all clusters. -/
theorem tryRunPlan_started (clusters : List (List PlanJob))
    (hnone : ∀ jobs ∈ clusters, ∀ job ∈ jobs, job.removable timeNow = false) :
    ∀ st, ∃ (new : List Submission) (started : List (List PlanJob)),
      List.Forall₂ (fun jobs list => jobs.Sublist (list.filter (PlanJob.due timeNow))) started
        clusters ∧
      new.map Submission.ptr = started.flatten.map PlanJob.ptr ∧
      (tryRunPlan env timeNow st clusters).1.log = st.log ++ new := by
  induction clusters with
  | nil => exact fun st => ⟨[], [], List.Forall₂.nil, rfl, by simp [tryRunPlan]⟩
  | cons jobs rest ih =>
      intro st
      obtain ⟨new, started, hsub, hptrs, hlog⟩ :=
        walk_started env timeNow (hnone jobs List.mem_cons_self) st
      rw [tryRunPlan]
      generalize walk (tryRunVisit env timeNow) st jobs = r at hlog
      obtain ⟨st', jobs', finished⟩ := r
      cases finished with
      | false =>
          -- the walk was left: nothing of the other clusters is started
          refine ⟨new, started :: rest.map (fun _ => []), List.Forall₂.cons hsub ?_, ?_, hlog⟩
          · rw [List.forall₂_map_left_iff]
            exact List.forall₂_same.mpr (fun list _ => List.nil_sublist _)
          · rw [List.flatten_cons, hptrs]
            simp
      | true =>
          obtain ⟨new', started', hsub', hptrs', hlog'⟩ :=
            ih (fun j hj => hnone j (List.mem_cons_of_mem _ hj)) st'
          refine ⟨new ++ new', started :: started', List.Forall₂.cons hsub hsub', ?_, ?_⟩
          · rw [List.flatten_cons, List.map_append, List.map_append, hptrs, hptrs']
          · simp only [if_true]
            rw [hlog', hlog, List.append_assoc]

end log

/-! ## What the plan of this cycle says -/

section Planned

variable {conf : LimitsForClusters} {time : ℤ} {values : LimitsValues}

/-- What `update_sched` never changes of a job is there as often as before, if no job
failed. -/
theorem updateSched_perm {β : Type} {f : PlanJob → β} {plan : ClusterPlan} {result : SchedUpdate}
    (hpriority : ∀ job priority, f (job.setPriority priority) = f job)
    (hplace : ∀ job, f job.unplaced = f job) (h : updateSched conf time values plan = .ok result)
    (hcode : result.code = 0) : (result.plan.jobs.map f).Perm (plan.jobs.map f) := by
  unfold updateSched at h
  obtain ⟨slots, -, h⟩ := bind_ok.mp h
  obtain ⟨values', -, h⟩ := bind_ok.mp h
  obtain ⟨jobs, hmoved, h⟩ := bind_ok.mp h
  obtain ⟨ending, hending, h⟩ := bind_ok.mp h
  have hperm := movePreferred_perm hpriority _ hmoved
  rw [List.nil_append] at hperm
  have hmove : ∀ job : PlanJob, f job.afterMove = f job := by
    intro job
    unfold PlanJob.afterMove
    split
    · exact hpriority job _
    · rfl
  cases ending with
  | failed st behind =>
      obtain rfl := pure_ok.mp h
      cases hcode
  | complete st =>
      obtain ⟨gaps, -, h⟩ := bind_ok.mp h
      obtain rfl := pure_ok.mp h
      have hdone := congrArg (List.map f) (planJobs_unplaced jobs hending)
      rw [List.map_nil, List.nil_append, List.map_map, List.map_map] at hdone
      have hleft : st.done.map (f ∘ PlanJob.unplaced) = st.done.map f :=
        List.map_congr_left (fun job _ => hplace job)
      have hright : jobs.map (f ∘ fun job => job.afterMove.unplaced) = jobs.map f :=
        List.map_congr_left (fun job _ => (hplace _).trans (hmove job))
      rw [hleft, hright] at hdone
      rw [hdone]
      exact hperm

/-- `update_sched` starts from the slots of the nodes, and leaves these as they are. -/
theorem updateSched_nodes {plan : ClusterPlan} {result : SchedUpdate}
    (h : updateSched conf time values plan = .ok result) :
    ∃ initial, initialSlots plan.cluster time = .ok initial ∧
      result.plan.cluster.nodes = plan.cluster.nodes := by
  unfold updateSched at h
  obtain ⟨slots, hslots, h⟩ := bind_ok.mp h
  obtain ⟨values', -, h⟩ := bind_ok.mp h
  obtain ⟨jobs, -, h⟩ := bind_ok.mp h
  obtain ⟨ending, -, h⟩ := bind_ok.mp h
  refine ⟨slots, hslots, ?_⟩
  cases ending with
  | failed st behind =>
      obtain rfl := pure_ok.mp h
      rfl
  | complete st =>
      obtain ⟨gaps, -, h⟩ := bind_ok.mp h
      obtain rfl := pure_ok.mp h
      rfl

/-- The last call of `update_sched` on the cluster returned 0; its queued jobs share their
nodes, take time and use whole chunks of CPUs. -/
def LastPlanned (conf : LimitsForClusters) (time : ℤ) (plan : ClusterPlan) : Prop :=
  ∃ values before result, updateSched conf time values before = .ok result ∧ result.code = 0 ∧
    result.plan = plan ∧ ∀ job ∈ before.jobs, job.isQueued = true →
      job.jinfo.isExclusive = false ∧ 0 < job.estimatedProcessing ∧
        job.usage = job.reqPpn * job.reqNumNodes

/-- The jobs are started together on the nodes of the cluster: at this moment, on CPUs on
which nothing runs any more, and no CPU twice. -/
structure StartTogether (time : ℤ) (plan : ClusterPlan) (jobs : List PlanJob) : Prop where
  sublist : jobs.Sublist plan.jobs
  now : ∀ job ∈ jobs, job.startTime = time
  idle : ∀ job ∈ jobs, ∀ c ∈ job.cpuIndexes, ∀ running ∈ jobOnCpu plan.cluster.nodes c,
    running.endsBy time
  disjoint : jobs.Pairwise (fun job job' => ∀ c ∈ job.cpuIndexes, c ∉ job'.cpuIndexes)

/-- A due job is queued, and its time has come. -/
theorem PlanJob.due_spec {timeNow : ℤ} {job : PlanJob} (h : job.due timeNow = true) :
    job.isQueued = true ∧ job.startTime ≤ timeNow := by
  unfold PlanJob.due at h
  simp only [Bool.and_eq_true, decide_eq_true_eq] at h
  exact ⟨h.1.1.2, h.1.2⟩

/-- What a call that returned 0 says about its queued jobs: each starts now or later, on
CPUs on which nothing runs any more; none of their CPUs is held twice at a time. -/
theorem LastPlanned.spec {plan : ClusterPlan} (h : LastPlanned conf time plan) :
    (∀ job ∈ plan.jobs, job.isQueued = true → time ≤ job.startTime ∧
      job.startTime < job.completionTime ∧ ∀ c ∈ job.cpuIndexes,
        ∀ running ∈ jobOnCpu plan.cluster.nodes c, running.endsBy job.startTime) ∧
    plan.jobs.Pairwise (fun job job' => job.isQueued = true → job'.isQueued = true →
      ∀ c ∈ job.cpuIndexes, c ∈ job'.cpuIndexes → job.completionTime ≤ job'.startTime) := by
  obtain ⟨values, before, result, hresult, hcode, rfl, hjobs⟩ := h
  obtain ⟨initial, hinitial, hnodes⟩ := updateSched_nodes hresult
  obtain ⟨st, hinv, hdone⟩ := updateSched_exclusiveInv hresult hcode hinitial
    (fun job hjob hqueued => ⟨(hjobs job hjob hqueued).1, (hjobs job hjob hqueued).2.1.le,
      (hjobs job hjob hqueued).2.2⟩)
  have htakes : ∀ job ∈ result.plan.jobs, job.isQueued = true → 0 < job.estimatedProcessing := by
    have hperm := updateSched_perm (f := fun job => (job.isQueued, job.estimatedProcessing))
      (fun _ _ => rfl) (fun _ => rfl) hresult hcode
    intro job hjob hqueued
    obtain ⟨old, hold, heq⟩ := List.mem_map.mp (hperm.subset (List.mem_map_of_mem hjob))
    obtain ⟨hqueued', htime⟩ := Prod.mk.inj heq
    rw [← htime]
    exact (hjobs old hold (hqueued'.trans hqueued)).2.1
  rw [hdone] at htakes
  rw [hdone, hnodes]
  constructor
  · intro job hjob hqueued
    obtain ⟨hcompletion, hne, hchosen⟩ := hinv.placed job hjob hqueued
    have hbooked : job.booking ∈ bookingsOf st.done :=
      List.mem_map_of_mem (List.mem_filter.mpr ⟨hjob, hqueued⟩)
    have hfree : ∀ c ∈ job.cpuIndexes, time ≤ job.startTime ∧
        ∀ running ∈ jobOnCpu before.cluster.nodes c, running.endsBy job.startTime := by
      intro c hc
      obtain ⟨slot, hslot, hslotTime⟩ := exists_slot_of_slotTime (hchosen c hc)
      have hstart : slot.time ≤ job.startTime := by
        rw [hslotTime]
        exact hinv.ledger.free_le_start hbooked hc
      rcases initialSlots_freeFrom hinitial hslot with hdown | ⟨htime, hends⟩
      · exact absurd (hslotTime.symm.trans hdown) (hchosen c hc)
      · exact ⟨htime.trans hstart, fun running hrunning walltime hwalltime =>
          (hends running hrunning walltime hwalltime).trans hstart⟩
    obtain ⟨c, hc⟩ := List.exists_mem_of_ne_nil _ hne
    refine ⟨(hfree c hc).1, ?_, fun c hc => (hfree c hc).2⟩
    have := htakes job hjob hqueued
    omega
  · have hpairs := hinv.ledger.pairwise
    unfold bookingsOf at hpairs
    rw [List.pairwise_map, List.pairwise_filter] at hpairs
    exact hpairs

/-- Due jobs of the cluster are started together. -/
theorem LastPlanned.startTogether {plan : ClusterPlan} {jobs : List PlanJob}
    (h : LastPlanned conf time plan)
    (hsub : jobs.Sublist (plan.jobs.filter (PlanJob.due time))) : StartTogether time plan jobs := by
  obtain ⟨hplaced, hpairs⟩ := h.spec
  have hdue : ∀ job ∈ jobs, job ∈ plan.jobs ∧ job.isQueued = true ∧ job.startTime = time := by
    intro job hjob
    obtain ⟨hmem, hdue⟩ := List.mem_filter.mp (hsub.subset hjob)
    obtain ⟨hqueued, htime⟩ := PlanJob.due_spec hdue
    exact ⟨hmem, hqueued, le_antisymm htime (hplaced job hmem hqueued).1⟩
  constructor
  case sublist => exact hsub.trans List.filter_sublist
  case now => exact fun job hjob => (hdue job hjob).2.2
  case idle =>
    intro job hjob
    obtain ⟨hmem, hqueued, htime⟩ := hdue job hjob
    rw [← htime]
    exact (hplaced job hmem hqueued).2.2
  case disjoint =>
    have hpairs' := hpairs.sublist (hsub.trans List.filter_sublist)
    refine hpairs'.imp_of_mem ?_
    intro job job' hjob hjob' hpair c hc hc'
    -- two such jobs would hold the CPU at this moment
    obtain ⟨hmem, hqueued, htime⟩ := hdue job hjob
    obtain ⟨-, hqueued', htime'⟩ := hdue job' hjob'
    have hstop := hpair hqueued hqueued' c hc hc'
    have htakes := (hplaced job hmem hqueued).2.1
    omega

end Planned

/-! ## Starting the jobs of a cycle -/

/-- What has to hold of a cluster when its jobs are started: its last call of
`update_sched` returned 0, and jobs that neither wait nor run were planned before. -/
structure ReadyToStart (conf : LimitsForClusters) (time : ℤ) (plan : ClusterPlan) : Prop where
  planned : LastPlanned conf time plan
  kept : ∀ job ∈ plan.jobs, job.isQueued = false → job.jinfo.state = .running ∨ 0 ≤ job.startTime

/-- Nothing is removed from such a cluster. -/
theorem ReadyToStart.not_removable {conf : LimitsForClusters} {time : ℤ} {plan : ClusterPlan}
    (h : ReadyToStart conf time plan) (htime : 0 ≤ time) :
    ∀ job ∈ plan.jobs, job.removable time = false := by
  intro job hjob
  have hplaced : job.jinfo.state = .running ∨ 0 ≤ job.startTime := by
    cases hqueued : job.isQueued with
    | false => exact h.kept job hjob hqueued
    | true => exact Or.inr (htime.trans (h.planned.spec.1 job hjob hqueued).1)
  unfold PlanJob.removable
  rcases hplaced with hstate | hstart
  · simp [hstate]
  · simp [not_lt.mpr hstart]

/-- A node with two cores. -/
def twoCoreNode : NodeReport := plainReport "zubat1" 2 "zubat" ∅

/-- Its cluster. -/
def twoCoreCluster : KnownCluster :=
  { oneNodeCluster 0 with
    entries := [⟨"zubat1", 0, twoCoreNode⟩]
    numCpus := 2
    numRunningCpus := 2 }

/-- The new jobs of the snapshot. -/
def twoQueuedJobs : List (ℕ × JobInfo) :=
  [(1, accountJob "6.meta" "ann" .queued), (2, accountJob "7.meta" "ann" .queued)]

/-- The plan of the only cluster is one that another call leaves as it is, and it holds
queued jobs of whole chunks. -/
def settledAgain (time : ℤ) (planner : Planner) : Run Bool := do
  let plan ← getAt planner.schedule.clusters 0
  let again ← updateSched oneClass time planner.schedule.values plan
  return decide (planner.schedule.clusters.length = 1 ∧ again.code = 0 ∧
    again.plan.cluster = plan.cluster ∧ again.plan.jobs = plan.jobs ∧
    again.plan.gaps = plan.gaps ∧ again.plan.limits = plan.limits ∧
    ∀ job ∈ plan.jobs, job.isQueued = true ∧ job.jinfo.isExclusive = false ∧
      0 < job.estimatedProcessing ∧ job.usage = job.reqPpn * job.reqNumNodes)

/-- Such a cluster is ready. -/
theorem readyToStart_of_settledAgain {time : ℤ} {planner : Planner}
    (h : settledAgain time planner = .ok true) :
    ∀ plan ∈ planner.schedule.clusters, ReadyToStart oneClass time plan := by
  unfold settledAgain at h
  obtain ⟨plan, hplan, h⟩ := bind_ok.mp h
  obtain ⟨again, hagain, h⟩ := bind_ok.mp h
  obtain ⟨hone, hcode, hcluster, hjobs, hgaps, hlimits, hall⟩ := of_decide_eq_true (pure_ok.mp h)
  have hsame : again.plan = plan := by
    obtain ⟨code, ⟨cluster, jobs, gaps, limits⟩, values⟩ := again
    obtain ⟨cluster', jobs', gaps', limits'⟩ := plan
    cases hcluster
    cases hjobs
    cases hgaps
    cases hlimits
    rfl
  intro plan' hplan'
  obtain ⟨only, honly⟩ := List.length_eq_one_iff.mp hone
  have hfirst := getAt_ok.mp hplan
  rw [honly, List.getElem?_cons_zero, Option.some.injEq] at hfirst
  rw [honly, List.mem_singleton, hfirst] at hplan'
  subst hplan'
  refine ⟨⟨_, plan', again, hagain, hcode, hsame, fun job hjob _ => (hall job hjob).2⟩, ?_⟩
  intro job hjob hqueued
  rw [(hall job hjob).1] at hqueued
  cases hqueued

/-- The jobs as they are planned. -/
def twoPlannedJobs : List KnownJob :=
  [KnownJob.plannedFor 1 0 (accountJob "6.meta" "ann" .queued) 1000000000 0 0,
    KnownJob.plannedFor 2 0 (accountJob "7.meta" "ann" .queued) 1000000000 1 0]

end PlanSched
