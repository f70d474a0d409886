/-
# No CPU is planned twice

The plan `update_sched` builds out of jobs that share their nodes and use whole
chunks of CPUs is a ledger of bookings (`Bookings`): the table of first free
slots is its table of times, every planned job a booking of its CPUs.  From this
follow the safety of the plan: no job starts before its CPUs are free, and no CPU
is held by two jobs at the same time.

The CPUs of nodes out of service carry the time `-1`, below all others; they are
never chosen, so their time stays `-1` (`ExclusiveInv.down`).
-/
import PlanSched.Bookings
import PlanSched.UpdateSched

namespace PlanSched

open CheckedRun Bookings

/-- The booking of a planned job. -/
def PlanJob.booking (job : PlanJob) : Booking ℕ where
  start := job.startTime
  stop := job.completionTime
  holds := {c | c ∈ job.cpuIndexes}

/-- The bookings of the queued jobs of a list. -/
def bookingsOf (jobs : List PlanJob) : List (Booking ℕ) :=
  (jobs.filter PlanJob.isQueued).map PlanJob.booking

/-- The job is one the planner places chunk by chunk: if queued, it shares its
nodes, has no negative walltime and uses whole chunks of CPUs. -/
def PlanJob.WholeChunks (job : PlanJob) : Prop :=
  job.isQueued = true → job.jinfo.isExclusive = false ∧ 0 ≤ job.estimatedProcessing ∧
    job.usage = job.reqPpn * job.reqNumNodes

/-- What holds after every pass of the second loop of `update_sched`. -/
structure ExclusiveInv (initial : List FirstFreeSlot) (st : Planning) : Prop where
  limits : LimitsInv st.limits
  ledger : Ledger (slotTime initial) (bookingsOf st.done) (slotTime st.slots)
  down : ∀ c, slotTime initial c = -1 → slotTime st.slots c = -1
  placed : ∀ job ∈ st.done, job.isQueued = true →
    job.completionTime = job.startTime + job.estimatedProcessing ∧ job.cpuIndexes ≠ [] ∧
      ∀ c ∈ job.cpuIndexes, slotTime initial c ≠ -1

/-- A passed job that is not queued adds no booking. -/
theorem bookingsOf_append_passed (jobs : List PlanJob) {job : PlanJob}
    (h : job.isQueued = false) : bookingsOf (jobs ++ [job]) = bookingsOf jobs := by
  unfold bookingsOf
  rw [List.filter_append, List.filter_singleton, h]
  simp

/-- A planned job adds its booking. -/
theorem bookingsOf_append_planned (jobs : List PlanJob) {job : PlanJob}
    (h : job.isQueued = true) :
    bookingsOf (jobs ++ [job]) = bookingsOf jobs ++ [job.booking] := by
  unfold bookingsOf
  rw [List.filter_append, List.filter_singleton, h]
  simp

/-- To occupy the CPUs of a placed job is to book them. -/
theorem SharedPlacement.books {slots slots' : List FirstFreeSlot} {job job' : PlanJob}
    (h : SharedPlacement slots job job') (hest : 0 ≤ job'.estimatedProcessing)
    (husage : job'.usage = job'.reqPpn * job'.reqNumNodes)
    (hslots : Occupied (fun c => job'.cpuIndexes.contains c) job'.completionTime slots slots') :
    Books (slotTime slots) (slotTime slots') job'.booking := by
  refine ⟨?_, h.start_latest husage.le, ?_, ?_⟩
  · show job'.startTime ≤ job'.completionTime
    rw [h.completion]
    omega
  · intro c hc
    obtain ⟨slot, hslot, -⟩ := exists_slot_of_slotTime (h.chosen_free c hc)
    obtain ⟨hlen, -⟩ := List.getElem?_eq_some_iff.mp hslot
    rw [hslots.time_eq c, if_pos ⟨List.contains_iff_mem.mpr hc, hlen⟩]
    rfl
  · intro c hc
    rw [hslots.time_eq c, if_neg]
    rintro ⟨hown, -⟩
    exact hc (List.contains_iff_mem.mp hown)

section Steps

variable {conf : LimitsForClusters} {cluster : PlanCluster} {values : LimitsValues}
variable {initial : List FirstFreeSlot} {st st' : Planning}

/-- A job that was planned in whole chunks is placed, and is a booking of its CPUs. -/
theorem Planned.books {rest : List PlanJob} {job : PlanJob} {update : JobUpdate}
    (hlimits : LimitsInv st.limits) (hjob : job.WholeChunks) (hqueued : job.isQueued = true)
    (h : Planned conf cluster values rest st job update st') :
    SharedPlacement st.slots job update.job ∧
      Books (slotTime st.slots) (slotTime st'.slots) update.job.booking ∧
      bookingsOf st'.done = bookingsOf st.done ++ [update.job.booking] := by
  obtain ⟨hshared, hest, husage⟩ := hjob hqueued
  have hupdate := h.update_ok
  rw [updateJob_shared hshared] at hupdate
  obtain ⟨hplace, -, hslots⟩ := updateSharedJob_spec hlimits.increasing hupdate
  have hest' : 0 ≤ update.job.estimatedProcessing := by
    rw [hplace.estimatedProcessing_eq]
    exact hest
  have husage' : update.job.usage = update.job.reqPpn * update.job.reqNumNodes := by
    rw [hplace.usage_eq, hplace.reqPpn_eq, hplace.reqNumNodes_eq]
    exact husage
  have hqueued' : update.job.isQueued = true := by
    unfold PlanJob.isQueued at hqueued ⊢
    rw [hplace.jinfo_eq]
    exact hqueued
  refine ⟨hplace, ?_, ?_⟩
  · rw [h.slots_eq]
    exact hplace.books hest' husage' hslots
  · rw [h.done_eq, bookingsOf_append_planned st.done hqueued']

/-- Planning a queued job keeps the invariant. -/
theorem ExclusiveInv.planned {rest : List PlanJob} {job : PlanJob} {update : JobUpdate}
    (hinv : ExclusiveInv initial st) (hjob : job.WholeChunks) (hqueued : job.isQueued = true)
    (h : Planned conf cluster values rest st job update st') : ExclusiveInv initial st' := by
  obtain ⟨hplace, hbooks, hbookings⟩ := h.books hinv.limits hjob hqueued
  refine ⟨addJobToLimits_inv hinv.limits h.limits_ok, ?_, ?_, ?_⟩
  · rw [hbookings]
    exact hinv.ledger.snoc hbooks
  · intro c hdown
    have hfree := hinv.down c hdown
    rw [hbooks.other c]
    · exact hfree
    · intro hc
      exact hplace.chosen_free c hc hfree
  · intro j hj hqueuedj
    rw [h.done_eq] at hj
    rcases List.mem_append.mp hj with hj | hj
    · exact hinv.placed j hj hqueuedj
    · obtain rfl := List.mem_singleton.mp hj
      refine ⟨hplace.completion, ?_, ?_⟩
      · intro hnil
        have hlength := hplace.length_eq
        rw [hnil, hplace.usage_eq, (hjob hqueued).2.2, List.length_nil] at hlength
        have := Nat.mul_pos job.reqPpn_pos job.reqNumNodes_pos
        omega
      · intro c hc hdown
        exact hplace.chosen_free c hc (hinv.down c hdown)

/-- Passing any other job keeps the invariant. -/
theorem ExclusiveInv.passed {job : PlanJob} (hinv : ExclusiveInv initial st)
    (hqueued : job.isQueued = false) (h : Passed conf cluster st job st') :
    ExclusiveInv initial st' := by
  constructor
  case limits =>
    rcases h.limits_ok with heq | hlimits
    · rw [heq]
      exact hinv.limits
    · exact addJobToLimits_inv hinv.limits hlimits
  case ledger =>
    rw [h.done_eq, h.slots_eq, bookingsOf_append_passed st.done hqueued]
    exact hinv.ledger
  case down =>
    rw [h.slots_eq]
    exact hinv.down
  case placed =>
    intro j hj hqueuedj
    rw [h.done_eq] at hj
    rcases List.mem_append.mp hj with hj | hj
    · exact hinv.placed j hj hqueuedj
    · rw [List.mem_singleton.mp hj, hqueued] at hqueuedj
      cases hqueuedj

end Steps

/-- The invariant holds before the first job. -/
theorem exclusiveInv_initial (initial : List FirstFreeSlot) (time : ℤ) :
    ExclusiveInv initial ⟨[], initial, [], [], time, 0⟩ := by
  refine ⟨limitsInv_nil, Ledger.nil, fun _ h => h, ?_⟩
  intro job hjob
  cases hjob

/-- A call of `update_sched` that returns 0 leaves a plan that satisfies the
invariant, for some slot table and profile. -/
theorem updateSched_exclusiveInv {conf : LimitsForClusters} {time : ℤ} {values : LimitsValues}
    {plan : ClusterPlan} {result : SchedUpdate} {initial : List FirstFreeSlot}
    (h : updateSched conf time values plan = .ok result) (hcode : result.code = 0)
    (hinitial : initialSlots plan.cluster time = .ok initial)
    (hjobs : ∀ job ∈ plan.jobs, job.WholeChunks) :
    ∃ st, ExclusiveInv initial st ∧ result.plan.jobs = st.done := by
  obtain ⟨slots, values', jobs, st, gaps, hslots, hmoved, hplanned, -, hdone, -⟩ :=
    updateSched_complete h hcode
  rw [hinitial] at hslots
  cases hslots
  have hpriority : ∀ (job : PlanJob) (priority : ℤ), job.WholeChunks →
      (job.setPriority priority).WholeChunks := fun _ _ hjob => hjob
  refine ⟨st, ?_, hdone⟩
  refine planJobs_invariant hpriority ?_ ?_ jobs ?_ (exclusiveInv_initial initial time) hplanned
  · intro rest s job update s' hjob hqueued hinv hstep
    exact hinv.planned hjob hqueued hstep
  · intro s job s' _ hqueued hinv hstep
    exact hinv.passed hqueued hstep
  · exact movePreferred_forall hpriority _ hjobs hmoved

/-- Slot exclusivity of the plan: every planned job starts now or later, for its
estimated time, and not before its CPUs are free and the jobs running there have
ended; two planned jobs never hold one CPU at the same time. -/
theorem updateSched_slots_exclusive {conf : LimitsForClusters} {time : ℤ} {values : LimitsValues}
    {plan : ClusterPlan} {result : SchedUpdate} {initial : List FirstFreeSlot}
    (h : updateSched conf time values plan = .ok result) (hcode : result.code = 0)
    (hinitial : initialSlots plan.cluster time = .ok initial)
    (hjobs : ∀ job ∈ plan.jobs, job.isQueued = true → job.jinfo.isExclusive = false ∧
      0 ≤ job.estimatedProcessing ∧ job.usage = job.reqPpn * job.reqNumNodes) :
    (∀ job ∈ result.plan.jobs, job.isQueued = true →
      time ≤ job.startTime ∧
      job.completionTime = job.startTime + job.estimatedProcessing ∧
      ∀ c ∈ job.cpuIndexes,
        (∃ slot, initial[c]? = some slot ∧ slot.time ≠ -1 ∧ slot.time ≤ job.startTime) ∧
        ∀ running ∈ jobOnCpu plan.cluster.nodes c, running.endsBy job.startTime) ∧
    result.plan.jobs.Pairwise (fun job job' => job.isQueued = true → job'.isQueued = true →
      ∀ c ∈ job.cpuIndexes, c ∈ job'.cpuIndexes → ∀ t, ¬ (job.occupies t ∧ job'.occupies t)) := by
  obtain ⟨st, hinv, hdone⟩ := updateSched_exclusiveInv h hcode hinitial hjobs
  rw [hdone]
  constructor
  · intro job hjob hqueued
    obtain ⟨hcompletion, hne, hchosen⟩ := hinv.placed job hjob hqueued
    -- every planned job has its entry in the ledger
    have hbooked : job.booking ∈ bookingsOf st.done :=
      List.mem_map_of_mem (List.mem_filter.mpr ⟨hjob, hqueued⟩)
    have hcpu : ∀ c ∈ job.cpuIndexes, ∃ slot, initial[c]? = some slot ∧ slot.time ≠ -1 ∧
        slot.time ≤ job.startTime := by
      intro c hc
      obtain ⟨slot, hslot, htime⟩ := exists_slot_of_slotTime (hchosen c hc)
      refine ⟨slot, hslot, htime ▸ hchosen c hc, ?_⟩
      rw [htime]
      exact hinv.ledger.free_le_start hbooked hc
    refine ⟨?_, hcompletion, ?_⟩
    · obtain ⟨c, hc⟩ := List.exists_mem_of_ne_nil _ hne
      obtain ⟨slot, hslot, hup, hstart⟩ := hcpu c hc
      rcases initialSlots_freeFrom hinitial hslot with hdown | ⟨htime, -⟩
      · exact absurd hdown hup
      · exact htime.trans hstart
    · intro c hc
      refine ⟨hcpu c hc, ?_⟩
      intro running hrunning walltime hwalltime
      obtain ⟨slot, hslot, hup, hstart⟩ := hcpu c hc
      rcases initialSlots_freeFrom hinitial hslot with hdown | ⟨-, hends⟩
      · exact absurd hdown hup
      · exact (hends running hrunning walltime hwalltime).trans hstart
  · have hpairs := hinv.ledger.pairwise
    unfold bookingsOf at hpairs
    rw [List.pairwise_map, List.pairwise_filter] at hpairs
    refine hpairs.imp ?_
    intro job job' hpair hqueued hqueued' c hc hc' t hboth
    have hle : job.completionTime ≤ job'.startTime := hpair hqueued hqueued' c hc hc'
    obtain ⟨⟨-, hstop⟩, ⟨hstart, -⟩⟩ := hboth
    omega

/-- Two queued jobs on a node with two CPUs, one of them running a job until 1200:
both jobs are planned, one after the other, and not before 1200. -/
theorem updateSched_slots_exclusive_two :
    ∃ result, updateSched oneClass 1000 ⟨[], []⟩
        ⟨⟨"zubat", [{ plainNode "zubat1" 2 8 with
            jobsOnCpu := some [none, some (runningJob 900 300)] }], 2, 0, 0⟩,
          [queuedJob 1 2 1 (by decide) 4 100, queuedJob 2 2 1 (by decide) 4 50], [], []⟩
        = .ok result ∧ result.code = 0 ∧
      result.plan.jobs.map (fun job => (job.isQueued, job.cpuIndexes))
        = [(true, [0, 1]), (true, [0, 1])] ∧
      (∀ job ∈ result.plan.jobs, job.isQueued = true → 1000 ≤ job.startTime ∧
        ∀ c ∈ job.cpuIndexes, ∀ running ∈ jobOnCpu [{ plainNode "zubat1" 2 8 with
            jobsOnCpu := some [none, some (runningJob 900 300)] }] c,
          running.endsBy job.startTime) ∧
      result.plan.jobs.Pairwise (fun job job' => job.isQueued = true → job'.isQueued = true →
        ∀ c ∈ job.cpuIndexes, c ∈ job'.cpuIndexes →
          ∀ t, ¬ (job.occupies t ∧ job'.occupies t)) := by
  have hrun : (updateSched oneClass 1000 ⟨[], []⟩
      ⟨⟨"zubat", [{ plainNode "zubat1" 2 8 with
          jobsOnCpu := some [none, some (runningJob 900 300)] }], 2, 0, 0⟩,
        [queuedJob 1 2 1 (by decide) 4 100, queuedJob 2 2 1 (by decide) 4 50], [], []⟩
      >>= fun r => pure (r.code, r.plan.jobs.map (fun job => (job.isQueued, job.cpuIndexes))))
      = .ok (0, [(true, [0, 1]), (true, [0, 1])]) := by
    decide +kernel
  obtain ⟨result, hresult, hcode⟩ := bind_ok.mp hrun
  rw [pure_ok, Prod.mk.injEq] at hcode
  obtain ⟨initial, hinitial, -⟩ := bind_ok.mp hresult
  obtain ⟨hjobs, hpairs⟩ := updateSched_slots_exclusive hresult hcode.1 hinitial (by decide)
  refine ⟨result, hresult, hcode.1, hcode.2, ?_, hpairs⟩
  intro job hjob hqueued
  obtain ⟨htime, -, hcpus⟩ := hjobs job hjob hqueued
  exact ⟨htime, fun c hc => (hcpus c hc).2⟩

end PlanSched
