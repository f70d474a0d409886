/-
# Rebuilding the plan of a cluster

Models `update_job` and `update_sched` (`plan_operations.cpp`) on top of the slot
table, the choice of CPUs, the limits and the gaps.

`update_sched` empties the gap list and the limit profile of the cluster, moves
preferred jobs to the front of the job list, and then plans the queued jobs in
list order.  As soon as one job cannot be planned it is removed from the list and
the function returns 2, with the gap list as far as it was built.  After the last
job it adds the gaps behind the last use of each CPU and the gap without end.
-/
import PlanSched.Limits
import PlanSched.Selection
import PlanSched.GapOrder

namespace PlanSched

open CheckedRun StepProfile

/-! ## Planning one job -/

/-- The fixed node names after the first step of `update_job`, and whether they
were given up because one was missing. -/
def wipeFixedNodes (job : PlanJob) : List (Option String) × Bool :=
  if job.fixedNnameArr.contains none then (job.fixedNnameArr.map (fun _ => none), true)
  else (job.fixedNnameArr, false)

/-- The choice of CPUs for a job that shares its nodes; `none` is the result
`NULL`. -/
def placeShared (cluster : PlanCluster) (job : PlanJob) (slots : List FirstFreeSlot) :
    Run (Option PlanJob) := do
  let (fixedNnameArr, wiped) := wipeFixedNodes job
  let avail ← slots.mapM (slotAvailability cluster job wiped)
  let selected ← selectCpus cluster slots job wiped (selectionBudget slots.length)
    (Selection.initial job fixedNnameArr avail)
  match selected with
  | none => return none
  | some sel =>
      return some { job with
        startTime := sel.startTime
        completionTime := sel.completionTime
        cpuIndexes := sel.cpuIndexes
        ninfoArr := sel.ninfoArr
        latestNcpuIndex := sel.latestNcpuIndex
        fixedNnameArr := sel.fixedNnameArr }

/-- The slots after an exclusive job has claimed its nodes: none is free later than
the job starts. -/
def claimNodes (nodes : List (Option ℕ)) (startTime : ℤ) (slots : List FirstFreeSlot) :
    List FirstFreeSlot :=
  slots.map (fun slot =>
    if nodes.contains (some slot.ninfo) ∧ startTime < slot.time then
      { slot with time := startTime }
    else slot)

/-- The CPUs of an exclusive job: all of its nodes, in order of time. -/
def cpusOfNodes (nodes : List (Option ℕ)) (slots : List FirstFreeSlot) : List ℕ :=
  (List.range slots.length).foldl (fun cpus c =>
    nodes.foldl (fun cpus node =>
      if slotNode slots c = node then insertByTime (slotTime slots) c cpus else cpus) cpus) []

/-- The choice of nodes for an exclusive job: the job and the slots it claimed. -/
def placeExclusive (cluster : PlanCluster) (job : PlanJob) (slots : List FirstFreeSlot) :
    Run (Option (PlanJob × List FirstFreeSlot)) := do
  let (fixedNnameArr, wiped) := wipeFixedNodes job
  let avail ← slots.mapM (slotAvailability cluster job wiped)
  let (nodes, startTime) ← findEarliestNodes cluster job slots avail
  if startTime = NO_NODE_TIME then return none
  else
    let slots := claimNodes nodes startTime slots
    return some ({ job with
      startTime := startTime
      completionTime := startTime + job.estimatedProcessing
      ninfoArr := nodes
      fixedNnameArr := fixedNnameArr }, slots)

/-- What `update_job` leaves: the job, the slots and the gaps in front of the job. -/
structure JobUpdate where
  job : PlanJob
  slots : List FirstFreeSlot
  gaps : List PlanGap

/-- `update_job` for a job that shares its nodes. -/
def updateSharedJob (conf : LimitsForClusters) (cluster : PlanCluster) (values : LimitsValues)
    (limits : List PlanLimit) (slots : List FirstFreeSlot) (job : PlanJob) :
    Run (Option JobUpdate) := do
  match ← placeShared cluster job slots with
  | none => return none
  | some job => do
      let job ← adjustJobStarttimeAccordingToLimits conf cluster values limits job
      let gaps ← gapsOfJob job slots job.cpuIndexes (-1)
      let slots ← firstFreeSlotsUpdate cluster job slots
      return some ⟨job, slots, gaps⟩

/-- `update_job` for an exclusive job. -/
def updateExclusiveJob (conf : LimitsForClusters) (cluster : PlanCluster) (values : LimitsValues)
    (limits : List PlanLimit) (slots : List FirstFreeSlot) (job : PlanJob) :
    Run (Option JobUpdate) := do
  match ← placeExclusive cluster job slots with
  | none => return none
  | some (job, slots) => do
      let job ← adjustJobStarttimeAccordingToLimits conf cluster values limits job
      let cpuIndexes := cpusOfNodes job.ninfoArr slots
      let job := { job with cpuIndexes := cpuIndexes, usage := cpuIndexes.length }
      let gaps ← gapsOfJob job slots job.cpuIndexes (-1)
      let slots ← firstFreeSlotsUpdateExclusive cluster job slots
      return some ⟨job, slots, gaps⟩

/-- `update_job`; `none` is the result `NULL`. -/
def updateJob (conf : LimitsForClusters) (cluster : PlanCluster) (values : LimitsValues)
    (limits : List PlanLimit) (slots : List FirstFreeSlot) (job : PlanJob) :
    Run (Option JobUpdate) :=
  if job.jinfo.isExclusive then updateExclusiveJob conf cluster values limits slots job
  else updateSharedJob conf cluster values limits slots job

/-! ## The order of the jobs -/

/-- The job with another priority. -/
def PlanJob.setPriority (job : PlanJob) (priority : ℤ) : PlanJob :=
  { job with jinfo := { job.jinfo with priority := priority } }

/-- The priority of a job that was moved to the front in this call. -/
def MOVED_PRIORITY : ℤ := 56

/-- The priority of a preferred job. -/
def PREFERRED_PRIORITY : ℤ := 42

/-- The job is to be moved to the front. -/
def PlanJob.preferred (time : ℤ) (job : PlanJob) : Bool :=
  decide (job.availableAfter ≤ time) && job.isQueued &&
    job.jinfo.priority != MOVED_PRIORITY &&
    (job.jinfo.account == "galaxyelixir" || job.jinfo.priority == PREFERRED_PRIORITY ||
      decide (0 < job.reqGpu))

/-- The first loop of `update_sched`, with a budget of moves: `front` was visited
already.  A moved job becomes the first one and the cursor stays on it, so the
jobs visited before come again. -/
def movePreferred (time : ℤ) : ℕ → List PlanJob → List PlanJob → Run (List PlanJob)
  | 0, _, _ => .error .outOfSteps
  | fuel + 1, front, rest =>
      match rest.dropWhile (fun job => !job.preferred time) with
      | [] => .ok (front ++ rest)
      | job :: behind =>
          movePreferred time fuel [job.setPriority MOVED_PRIORITY]
            (front ++ rest.takeWhile (fun job => !job.preferred time) ++ behind)

/-! ## Planning the cluster -/

/-- `clusters[k]`, `jobs[k]`, `gaps[k]` and `limits[k]` of the schedule. -/
structure ClusterPlan where
  cluster : PlanCluster
  jobs : List PlanJob
  gaps : List PlanGap
  limits : List PlanLimit

/-- The variables of the second loop of `update_sched`; `done` are the jobs in front
of the cursor. -/
structure Planning where
  done : List PlanJob
  slots : List FirstFreeSlot
  limits : List PlanLimit
  gaps : List PlanGap
  maxCompletionTime : ℤ
  numQueuedJobs : ℕ

/-- The jobs of the plan so far, the one under the cursor, and those behind it. -/
def Planning.jobList (st : Planning) (job : PlanJob) (rest : List PlanJob) : List PlanJob :=
  st.done ++ job :: rest

/-- The end of the loop body: the job stays in the list. -/
def Planning.keep (st : Planning) (job : PlanJob) : Planning :=
  { st with
    done := st.done ++ [job]
    maxCompletionTime := max st.maxCompletionTime job.completionTime }

/-- The loop body of `update_sched` for a queued job; `none`: `update_job` failed. -/
def planQueued (conf : LimitsForClusters) (cluster : PlanCluster) (values : LimitsValues)
    (rest : List PlanJob) (st : Planning) (job : PlanJob) : Run (Option Planning) := do
  match ← updateJob conf cluster values st.limits st.slots job with
  | none => return none
  | some update => do
      let limits ← addJobToLimits conf cluster st.limits update.job
      let gaps ← update.gaps.foldlM
        (insertNewGap cluster (st.jobList update.job rest)) st.gaps
      let st := { st with
        slots := update.slots
        limits := limits
        gaps := gaps
        numQueuedJobs := st.numQueuedJobs + 1 }
      return some (st.keep update.job)

/-- The priority a job has after it was passed in the second loop. -/
def PlanJob.afterMove (job : PlanJob) : PlanJob :=
  if job.jinfo.priority = MOVED_PRIORITY then job.setPriority PREFERRED_PRIORITY else job

/-- The loop body of `update_sched`. -/
def planJob (conf : LimitsForClusters) (cluster : PlanCluster) (values : LimitsValues)
    (rest : List PlanJob) (st : Planning) (job : PlanJob) : Run (Option Planning) := do
  let job := job.afterMove
  if job.isQueued then planQueued conf cluster values rest st job
  else if job.jinfo.state = .running then do
    let limits ← addJobToLimits conf cluster st.limits job
    return some ({ st with limits := limits }.keep job)
  else return some (st.keep job)

/-- How the second loop of `update_sched` ends: all jobs are planned, or one was
removed and `behind` it some were not reached. -/
inductive PlanningEnd where
  | complete (st : Planning) : PlanningEnd
  | failed (st : Planning) (behind : List PlanJob) : PlanningEnd

/-- The second loop of `update_sched`. -/
def planJobs (conf : LimitsForClusters) (cluster : PlanCluster) (values : LimitsValues) :
    List PlanJob → Planning → Run PlanningEnd
  | [], st => .ok (.complete st)
  | job :: rest, st => do
      match ← planJob conf cluster values rest st job with
      | none => return .failed { st with numQueuedJobs := st.numQueuedJobs + 1 } rest
      | some st => planJobs conf cluster values rest st

/-- The gaps `update_sched` adds after the last job. -/
def closingGaps (cluster : PlanCluster) (st : Planning) : Run (List PlanGap) := do
  let gaps ←
    if st.done = [] then pure st.gaps
    else do
      let new ← gapCreateNotTheLast cluster st.slots st.maxCompletionTime
      new.foldlM (insertNewGap cluster st.done) st.gaps
  return gaps ++ [gapCreateLast st.maxCompletionTime cluster]

/-- What `update_sched` leaves: its return code, the plan of the cluster, and the
global limit values. -/
structure SchedUpdate where
  code : ℕ
  plan : ClusterPlan
  values : LimitsValues

/-- `update_sched`, without `free_first_free_slots` in front of its returns: that call frees one
array twice when a node without cores precedes another one. -/
def updateSched (conf : LimitsForClusters) (time : ℤ) (values : LimitsValues)
    (plan : ClusterPlan) : Run SchedUpdate := do
  let slots ← initialSlots plan.cluster time
  let cluster := { plan.cluster with numRunningCpus := runningCpus plan.cluster }
  let values ← updateLimitsValues conf cluster values
  let jobs ← movePreferred time (plan.jobs.length + 1) [] plan.jobs
  match ← planJobs conf cluster values jobs ⟨[], slots, [], [], time, 0⟩ with
  | .failed st behind =>
      return ⟨2, ⟨{ cluster with numQueuedJobs := st.numQueuedJobs },
        st.done ++ behind, st.gaps, st.limits⟩, values⟩
  | .complete st => do
      let gaps ← closingGaps cluster st
      return ⟨0, ⟨{ cluster with numQueuedJobs := st.numQueuedJobs },
        st.done, gaps, st.limits⟩, values⟩

/-! ## What a call of `update_job` runs through -/

/-- A call of `update_job` that placed a job which shares its nodes: `placed` is the
job after the choice of CPUs. -/
structure SharedCall (conf : LimitsForClusters) (cluster : PlanCluster) (values : LimitsValues)
    (limits : List PlanLimit) (slots : List FirstFreeSlot) (job placed : PlanJob)
    (update : JobUpdate) : Prop where
  placed_ok : placeShared cluster job slots = .ok (some placed)
  adjusted_ok :
    adjustJobStarttimeAccordingToLimits conf cluster values limits placed = .ok update.job
  gaps_ok : gapsOfJob update.job slots update.job.cpuIndexes (-1) = .ok update.gaps
  slots_ok : firstFreeSlotsUpdate cluster update.job slots = .ok update.slots

/-- A call of `update_job` that placed an exclusive job: `placed` is the job after the
choice of nodes, `adjusted` the same after the limits, and `claimed` the claimed slots. -/
structure ExclusiveCall (conf : LimitsForClusters) (cluster : PlanCluster)
    (values : LimitsValues) (limits : List PlanLimit) (slots claimed : List FirstFreeSlot)
    (job placed adjusted : PlanJob) (update : JobUpdate) : Prop where
  placed_ok : placeExclusive cluster job slots = .ok (some (placed, claimed))
  adjusted_ok :
    adjustJobStarttimeAccordingToLimits conf cluster values limits placed = .ok adjusted
  job_eq : update.job = { adjusted with
    cpuIndexes := cpusOfNodes adjusted.ninfoArr claimed
    usage := (cpusOfNodes adjusted.ninfoArr claimed).length }
  gaps_ok : gapsOfJob update.job claimed update.job.cpuIndexes (-1) = .ok update.gaps
  slots_ok : firstFreeSlotsUpdateExclusive cluster update.job claimed = .ok update.slots

section Calls

/-- A place for a job that shares its nodes comes from the loop of `update_job`. -/
theorem placeShared_ok {cluster : PlanCluster} {job placed : PlanJob}
    {slots : List FirstFreeSlot} (h : placeShared cluster job slots = .ok (some placed)) :
    ∃ avail sel, slots.mapM (slotAvailability cluster job (wipeFixedNodes job).2) = .ok avail ∧
      selectCpus cluster slots job (wipeFixedNodes job).2 (selectionBudget slots.length)
        (Selection.initial job (wipeFixedNodes job).1 avail) = .ok (some sel) ∧
      placed = { job with
        startTime := sel.startTime
        completionTime := sel.completionTime
        cpuIndexes := sel.cpuIndexes
        ninfoArr := sel.ninfoArr
        latestNcpuIndex := sel.latestNcpuIndex
        fixedNnameArr := sel.fixedNnameArr } := by
  unfold placeShared at h
  obtain ⟨avail, havail, h⟩ := bind_ok.mp h
  obtain ⟨selected, hselected, h⟩ := bind_ok.mp h
  cases selected with
  | none => cases pure_ok.mp h
  | some sel => exact ⟨avail, sel, havail, hselected, (Option.some.inj (pure_ok.mp h)).symm⟩

/-- A place for an exclusive job comes from `find_earliest_node`. -/
theorem placeExclusive_ok {cluster : PlanCluster} {job placed : PlanJob}
    {slots claimed : List FirstFreeSlot}
    (h : placeExclusive cluster job slots = .ok (some (placed, claimed))) :
    ∃ avail nodes startTime,
      slots.mapM (slotAvailability cluster job (wipeFixedNodes job).2) = .ok avail ∧
      findEarliestNodes cluster job slots avail = .ok (nodes, startTime) ∧
      startTime ≠ NO_NODE_TIME ∧
      placed = { job with
        startTime := startTime
        completionTime := startTime + job.estimatedProcessing
        ninfoArr := nodes
        fixedNnameArr := (wipeFixedNodes job).1 } ∧
      claimed = claimNodes nodes startTime slots := by
  unfold placeExclusive at h
  obtain ⟨avail, havail, h⟩ := bind_ok.mp h
  obtain ⟨⟨nodes, startTime⟩, hnodes, h⟩ := bind_ok.mp h
  dsimp only at h
  split at h
  · cases pure_ok.mp h
  · next hfound =>
      obtain ⟨rfl, rfl⟩ := Prod.mk.inj (Option.some.inj (pure_ok.mp h))
      exact ⟨avail, nodes, startTime, havail, hnodes, hfound, rfl, rfl⟩

variable {conf : LimitsForClusters} {cluster : PlanCluster} {values : LimitsValues}
variable {limits : List PlanLimit} {slots : List FirstFreeSlot} {job : PlanJob}
variable {update : JobUpdate}

/-- A job that shares its nodes is returned by such a call only. -/
theorem updateSharedJob_call
    (h : updateSharedJob conf cluster values limits slots job = .ok (some update)) :
    ∃ placed, SharedCall conf cluster values limits slots job placed update := by
  unfold updateSharedJob at h
  obtain ⟨placed, hplaced, h⟩ := bind_ok.mp h
  cases placed with
  | none => cases pure_ok.mp h
  | some placed =>
      obtain ⟨job', hjob', h⟩ := bind_ok.mp h
      obtain ⟨gaps, hgaps, h⟩ := bind_ok.mp h
      obtain ⟨slots', hslots', h⟩ := bind_ok.mp h
      obtain rfl := Option.some.inj (pure_ok.mp h)
      exact ⟨placed, hplaced, hjob', hgaps, hslots'⟩

/-- An exclusive job is returned by such a call only. -/
theorem updateExclusiveJob_call
    (h : updateExclusiveJob conf cluster values limits slots job = .ok (some update)) :
    ∃ placed adjusted claimed,
      ExclusiveCall conf cluster values limits slots claimed job placed adjusted update := by
  unfold updateExclusiveJob at h
  obtain ⟨placed, hplaced, h⟩ := bind_ok.mp h
  cases placed with
  | none => cases pure_ok.mp h
  | some placed =>
      obtain ⟨placed, claimed⟩ := placed
      obtain ⟨adjusted, hadjusted, h⟩ := bind_ok.mp h
      obtain ⟨gaps, hgaps, h⟩ := bind_ok.mp h
      obtain ⟨slots', hslots', h⟩ := bind_ok.mp h
      obtain rfl := Option.some.inj (pure_ok.mp h)
      exact ⟨placed, adjusted, claimed, hplaced, hadjusted, rfl, hgaps, hslots'⟩

/-- `update_job` on a job that shares its nodes. -/
theorem updateJob_shared (hshared : job.jinfo.isExclusive = false) :
    updateJob conf cluster values limits slots job =
      updateSharedJob conf cluster values limits slots job := by
  unfold updateJob
  rw [hshared]
  exact if_neg Bool.false_ne_true

/-- **What `update_job` can do with a job it places.** -/
theorem updateJob_cases (h : updateJob conf cluster values limits slots job = .ok (some update)) :
    (job.jinfo.isExclusive = true ∧ ∃ placed adjusted claimed,
      ExclusiveCall conf cluster values limits slots claimed job placed adjusted update) ∨
    (job.jinfo.isExclusive = false ∧
      ∃ placed, SharedCall conf cluster values limits slots job placed update) := by
  unfold updateJob at h
  split at h
  · next hexclusive => exact Or.inl ⟨hexclusive, updateExclusiveJob_call h⟩
  · next hshared =>
      exact Or.inr ⟨Bool.eq_false_of_not_eq_true hshared, updateSharedJob_call h⟩

end Calls

/-! ## What planning one job leaves -/

/-- The job `job'` is `job` with a place in the plan: the request is the same, the
CPUs are slots in service in order of time, and if the job uses whole chunks only,
it starts when all its CPUs are free. -/
structure SharedPlacement (slots : List FirstFreeSlot) (job job' : PlanJob) : Prop where
  ptr_eq : job'.ptr = job.ptr
  jinfo_eq : job'.jinfo = job.jinfo
  estimatedProcessing_eq : job'.estimatedProcessing = job.estimatedProcessing
  usage_eq : job'.usage = job.usage
  reqPpn_eq : job'.reqPpn = job.reqPpn
  reqNumNodes_eq : job'.reqNumNodes = job.reqNumNodes
  length_eq : job'.cpuIndexes.length = job'.usage
  chosen_free : ∀ c ∈ job'.cpuIndexes, slotTime slots c ≠ -1
  byTime : ByTime (slotTime slots) job'.cpuIndexes
  completion : job'.completionTime = job'.startTime + job'.estimatedProcessing
  start_latest : job'.usage ≤ job'.reqPpn * job'.reqNumNodes →
    ∀ c ∈ job'.cpuIndexes, slotTime slots c ≤ job'.startTime

/-- A later start is a placement as well. -/
theorem SharedPlacement.delayed {slots : List FirstFreeSlot} {job job₁ job₂ : PlanJob}
    (h : SharedPlacement slots job job₁) (hdelay : job₁.DelayedTo job₂) :
    SharedPlacement slots job job₂ := by
  rcases hdelay with rfl | ⟨t, ht, rfl⟩
  · exact h
  · refine { h with completion := rfl, start_latest := ?_ }
    intro husage c hc
    exact (h.start_latest husage c hc).trans ht.le

/-- The choice does not change the number of nodes. -/
theorem placeShared_reqNumNodes {cluster : PlanCluster} {job placed : PlanJob}
    {slots : List FirstFreeSlot} (h : placeShared cluster job slots = .ok (some placed)) :
    placed.reqNumNodes = job.reqNumNodes := by
  obtain ⟨avail, sel, -, -, rfl⟩ := placeShared_ok h
  rfl

/-- The CPUs chosen for a job are a placement, when a CPU was remembered for each of
its nodes. -/
theorem placeShared_placement {cluster : PlanCluster} {job placed : PlanJob}
    {slots : List FirstFreeSlot} (h : placeShared cluster job slots = .ok (some placed))
    (hlatest : job.reqNumNodes ≤ placed.latestNcpuIndex.length) :
    SharedPlacement slots job placed := by
  obtain ⟨avail, sel, havail, hselected, rfl⟩ := placeShared_ok h
  obtain ⟨hinv, hlength⟩ :=
    selectCpus_inv _ (initial_inv havail _) (Nat.zero_le _) hselected
  have hnodes : sel.planNumNodes = job.reqNumNodes := by
    have := hinv.nodes_le
    have := hinv.latest_length
    dsimp only at hlatest
    omega
  have hpos : 0 < sel.planNumNodes := by
    rw [hnodes]
    exact job.reqNumNodes_pos
  refine ⟨rfl, rfl, rfl, rfl, rfl, rfl, hlength, hinv.chosen_free, hinv.byTime,
    hinv.completion hpos, ?_⟩
  intro husage
  refine hinv.start_latest hpos ?_
  have hchunks := hinv.chunks_le
  rw [hnodes, Nat.mul_comm] at hchunks ⊢
  exact le_antisymm (hlength.le.trans husage) hchunks

/-- The parts of a call of `update_job` that placed a job which shares its nodes. -/
theorem updateSharedJob_parts {conf : LimitsForClusters} {cluster : PlanCluster}
    {values : LimitsValues} {limits : List PlanLimit} {slots : List FirstFreeSlot}
    {job : PlanJob} {update : JobUpdate} (hinc : Increasing PlanLimit.timestamp limits)
    (h : updateSharedJob conf cluster values limits slots job = .ok (some update)) :
    ∃ placed, placeShared cluster job slots = .ok (some placed) ∧
      job.reqNumNodes ≤ placed.latestNcpuIndex.length ∧
      adjustJobStarttimeAccordingToLimits conf cluster values limits placed = .ok update.job ∧
      placed.DelayedTo update.job ∧
      gapsOfJob update.job slots update.job.cpuIndexes (-1) = .ok update.gaps ∧
      firstFreeSlotsUpdate cluster update.job slots = .ok update.slots := by
  obtain ⟨placed, hplaced, hadjusted, hgaps, hslots⟩ := updateSharedJob_call h
  have hdelay := adjustJob_delayed hinc hadjusted
  refine ⟨placed, hplaced, ?_, hadjusted, hdelay, hgaps, hslots⟩
  -- the update of the slots reads one CPU for each node
  have hnodes := reqNumNodes_le_of_firstFreeSlotsUpdate hslots
  have hsame : update.job.latestNcpuIndex = placed.latestNcpuIndex ∧
      update.job.reqNumNodes = placed.reqNumNodes := by
    rcases hdelay with heq | ⟨t, -, heq⟩ <;> rw [heq] <;> exact ⟨rfl, rfl⟩
  have hreq : placed.reqNumNodes = job.reqNumNodes := placeShared_reqNumNodes hplaced
  rw [← hreq, ← hsame.2, ← hsame.1]
  exact hnodes

/-- What `update_job` leaves of a job that shares its nodes: a placement, the gaps
in front of it, and the slots with its CPUs in use until its completion. -/
theorem updateSharedJob_spec {conf : LimitsForClusters} {cluster : PlanCluster}
    {values : LimitsValues} {limits : List PlanLimit} {slots : List FirstFreeSlot}
    {job : PlanJob} {update : JobUpdate} (hinc : Increasing PlanLimit.timestamp limits)
    (h : updateSharedJob conf cluster values limits slots job = .ok (some update)) :
    SharedPlacement slots job update.job ∧
      gapsOfJob update.job slots update.job.cpuIndexes (-1) = .ok update.gaps ∧
      Occupied (fun c => update.job.cpuIndexes.contains c) update.job.completionTime
        slots update.slots := by
  obtain ⟨placed, hplaced, hlatest, -, hdelay, hgaps, hslots⟩ := updateSharedJob_parts hinc h
  exact ⟨(placeShared_placement hplaced hlatest).delayed hdelay, hgaps,
    firstFreeSlotsUpdate_occupied hslots⟩

/-! ## What planning an exclusive job leaves -/

/-- The CPUs of an exclusive job are in order of time. -/
theorem cpusOfNodes_byTime (nodes : List (Option ℕ)) (slots : List FirstFreeSlot) :
    ByTime (slotTime slots) (cpusOfNodes nodes slots) := by
  unfold cpusOfNodes
  refine List.foldlRecOn (motive := ByTime (slotTime slots)) _ _ List.Pairwise.nil ?_
  intro cpus hcpus c _
  refine List.foldlRecOn (motive := ByTime (slotTime slots)) _ _ hcpus ?_
  intro cpus' hcpus' node _
  split
  · exact insertByTime_byTime c hcpus'
  · exact hcpus'

/-- The CPUs of an exclusive job are on its nodes. -/
theorem slotNode_mem_of_mem_cpusOfNodes {nodes : List (Option ℕ)} {slots : List FirstFreeSlot}
    {c : ℕ} (hc : c ∈ cpusOfNodes nodes slots) : c < slots.length ∧ slotNode slots c ∈ nodes := by
  have hall : ∀ d ∈ cpusOfNodes nodes slots, d < slots.length ∧ slotNode slots d ∈ nodes := by
    unfold cpusOfNodes
    refine List.foldlRecOn
      (motive := fun cpus : List ℕ => ∀ d ∈ cpus, d < slots.length ∧ slotNode slots d ∈ nodes)
      _ _ (by simp) ?_
    intro cpus hcpus b hb
    refine List.foldlRecOn
      (motive := fun cpus : List ℕ => ∀ d ∈ cpus, d < slots.length ∧ slotNode slots d ∈ nodes)
      _ _ hcpus ?_
    intro cpus' hcpus' node hnode
    split
    · next hon =>
        intro d hd
        rcases List.mem_cons.mp ((perm_insertByTime _ _ _).mem_iff.mp hd) with rfl | hd
        · exact ⟨List.mem_range.mp hb, hon ▸ hnode⟩
        · exact hcpus' d hd
    · exact hcpus'
  exact hall c hc

/-- To claim nodes keeps the node of every CPU. -/
theorem slotNode_claimNodes (nodes : List (Option ℕ)) (startTime : ℤ)
    (slots : List FirstFreeSlot) (c : ℕ) :
    slotNode (claimNodes nodes startTime slots) c = slotNode slots c := by
  unfold slotNode claimNodes
  rw [List.getElem?_map, Option.map_map]
  congr 1
  funext slot
  simp only [Function.comp]
  split <;> rfl

/-- To claim nodes only moves times down. -/
theorem slotTime_claimNodes_le (nodes : List (Option ℕ)) (startTime : ℤ)
    (slots : List FirstFreeSlot) (c : ℕ) :
    slotTime (claimNodes nodes startTime slots) c ≤ slotTime slots c := by
  unfold slotTime claimNodes
  rw [List.getElem?_map]
  cases slots[c]? with
  | none => exact le_rfl
  | some slot =>
      simp only [Option.map_some, Option.getD_some]
      split
      · next hclaimed => exact hclaimed.2.le
      · exact le_rfl

/-- No CPU of a claimed node is free later than the job starts. -/
theorem slotTime_claimNodes_le_start {nodes : List (Option ℕ)} {startTime : ℤ}
    {slots : List FirstFreeSlot} {c : ℕ} (hlen : c < slots.length)
    (hc : slotNode slots c ∈ nodes) :
    slotTime (claimNodes nodes startTime slots) c ≤ startTime := by
  unfold slotNode at hc
  unfold slotTime claimNodes
  rw [List.getElem?_map]
  rw [List.getElem?_eq_getElem hlen] at hc ⊢
  simp only [Option.map_some, Option.getD_some] at hc ⊢
  split
  · exact le_rfl
  · next hnot =>
      rw [List.contains_iff_mem] at hnot
      by_contra hlt
      exact hnot ⟨hc, not_le.mp hlt⟩

/-- The nodes of an exclusive job and the slots it claims. -/
theorem placeExclusive_spec {cluster : PlanCluster} {job placed : PlanJob}
    {slots claimed : List FirstFreeSlot}
    (h : placeExclusive cluster job slots = .ok (some (placed, claimed))) :
    claimed = claimNodes placed.ninfoArr placed.startTime slots ∧
      placed.completionTime = placed.startTime + placed.estimatedProcessing ∧
      placed.ptr = job.ptr ∧ placed.jinfo = job.jinfo ∧
      placed.estimatedProcessing = job.estimatedProcessing := by
  obtain ⟨avail, nodes, startTime, -, -, -, rfl, rfl⟩ := placeExclusive_ok h
  exact ⟨rfl, rfl, rfl, rfl, rfl⟩

/-! ## What planning any job leaves -/

/-- What `update_job` leaves of a job, with the table `table` it made the gaps from:
`slots`, or for an exclusive job the slots it claimed. -/
structure JobPlaced (slots table : List FirstFreeSlot) (job : PlanJob) (update : JobUpdate) :
    Prop where
  ptr_eq : update.job.ptr = job.ptr
  jinfo_eq : update.job.jinfo = job.jinfo
  estimatedProcessing_eq : update.job.estimatedProcessing = job.estimatedProcessing
  completion : update.job.completionTime = update.job.startTime + update.job.estimatedProcessing
  table_length : table.length = slots.length
  slots_length : update.slots.length = table.length
  table_le : ∀ c, slotTime table c ≤ slotTime slots c
  byTime : ByTime (slotTime table) update.job.cpuIndexes
  start_latest : (job.jinfo.isExclusive = true ∨ job.usage ≤ job.reqPpn * job.reqNumNodes) →
    ∀ c ∈ update.job.cpuIndexes, slotTime table c ≤ update.job.startTime
  gaps_ok : gapsOfJob update.job table update.job.cpuIndexes (-1) = .ok update.gaps
  slots_time : ∀ c, slotTime update.slots c = update.job.completionTime ∨
    slotTime update.slots c = slotTime table c

/-- Occupying slots sets a time or keeps it. -/
theorem Occupied.time_cases {own : ℕ → Bool} {t : ℤ} {slots slots' : List FirstFreeSlot}
    (h : Occupied own t slots slots') (c : ℕ) :
    slotTime slots' c = t ∨ slotTime slots' c = slotTime slots c := by
  rw [h.time_eq c]
  split
  · exact Or.inl rfl
  · exact Or.inr rfl

/-- An exclusive job is placed on the slots it claims. -/
theorem updateExclusiveJob_placed {conf : LimitsForClusters} {cluster : PlanCluster}
    {values : LimitsValues} {limits : List PlanLimit} {slots : List FirstFreeSlot}
    {job : PlanJob} {update : JobUpdate} (hlimits : LimitsInv limits)
    (h : updateExclusiveJob conf cluster values limits slots job = .ok (some update)) :
    ∃ table, JobPlaced slots table job update := by
  obtain ⟨placed, adjusted, claimed, hplaced, hadjusted, hjob, hgaps, hslots⟩ :=
    updateExclusiveJob_call h
  obtain ⟨rfl, hcompletion, hptr, hjinfo, hest⟩ := placeExclusive_spec hplaced
  have hoccupied := firstFreeSlotsUpdateExclusive_occupied hslots
  have hstart : ∀ c ∈ cpusOfNodes placed.ninfoArr
      (claimNodes placed.ninfoArr placed.startTime slots),
      slotTime (claimNodes placed.ninfoArr placed.startTime slots) c ≤ placed.startTime := by
    intro c hc
    obtain ⟨hlen, hnode⟩ := slotNode_mem_of_mem_cpusOfNodes hc
    rw [slotNode_claimNodes] at hnode
    rw [claimNodes, List.length_map] at hlen
    exact slotTime_claimNodes_le_start hlen hnode
  obtain ⟨job', gaps, slots'⟩ := update
  dsimp only at hjob
  subst hjob
  rcases adjustJob_delayed hlimits.increasing hadjusted with rfl | ⟨t, ht, rfl⟩
  · exact ⟨_, hptr, hjinfo, hest, hcompletion, List.length_map _, hoccupied.length_eq,
      slotTime_claimNodes_le _ _ _, cpusOfNodes_byTime _ _, fun _ => hstart, hgaps,
      hoccupied.time_cases⟩
  · exact ⟨_, hptr, hjinfo, hest, rfl, List.length_map _, hoccupied.length_eq,
      slotTime_claimNodes_le _ _ _, cpusOfNodes_byTime _ _,
      fun _ c hc => (hstart c hc).trans ht.le, hgaps, hoccupied.time_cases⟩

/-- Every job `update_job` returns for is placed. -/
theorem updateJob_placed {conf : LimitsForClusters} {cluster : PlanCluster}
    {values : LimitsValues} {limits : List PlanLimit} {slots : List FirstFreeSlot}
    {job : PlanJob} {update : JobUpdate} (hlimits : LimitsInv limits)
    (h : updateJob conf cluster values limits slots job = .ok (some update)) :
    ∃ table, JobPlaced slots table job update := by
  unfold updateJob at h
  split at h
  · exact updateExclusiveJob_placed hlimits h
  · next hshared =>
      obtain ⟨hplace, hgaps, hslots⟩ := updateSharedJob_spec hlimits.increasing h
      refine ⟨slots, hplace.ptr_eq, hplace.jinfo_eq, hplace.estimatedProcessing_eq,
        hplace.completion, rfl, hslots.length_eq, fun _ => le_rfl, hplace.byTime, ?_, hgaps,
        hslots.time_cases⟩
      intro hwhole
      refine hplace.start_latest ?_
      rw [hplace.usage_eq, hplace.reqPpn_eq, hplace.reqNumNodes_eq]
      exact hwhole.resolve_left hshared

/-! ## What moving preferred jobs leaves -/

/-- A property of jobs that does not depend on the priority survives the first
loop. -/
theorem movePreferred_forall {P : PlanJob → Prop} {time : ℤ}
    (hP : ∀ job priority, P job → P (job.setPriority priority)) (fuel : ℕ) :
    ∀ {front rest jobs : List PlanJob}, (∀ job ∈ front ++ rest, P job) →
      movePreferred time fuel front rest = .ok jobs → ∀ job ∈ jobs, P job := by
  induction fuel with
  | zero =>
      intro front rest jobs _ h
      rw [movePreferred] at h
      cases h
  | succ fuel ih =>
      intro front rest jobs hall h
      rw [movePreferred] at h
      have hsplit :=
        List.takeWhile_append_dropWhile (p := fun job => !job.preferred time) (l := rest)
      split at h
      · cases h
        exact hall
      · next job behind hdrop =>
          rw [hdrop] at hsplit
          rw [← hsplit] at hall
          refine ih ?_ h
          intro j hj
          rcases List.mem_append.mp hj with hj | hj
          · rw [List.mem_singleton.mp hj]
            refine hP job MOVED_PRIORITY (hall job ?_)
            simp
          · refine hall j ?_
            simp only [List.mem_append, List.mem_cons] at hj ⊢
            tauto

/-- The first loop neither drops nor adds a job, and changes nothing but priorities:
what does not depend on them is rearranged. -/
theorem movePreferred_perm {β : Type} {f : PlanJob → β} {time : ℤ}
    (hf : ∀ job priority, f (job.setPriority priority) = f job) (fuel : ℕ) :
    ∀ {front rest jobs : List PlanJob}, movePreferred time fuel front rest = .ok jobs →
      (jobs.map f).Perm ((front ++ rest).map f) := by
  induction fuel with
  | zero =>
      intro front rest jobs h
      rw [movePreferred] at h
      cases h
  | succ fuel ih =>
      intro front rest jobs h
      rw [movePreferred] at h
      have hsplit :=
        List.takeWhile_append_dropWhile (p := fun job => !job.preferred time) (l := rest)
      split at h
      · cases h
        exact List.Perm.refl _
      · next job behind hdrop =>
          rw [hdrop] at hsplit
          refine (ih h).trans ?_
          conv_rhs => rw [← hsplit]
          simp only [List.map_append, List.map_cons, List.singleton_append, ← List.append_assoc, hf]
          exact List.perm_middle.symm

/-- The jobs the first loop has still to move. -/
def preferredCount (time : ℤ) (jobs : List PlanJob) : ℕ :=
  jobs.countP (PlanJob.preferred time)

/-- A moved job is not moved again. -/
theorem preferred_setPriority (time : ℤ) (job : PlanJob) :
    (job.setPriority MOVED_PRIORITY).preferred time = false := by
  unfold PlanJob.preferred PlanJob.setPriority
  simp

/-- The first preferred job, where the loop stops looking. -/
theorem dropWhile_preferred {time : ℤ} {rest behind : List PlanJob} {job : PlanJob}
    (h : rest.dropWhile (fun job => !job.preferred time) = job :: behind) :
    rest.takeWhile (fun job => !job.preferred time) ++ job :: behind = rest ∧
      job.preferred time = true := by
  have hhead := List.head?_dropWhile_not (fun job => !job.preferred time) rest
  rw [h] at hhead
  refine ⟨?_, by simpa using hhead⟩
  rw [← h]
  exact List.takeWhile_append_dropWhile

/-- Every move leaves one job less to move, so the budget of the first loop is
enough. -/
theorem movePreferred_returns {time : ℤ} (fuel : ℕ) :
    ∀ {front rest : List PlanJob}, preferredCount time (front ++ rest) < fuel →
      ∃ jobs, movePreferred time fuel front rest = .ok jobs := by
  induction fuel with
  | zero =>
      intro front rest hfuel
      exact absurd hfuel (Nat.not_lt_zero _)
  | succ fuel ih =>
      intro front rest hfuel
      rw [movePreferred]
      split
      · exact ⟨_, rfl⟩
      · next job behind hdrop =>
          obtain ⟨hsplit, hjob⟩ := dropWhile_preferred hdrop
          refine ih ?_
          rw [← hsplit] at hfuel
          unfold preferredCount at hfuel ⊢
          simp only [List.countP_append, List.countP_cons, List.countP_nil, hjob,
            preferred_setPriority, if_true, Bool.false_eq_true, if_false] at hfuel ⊢
          omega

/-! ## Steps and runs of the second loop -/

/-- Passing a job changes at most its priority. -/
theorem afterMove_eq (job : PlanJob) : job.afterMove = job ∨
    ∃ priority, job.afterMove = job.setPriority priority := by
  unfold PlanJob.afterMove
  split
  · exact Or.inr ⟨PREFERRED_PRIORITY, rfl⟩
  · exact Or.inl rfl

/-- A property that does not depend on the priority holds of the passed job. -/
theorem afterMove_of {P : PlanJob → Prop}
    (hP : ∀ job priority, P job → P (job.setPriority priority)) {job : PlanJob} (h : P job) :
    P job.afterMove := by
  rcases afterMove_eq job with heq | ⟨priority, heq⟩ <;> rw [heq]
  · exact h
  · exact hP job priority h

variable {conf : LimitsForClusters} {cluster : PlanCluster} {values : LimitsValues}

/-- The job `job` was planned as `update.job` between the states `st` and `st'`. -/
structure Planned (conf : LimitsForClusters) (cluster : PlanCluster) (values : LimitsValues)
    (rest : List PlanJob) (st : Planning) (job : PlanJob) (update : JobUpdate) (st' : Planning) :
    Prop where
  update_ok : updateJob conf cluster values st.limits st.slots job = .ok (some update)
  limits_ok : addJobToLimits conf cluster st.limits update.job = .ok st'.limits
  gaps_ok : update.gaps.foldlM (insertNewGap cluster (st.jobList update.job rest)) st.gaps
    = .ok st'.gaps
  slots_eq : st'.slots = update.slots
  done_eq : st'.done = st.done ++ [update.job]
  maxCompletionTime_eq : st'.maxCompletionTime = max st.maxCompletionTime update.job.completionTime

/-- The job `job` was passed as it is between the states `st` and `st'`. -/
structure Passed (conf : LimitsForClusters) (cluster : PlanCluster) (st : Planning)
    (job : PlanJob) (st' : Planning) : Prop where
  limits_ok : st'.limits = st.limits ∨ addJobToLimits conf cluster st.limits job = .ok st'.limits
  gaps_eq : st'.gaps = st.gaps
  slots_eq : st'.slots = st.slots
  done_eq : st'.done = st.done ++ [job]
  maxCompletionTime_eq : st'.maxCompletionTime = max st.maxCompletionTime job.completionTime

/-- A pass of the second loop that does not fail plans a queued job and passes any
other. -/
theorem planJob_cases {rest : List PlanJob} {st st' : Planning} {job : PlanJob}
    (h : planJob conf cluster values rest st job = .ok (some st')) :
    (job.afterMove.isQueued = true ∧
      ∃ update, Planned conf cluster values rest st job.afterMove update st') ∨
    (job.afterMove.isQueued = false ∧ Passed conf cluster st job.afterMove st') := by
  unfold planJob at h
  dsimp only at h
  split at h
  · next hqueued =>
      unfold planQueued at h
      obtain ⟨updated, hupdated, h⟩ := bind_ok.mp h
      cases updated with
      | none => cases pure_ok.mp h
      | some update =>
          obtain ⟨limits, hlimits, h⟩ := bind_ok.mp h
          obtain ⟨gaps, hgaps, h⟩ := bind_ok.mp h
          obtain rfl := Option.some.inj (pure_ok.mp h)
          exact Or.inl ⟨hqueued, update, hupdated, hlimits, hgaps, rfl, rfl, rfl⟩
  · next hqueued =>
      rw [Bool.not_eq_true] at hqueued
      split at h
      · obtain ⟨limits, hlimits, h⟩ := bind_ok.mp h
        obtain rfl := Option.some.inj (pure_ok.mp h)
        exact Or.inr ⟨hqueued, Or.inr hlimits, rfl, rfl, rfl, rfl⟩
      · obtain rfl := Option.some.inj (pure_ok.mp h)
        exact Or.inr ⟨hqueued, Or.inl rfl, rfl, rfl, rfl, rfl⟩

/-- The second loop comes to `job` in the state `st`, with the jobs `rest` behind it. -/
inductive ComesTo (conf : LimitsForClusters) (cluster : PlanCluster) (values : LimitsValues) :
    List PlanJob → Planning → PlanJob → List PlanJob → Planning → Prop
  | here (job : PlanJob) (rest : List PlanJob) (st : Planning) :
      ComesTo conf cluster values (job :: rest) st job rest st
  | behind {first job : PlanJob} {jobs rest : List PlanJob} {st st₁ st' : Planning}
      (hfirst : planJob conf cluster values jobs st first = .ok (some st₁))
      (hcomes : ComesTo conf cluster values jobs st₁ job rest st') :
      ComesTo conf cluster values (first :: jobs) st job rest st'

/-- The second loop comes to jobs of its list. -/
theorem ComesTo.mem {jobs rest : List PlanJob} {job : PlanJob} {st st' : Planning}
    (h : ComesTo conf cluster values jobs st job rest st') : job ∈ jobs := by
  induction h with
  | here job rest st => exact List.mem_cons_self
  | behind _ _ ih => exact List.mem_cons_of_mem _ ih

/-- An invariant that the second loop keeps wherever it comes to a job holds at its end. -/
theorem planJobs_invariant_along {Inv : Planning → Prop} (jobs : List PlanJob) :
    ∀ {st st' : Planning},
      (∀ job rest s update s', job ∈ jobs → ComesTo conf cluster values jobs st job rest s →
        job.afterMove.isQueued = true → Inv s →
        Planned conf cluster values rest s job.afterMove update s' → Inv s') →
      (∀ job s s', job ∈ jobs → job.afterMove.isQueued = false → Inv s →
        Passed conf cluster s job.afterMove s' → Inv s') →
      Inv st → planJobs conf cluster values jobs st = .ok (.complete st') → Inv st' := by
  induction jobs with
  | nil =>
      intro st st' _ _ hinv h
      rw [planJobs] at h
      cases h
      exact hinv
  | cons job rest ih =>
      intro st st' hplanned hpassed hinv h
      rw [planJobs] at h
      obtain ⟨next, hnext, h⟩ := bind_ok.mp h
      cases next with
      | none => cases pure_ok.mp h
      | some st₁ =>
          refine ih ?_ ?_ ?_ h
          · intro job' rest' s update s' hmem hcomes
            exact hplanned job' rest' s update s' (List.mem_cons_of_mem _ hmem)
              (ComesTo.behind hnext hcomes)
          · intro job' s s' hmem
            exact hpassed job' s s' (List.mem_cons_of_mem _ hmem)
          · rcases planJob_cases hnext with ⟨hqueued, update, hplan⟩ | ⟨hqueued, hpass⟩
            · exact hplanned job rest st update st₁ List.mem_cons_self (ComesTo.here job rest st)
                hqueued hinv hplan
            · exact hpassed job st st₁ List.mem_cons_self hqueued hinv hpass

/-- An invariant that planning and passing the listed jobs keep holds at the end of
the second loop. -/
theorem planJobs_invariant {Inv : Planning → Prop} {good : PlanJob → Prop}
    (hgood : ∀ job priority, good job → good (job.setPriority priority))
    (hplanned : ∀ rest st job update st', good job → job.isQueued = true → Inv st →
      Planned conf cluster values rest st job update st' → Inv st')
    (hpassed : ∀ st job st', good job → job.isQueued = false → Inv st →
      Passed conf cluster st job st' → Inv st') (jobs : List PlanJob)
    {st st' : Planning} (hjobs : ∀ job ∈ jobs, good job) (hinv : Inv st)
    (h : planJobs conf cluster values jobs st = .ok (.complete st')) : Inv st' := by
  refine planJobs_invariant_along jobs ?_ ?_ hinv h
  · intro job rest s update s' hmem _ hqueued hs hstep
    exact hplanned rest s _ update s' (afterMove_of hgood (hjobs job hmem)) hqueued hs hstep
  · intro job s s' hmem hqueued hs hstep
    exact hpassed s _ s' (afterMove_of hgood (hjobs job hmem)) hqueued hs hstep

/-- `update_sched` comes to `job` in the state `st`. -/
def Turn (conf : LimitsForClusters) (time : ℤ) (values : LimitsValues) (plan : ClusterPlan)
    (job : PlanJob) (rest : List PlanJob) (st : Planning) : Prop :=
  ∃ slots values' jobs, initialSlots plan.cluster time = .ok slots ∧
    updateLimitsValues conf { plan.cluster with numRunningCpus := runningCpus plan.cluster } values
      = .ok values' ∧
    movePreferred time (plan.jobs.length + 1) [] plan.jobs = .ok jobs ∧
    ComesTo conf { plan.cluster with numRunningCpus := runningCpus plan.cluster } values' jobs
      ⟨[], slots, [], [], time, 0⟩ job rest st

/-- An invariant that planning and passing jobs keep holds whenever the loop comes to a
job. -/
theorem ComesTo.invariant {Inv : Planning → Prop}
    (hplanned : ∀ rest st job update st', Inv st →
      Planned conf cluster values rest st job update st' → Inv st')
    (hpassed : ∀ st job st', Inv st → Passed conf cluster st job st' → Inv st')
    {jobs rest : List PlanJob} {job : PlanJob} {st st' : Planning}
    (h : ComesTo conf cluster values jobs st job rest st') (hinv : Inv st) : Inv st' := by
  induction h with
  | here job rest st => exact hinv
  | behind hfirst _ ih =>
      refine ih ?_
      rcases planJob_cases hfirst with ⟨-, update, hplan⟩ | ⟨-, hpass⟩
      · exact hplanned _ _ _ _ _ hinv hplan
      · exact hpassed _ _ _ hinv hpass

/-- The test holds wherever the second loop comes to a job. -/
def everyTurn (conf : LimitsForClusters) (cluster : PlanCluster) (values : LimitsValues)
    (test : Planning → PlanJob → Bool) : List PlanJob → Planning → Bool
  | [], _ => true
  | job :: rest, st =>
      test st job && match planJob conf cluster values rest st job with
        | .ok (some st') => everyTurn conf cluster values test rest st'
        | _ => true

/-- It is made in every state the loop comes to. -/
theorem ComesTo.tested {test : Planning → PlanJob → Bool} {jobs rest : List PlanJob}
    {job : PlanJob} {st s : Planning} (hcomes : ComesTo conf cluster values jobs st job rest s)
    (h : everyTurn conf cluster values test jobs st = true) : test s job = true := by
  induction hcomes with
  | here job rest st =>
      rw [everyTurn, Bool.and_eq_true] at h
      exact h.1
  | behind hfirst _ ih =>
      rw [everyTurn, hfirst, Bool.and_eq_true] at h
      exact ih h.2

/-- Whether a test holds at every turn of `update_sched`. -/
def testTurns (conf : LimitsForClusters) (time : ℤ) (values : LimitsValues) (plan : ClusterPlan)
    (test : Planning → PlanJob → Bool) : Run Bool := do
  let slots ← initialSlots plan.cluster time
  let cluster := { plan.cluster with numRunningCpus := runningCpus plan.cluster }
  let values ← updateLimitsValues conf cluster values
  let jobs ← movePreferred time (plan.jobs.length + 1) [] plan.jobs
  return everyTurn conf cluster values test jobs ⟨[], slots, [], [], time, 0⟩

/-- Then it does. -/
theorem Turn.tested {time : ℤ} {plan : ClusterPlan} {test : Planning → PlanJob → Bool}
    {job : PlanJob} {rest : List PlanJob} {st : Planning}
    (hturn : Turn conf time values plan job rest st)
    (h : testTurns conf time values plan test = .ok true) : test st job = true := by
  obtain ⟨slots', values'', jobs', hslots', hvalues', hjobs', hcomes⟩ := hturn
  unfold testTurns at h
  obtain ⟨slots, hslots, h⟩ := bind_ok.mp h
  obtain ⟨values', hvalues, h⟩ := bind_ok.mp h
  obtain ⟨jobs, hjobs, h⟩ := bind_ok.mp h
  rw [hslots] at hslots'
  rw [hvalues] at hvalues'
  rw [hjobs] at hjobs'
  cases hslots'
  cases hvalues'
  cases hjobs'
  exact hcomes.tested (pure_ok.mp h)

/-- The gap list of a completed plan ends with the gap without end. -/
theorem closingGaps_eq {st : Planning} {gaps : List PlanGap}
    (h : closingGaps cluster st = .ok gaps) :
    ∃ front, gaps = front ++ [gapCreateLast st.maxCompletionTime cluster] := by
  unfold closingGaps at h
  dsimp only at h
  split at h
  · obtain ⟨front, -, h⟩ := bind_ok.mp h
    exact ⟨front, (pure_ok.mp h).symm⟩
  · obtain ⟨new, -, h⟩ := bind_ok.mp h
    obtain ⟨front, -, h⟩ := bind_ok.mp h
    exact ⟨front, (pure_ok.mp h).symm⟩

/-- The parts of a call of `update_sched` that returns 0. -/
structure CompleteRun (conf : LimitsForClusters) (time : ℤ) (values : LimitsValues)
    (plan : ClusterPlan) (result : SchedUpdate) (slots : List FirstFreeSlot)
    (values' : LimitsValues) (jobs : List PlanJob) (st : Planning) : Prop where
  slots_ok : initialSlots plan.cluster time = .ok slots
  values_ok : updateLimitsValues conf
    { plan.cluster with numRunningCpus := runningCpus plan.cluster } values = .ok values'
  moved_ok : movePreferred time (plan.jobs.length + 1) [] plan.jobs = .ok jobs
  planned_ok : planJobs conf { plan.cluster with numRunningCpus := runningCpus plan.cluster }
    values' jobs ⟨[], slots, [], [], time, 0⟩ = .ok (.complete st)
  closing_ok : closingGaps { plan.cluster with numRunningCpus := runningCpus plan.cluster } st
    = .ok result.plan.gaps
  jobs_eq : result.plan.jobs = st.done

/-- A call of `update_sched` that returns 0 has these parts. -/
theorem updateSched_run {time : ℤ} {plan : ClusterPlan} {result : SchedUpdate}
    (h : updateSched conf time values plan = .ok result) (hcode : result.code = 0) :
    ∃ slots values' jobs st, CompleteRun conf time values plan result slots values' jobs st := by
  unfold updateSched at h
  obtain ⟨slots, hslots, h⟩ := bind_ok.mp h
  obtain ⟨values', hvalues', h⟩ := bind_ok.mp h
  obtain ⟨jobs, hjobs, h⟩ := bind_ok.mp h
  obtain ⟨planned, hplanned, h⟩ := bind_ok.mp h
  cases planned with
  | failed st behind =>
      rw [← pure_ok.mp h] at hcode
      cases hcode
  | complete st =>
      obtain ⟨gaps, hgaps, h⟩ := bind_ok.mp h
      obtain rfl := pure_ok.mp h
      exact ⟨slots, values', jobs, st, hslots, hvalues', hjobs, hplanned, hgaps, rfl⟩

/-- A call of `update_sched` that returns 0 has planned all jobs of the list. -/
theorem updateSched_complete {time : ℤ} {plan : ClusterPlan} {result : SchedUpdate}
    (h : updateSched conf time values plan = .ok result) (hcode : result.code = 0) :
    ∃ slots values' jobs st gaps,
      initialSlots plan.cluster time = .ok slots ∧
      movePreferred time (plan.jobs.length + 1) [] plan.jobs = .ok jobs ∧
      planJobs conf { plan.cluster with numRunningCpus := runningCpus plan.cluster } values' jobs
        ⟨[], slots, [], [], time, 0⟩ = .ok (.complete st) ∧
      closingGaps { plan.cluster with numRunningCpus := runningCpus plan.cluster } st = .ok gaps ∧
      result.plan.jobs = st.done ∧ result.plan.gaps = gaps := by
  obtain ⟨slots, values', jobs, st, hrun⟩ := updateSched_run h hcode
  exact ⟨slots, values', jobs, st, _, hrun.slots_ok, hrun.moved_ok, hrun.planned_ok,
    hrun.closing_ok, hrun.jobs_eq, rfl⟩

/-! ## A small plan -/

/-- One class of limits for all walltimes up to two hours, which lets every user
have the whole cluster. -/
def oneClass : LimitsForClusters :=
  [("", ⟨[(0, ⟨[.finite 1], [.finite 1], [7200]⟩)], by decide⟩)]

/-- A node in service with all of its memory free. -/
def plainNode (name : String) (coresTotal : ℕ) (mem : ℤ) : NodeInfo where
  name := name
  coresTotal := coresTotal
  isDown := false
  isOffline := false
  isNotusable := false
  isUnknown := false
  isReserved := false
  isBusy := false
  availBefore := 0
  walltimeLimitMin := 0
  walltimeLimitMax := 0
  mem := some mem
  scratchLocal := some 0
  gpu := none
  jobsOnCpu := none

/-- A job that runs from `stime` on for `walltime` seconds on one CPU. -/
def runningJob (stime walltime : ℤ) : JobInfo :=
  { (default : JobInfo) with
    state := .running
    stime := stime
    resreq := [⟨"walltime", walltime⟩, ⟨"mem", 0⟩, ⟨"procs", 1⟩] }

/-- A queued job as `job_fillin` leaves it. -/
def queuedJob (ptr usage nodect : ℕ) (hnodect : 0 < nodect) (mem walltime : ℤ) : PlanJob :=
  PlanJob.filled ptr { (default : JobInfo) with state := .queued } usage nodect hnodect mem
    walltime 0 (-1)

end PlanSched
