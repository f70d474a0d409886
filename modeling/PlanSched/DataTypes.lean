/-
# Data model of the plan-based scheduler

The records the planner works on (`plan_data_types.h`, and the parts of
`JobInfo.h`, `NodeInfo.h` and `base/NodeState.h` the planner reads).

Conventions:

* a pointer to a node is the node's index in `clusters[k]->nodes`; an index past
  the end stands for a pointer that was never initialised;
* a `plan_job` carries its own address in `ptr`, and `following_job` of a gap is
  such an address;
* `time_t` and `sch_resource_t` are integers; where the code stores a `time_t`
  in an `int`, the conversion is written out (`toInt`);
* `plan_list`s are lists in list order;
* arrays of a `plan_job` are lists of their filled cells.

The counts requested by a job are positive: `job_fillin` divides by the number
of nodes and lifts a quotient below one to one, so it never hands out a job
without them.
-/
import PlanSched.CheckedRun

namespace PlanSched

open CheckedRun

/-! ## Machine integers -/

/-- The largest `long`, used as "never" for the end of the last gap. -/
def LONG_MAX : ℤ := 2 ^ 63 - 1

/-- The value of a 64-bit integer after it was stored in an `int`. -/
def toInt (x : ℤ) : ℤ := Int.bmod x (2 ^ 32)

/-- Values in the range of `int` survive the conversion. -/
theorem toInt_of_range {x : ℤ} (hlo : -(2 ^ 31) ≤ x) (hhi : x < 2 ^ 31) : toInt x = x := by
  unfold toInt
  rw [Int.bmod_eq_of_le] <;> omega

/-! ## Jobs as the server reports them -/

/-- `JobState` of `SchedulerCore_StateCount.h`. -/
inductive JobState : Type where
  | noState | queued | running | held | waiting | transit | exiting | suspended
  | completed | crossRun
  deriving DecidableEq, Repr, Inhabited

/-- One entry of the `resource_req` list of a job. -/
structure ResourceReq where
  name : String
  amount : ℤ
  deriving DecidableEq, Repr, Inhabited

/-- `find_resource_req`: the first request of that name, or `NULL`. -/
def findResourceReq (resreq : List ResourceReq) (name : String) : Option ResourceReq :=
  resreq.find? (fun r => r.name == name)

/-- The part of `JobInfo` the planner reads.  `isExclusive` is the answer of
`is_exclusive()` and `scratchLocal` the one of `job_get_scratch_local`; both only
read the job's nodespec.  `queue` is the address of the job's queue. -/
structure JobInfo where
  jobId : String
  account : String
  group : String
  queue : ℕ
  state : JobState
  priority : ℤ
  stime : ℤ
  isExclusive : Bool
  scratchLocal : ℤ
  resreq : List ResourceReq
  deriving DecidableEq, Repr, Inhabited

/-! ## Nodes and clusters -/

/-- The part of `node_info` the planner reads.  `mem`, `scratchLocal` and `gpu`
are the capacities of the resources of these names, if the node has them;
`walltimeLimitMin` and `walltimeLimitMax` are the values decoded from the node's
`min_` and `max_` properties; `jobsOnCpu` is `none` for a node without jobs. -/
structure NodeInfo where
  name : String
  coresTotal : ℕ
  isDown : Bool
  isOffline : Bool
  isNotusable : Bool
  isUnknown : Bool
  isReserved : Bool
  isBusy : Bool
  availBefore : ℤ
  walltimeLimitMin : ℤ
  walltimeLimitMax : ℤ
  mem : Option ℤ
  scratchLocal : Option ℤ
  gpu : Option ℤ
  jobsOnCpu : Option (List (Option JobInfo))
  deriving DecidableEq, Repr, Inhabited

/-- `get_node_mem`. -/
def getNodeMem (ninfo : NodeInfo) : ℤ := ninfo.mem.getD (-1)

/-- `get_node_scratch_local`. -/
def getNodeScratchLocal (ninfo : NodeInfo) : ℤ := ninfo.scratchLocal.getD (-1)

/-- The node test of the gap builders: `is_down() || is_offline() || is_notusable()`. -/
def NodeInfo.isOut (ninfo : NodeInfo) : Bool :=
  ninfo.isDown || ninfo.isOffline || ninfo.isNotusable

/-- The node test of `first_free_slots_initialize`, which also refuses unknown,
reserved and busy nodes. -/
def NodeInfo.isUnavailable (ninfo : NodeInfo) : Bool :=
  ninfo.isDown || ninfo.isOffline || ninfo.isNotusable || ninfo.isUnknown ||
    ninfo.isReserved || ninfo.isBusy

/-- `plan_cluster`. -/
structure PlanCluster where
  clusterName : String
  nodes : List NodeInfo
  numCpus : ℕ
  numRunningCpus : ℤ
  numQueuedJobs : ℕ
  deriving DecidableEq, Repr, Inhabited

/-- The number of cores of the cluster's nodes. -/
def PlanCluster.coresSum (cl : PlanCluster) : ℕ := (cl.nodes.map NodeInfo.coresTotal).sum

/-! ## The plan -/

/-- `plan_job`.  `cpuIndexes`, `ninfoArr` and `latestNcpuIndex` hold the
placement of the last `update_job`; in `fixedNnameArr`, one cell per requested
node, `none` is `NULL`. -/
structure PlanJob where
  ptr : ℕ
  jobId : ℤ
  jinfo : JobInfo
  startTime : ℤ
  completionTime : ℤ
  estimatedProcessing : ℤ
  availableAfter : ℤ
  usage : ℕ
  reqPpn : ℕ
  reqNumNodes : ℕ
  reqMem : ℤ
  reqScratchLocal : ℤ
  reqGpu : ℤ
  ninfoArr : List (Option ℕ)
  fixedNnameArr : List (Option String)
  cpuIndexes : List ℕ
  latestNcpuIndex : List ℕ
  accountId : ℤ
  reqPpn_pos : 0 < reqPpn
  reqNumNodes_pos : 0 < reqNumNodes
  deriving DecidableEq, Repr

/-- The job waits in its queue: `jinfo->state == JobQueued`. -/
def PlanJob.isQueued (job : PlanJob) : Bool := job.jinfo.state == .queued

/-- The job occupies its CPUs at time `t` of the plan. -/
def PlanJob.occupies (job : PlanJob) (t : ℤ) : Prop :=
  job.startTime ≤ t ∧ t < job.completionTime

instance (job : PlanJob) (t : ℤ) : Decidable (job.occupies t) :=
  inferInstanceAs (Decidable (_ ∧ _))

/-- `plan_gap_mem`. -/
structure PlanGapMem where
  ninfo : ℕ
  numCpus : ℕ
  availableMem : ℤ
  availableScratchLocal : ℤ
  deriving DecidableEq, Repr, Inhabited

/-- `plan_gap`; `num_nodes` is the length of `nodesMemory`. -/
structure PlanGap where
  startTime : ℤ
  endTime : ℤ
  duration : ℤ
  usage : ℤ
  nodesMemory : List PlanGapMem
  followingJob : Option ℕ
  deriving DecidableEq, Repr, Inhabited

/-- `first_free_slot`: one CPU of the cluster and the time it becomes free. -/
structure FirstFreeSlot where
  time : ℤ
  ninfo : ℕ
  releatedCpus : List ℕ
  mem : ℤ
  scratchLocal : ℤ
  availableMem : ℤ
  availableScratchLocal : ℤ
  memUsedPerCpu : ℤ
  scratchLocalUsedPerCpu : ℤ
  deriving DecidableEq, Repr, Inhabited

/-! ## Filling in a job -/

/-- `DEFAULT_WALLTIME`. -/
def DEFAULT_WALLTIME : ℤ := 86400

/-- `parse_head_number`: the digits after leading blanks, dashes skipped.  The number
is collected in an `int`. -/
def parseHeadNumber (text : String) : ℤ :=
  ((text.toList.dropWhile (· == ' ')).takeWhile (fun c => c.isDigit || c == '-')).foldl
    (fun cpu c => if c == '-' then cpu else toInt (toInt (cpu * 10) + ((c.toNat : ℤ) - 48))) 0

/-- The job `job_fillin` makes of the amounts it read from the request. -/
def PlanJob.filled (ptr : ℕ) (jinfo : JobInfo) (usage nodect : ℕ) (hnodect : 0 < nodect)
    (mem walltime gpu startTime : ℤ) : PlanJob where
  ptr := ptr
  jobId := parseHeadNumber jinfo.jobId
  jinfo := jinfo
  startTime := startTime
  completionTime := if startTime = -1 then -1 else startTime + walltime
  estimatedProcessing := walltime
  availableAfter := 0
  usage := usage
  reqPpn := max (usage / nodect) 1
  reqNumNodes := nodect
  reqMem := mem.tdiv nodect
  reqScratchLocal := jinfo.scratchLocal
  reqGpu := gpu
  ninfoArr := List.replicate nodect none
  fixedNnameArr := List.replicate nodect none
  cpuIndexes := []
  latestNcpuIndex := []
  accountId := -1
  reqPpn_pos := by omega
  reqNumNodes_pos := hnodect

/-- `job_fillin` on a fresh job.  The requests for `procs`, `nodect` and `mem` are
followed without a test, and the arrays need a positive `nodect`. -/
def jobFillin (ptr : ℕ) (assignedJob : JobInfo) (startTime : ℤ) : Run PlanJob := do
  let procs ← deref (findResourceReq assignedJob.resreq "procs")
  let nodect ← deref (findResourceReq assignedJob.resreq "nodect")
  let gpu := ((findResourceReq assignedJob.resreq "gpu").map ResourceReq.amount).getD 0
  let mem ← deref (findResourceReq assignedJob.resreq "mem")
  let walltime :=
    ((findResourceReq assignedJob.resreq "walltime").map ResourceReq.amount).getD DEFAULT_WALLTIME
  if nodect.amount = 0 then .error .divByZero
  else if h : 0 < nodect.amount.toNat ∧ 0 ≤ procs.amount then
    return PlanJob.filled ptr assignedJob procs.amount.toNat nodect.amount.toNat h.1
      mem.amount walltime gpu startTime
  else .error .badIndex

/-- A job comes from requests for CPUs, nodes and memory. -/
theorem jobFillin_ok {ptr : ℕ} {assignedJob : JobInfo} {startTime : ℤ} {job : PlanJob}
    (h : jobFillin ptr assignedJob startTime = .ok job) :
    ∃ (procs nodect : ℕ) (hnodect : 0 < nodect) (mem gpu : ℤ),
      job = PlanJob.filled ptr assignedJob procs nodect hnodect mem
        (((findResourceReq assignedJob.resreq "walltime").map ResourceReq.amount).getD
          DEFAULT_WALLTIME) gpu startTime := by
  unfold jobFillin at h
  obtain ⟨procs, -, h⟩ := bind_ok.mp h
  obtain ⟨nodect, -, h⟩ := bind_ok.mp h
  obtain ⟨mem, -, h⟩ := bind_ok.mp h
  dsimp only at h
  split at h
  · cases h
  · split at h
    · next hpos => exact ⟨_, _, hpos.1, _, _, (pure_ok.mp h).symm⟩
    · cases h

end PlanSched
