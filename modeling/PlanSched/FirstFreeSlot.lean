/-
# The table of first free slots

Models `plan_first_free_slot.cpp`: one slot per CPU of the cluster with the time
from which that CPU is free, and what is known about memory then.

* `first_free_slots_create` lays the slots of the nodes one after the other;
* `first_free_slots_initialize` marks the CPUs of nodes out of service with time
  `-1` and enters the expected ends of running jobs;
* `first_free_slots_update` moves the CPUs of a planned job to its completion.

The two update functions differ in how they find the CPUs of the job and the
slots of its nodes; the work on one node is shared (`updateNode`).
-/
import PlanSched.DataTypes

namespace PlanSched

open CheckedRun

/-! ## Creating the table -/

/-- The slots of node number `i`, which begin at index `counter`. -/
def createNode (i : ℕ) (node : NodeInfo) (counter : ℕ) : List FirstFreeSlot :=
  List.replicate node.coresTotal {
    time := -1
    ninfo := i
    releatedCpus := List.range' counter node.coresTotal
    mem := getNodeMem node
    scratchLocal := getNodeScratchLocal node
    availableMem := getNodeMem node
    availableScratchLocal := getNodeScratchLocal node
    memUsedPerCpu := 0
    scratchLocalUsedPerCpu := 0 }

/-- The loop of `first_free_slots_create` over the nodes from number `i` on.  Each
pass first touches the slot at `counter`, also for a node without cores. -/
def createNodes (numCpus : ℕ) : ℕ → List NodeInfo → List FirstFreeSlot → Run (List FirstFreeSlot)
  | _, [], slots => .ok slots
  | i, node :: nodes, slots =>
      if numCpus ≤ slots.length ∨ numCpus < slots.length + node.coresTotal then .error .badIndex
      else createNodes numCpus (i + 1) nodes (slots ++ createNode i node slots.length)

/-- A slot that no node was laid into: its time is `-1` and nothing else is set. -/
def unusedSlot (cluster : PlanCluster) : FirstFreeSlot where
  time := -1
  ninfo := cluster.nodes.length
  releatedCpus := []
  mem := 0
  scratchLocal := 0
  availableMem := 0
  availableScratchLocal := 0
  memUsedPerCpu := 0
  scratchLocalUsedPerCpu := 0

/-- `first_free_slots_create`. -/
def firstFreeSlotsCreate (cluster : PlanCluster) : Run (List FirstFreeSlot) := do
  let slots ← createNodes cluster.numCpus 0 cluster.nodes []
  return slots ++ List.replicate (cluster.numCpus - slots.length) (unusedSlot cluster)

/-! ## Initial times -/

/-- The slot of a CPU that is free, or out of service for time `-1`. -/
def FirstFreeSlot.idle (slot : FirstFreeSlot) (time : ℤ) : FirstFreeSlot :=
  { slot with time := time, memUsedPerCpu := 0, scratchLocalUsedPerCpu := 0 }

/-- The slot of a CPU with a running job: free when the job is expected to end,
and not before the next second.  The number of CPUs is read into an `int`. -/
def FirstFreeSlot.busy (slot : FirstFreeSlot) (jinfo : JobInfo) (time : ℤ) :
    Run FirstFreeSlot := do
  let walltime ← deref (findResourceReq jinfo.resreq "walltime")
  let expectedEnd := jinfo.stime + walltime.amount
  let mem ← deref (findResourceReq jinfo.resreq "mem")
  let procs ← deref (findResourceReq jinfo.resreq "procs")
  let memPerCpu ← cdiv mem.amount (toInt procs.amount)
  let scratchPerCpu ← cdiv jinfo.scratchLocal (toInt procs.amount)
  return { slot with
    time := if expectedEnd ≤ time then time + 1 else expectedEnd
    memUsedPerCpu := memPerCpu
    scratchLocalUsedPerCpu := scratchPerCpu }

/-- One CPU of a node that has jobs. -/
def initializeCpu (jobsOnCpu : List (Option JobInfo)) (time : ℤ) (slot : FirstFreeSlot) (j : ℕ) :
    Run FirstFreeSlot := do
  let cell ← getAt jobsOnCpu j
  match cell with
  | none => return slot.idle time
  | some jinfo => slot.busy jinfo time

/-- What the CPUs in `slots` that are freed after `time` use of a resource. -/
def usedAfter (used : FirstFreeSlot → ℤ) (slots : List FirstFreeSlot) (time : ℤ) : ℤ :=
  ((slots.filter (fun s => decide (time < s.time))).map used).sum

/-- The last loop over a node: the memory left when the slot becomes free. -/
def FirstFreeSlot.settle (slots : List FirstFreeSlot) (slot : FirstFreeSlot) : FirstFreeSlot :=
  { slot with
    availableMem := slot.mem - usedAfter FirstFreeSlot.memUsedPerCpu slots slot.time
    availableScratchLocal :=
      slot.scratchLocal - usedAfter FirstFreeSlot.scratchLocalUsedPerCpu slots slot.time }

/-- One pass of `first_free_slots_initialize`, on the slots of one node. -/
def initializeNode (time : ℤ) (node : NodeInfo) (slots : List FirstFreeSlot) :
    Run (List FirstFreeSlot) :=
  if node.isUnavailable then .ok (slots.map (fun slot => slot.idle (-1)))
  else
    match node.jobsOnCpu with
    | none => .ok (slots.map (fun slot => slot.idle time))
    | some jobsOnCpu => do
        let slots ← slots.zipIdx.mapM (fun e => initializeCpu jobsOnCpu time e.1 e.2)
        return slots.map (FirstFreeSlot.settle slots)

/-- The loop of `first_free_slots_initialize`. -/
def initializeNodes (time : ℤ) : List NodeInfo → List FirstFreeSlot → Run (List FirstFreeSlot)
  | [], slots => .ok slots
  | node :: nodes, slots =>
      if slots.length < node.coresTotal then .error .badIndex
      else do
        let first ← initializeNode time node (slots.take node.coresTotal)
        let rest ← initializeNodes time nodes (slots.drop node.coresTotal)
        return first ++ rest

/-- The CPUs `first_free_slots_initialize` counts as running: all but those of
nodes out of service. -/
def runningCpus (cluster : PlanCluster) : ℤ :=
  cluster.numCpus -
    ((cluster.nodes.filter NodeInfo.isUnavailable).map (fun node => (node.coresTotal : ℤ))).sum

/-- `first_free_slots_create` and `first_free_slots_initialize`. -/
def initialSlots (cluster : PlanCluster) (time : ℤ) : Run (List FirstFreeSlot) := do
  let slots ← firstFreeSlotsCreate cluster
  initializeNodes time cluster.nodes slots

/-! ## Entering a planned job -/

/-- How the slot of a node's CPU lies to a job: its own CPU (0), free before the
job starts (1), during it (2), at its end (3) or later (4). -/
def slotClass (job : PlanJob) (own : Bool) (slot : FirstFreeSlot) : ℕ :=
  if own then 0
  else if job.completionTime < slot.time then 4
  else if slot.time = job.completionTime then 3
  else if job.startTime ≤ slot.time then 2
  else 1

/-- The slots in use by the job until its completion. -/
def occupySlots (job : PlanJob) (own : ℕ → Bool) (slots : List FirstFreeSlot) :
    List FirstFreeSlot :=
  slots.mapIdx (fun c slot => if own c then { slot with time := job.completionTime } else slot)

/-- The new memory numbers of one slot of the node. -/
def updateSlot (job : PlanJob) (own : Bool) (newMem newScratchLocal : ℤ) (slot : FirstFreeSlot) :
    FirstFreeSlot :=
  let cls := slotClass job own slot
  if cls = 2 then { slot with availableMem := slot.availableMem - job.reqMem }
  else if cls = 0 ∨ cls = 3 then
    { slot with
      availableMem := newMem
      availableScratchLocal := newScratchLocal
      memUsedPerCpu := job.reqMem.tdiv job.reqPpn
      scratchLocalUsedPerCpu := job.reqScratchLocal.tdiv job.reqPpn }
  else slot

/-- The slots of the node behind the CPU `firstCpuNode` that are freed after the
job. -/
def laterSlots (job : PlanJob) (own : ℕ → Bool) (related : List ℕ) (slots : List FirstFreeSlot) :
    List FirstFreeSlot :=
  related.filterMap (fun c =>
    (slots[c]?).bind (fun slot => if slotClass job (own c) slot = 4 then some slot else none))

/-- The update of one node: `own` tells the CPUs of the job. -/
def updateNode (cluster : PlanCluster) (job : PlanJob) (own : ℕ → Bool)
    (slots : List FirstFreeSlot) (firstCpuNode : ℕ) : Run (List FirstFreeSlot) := do
  let first ← getAt slots firstCpuNode
  let ninfo ← getAt cluster.nodes first.ninfo
  let related := first.releatedCpus.take ninfo.coresTotal
  let slots := occupySlots job own slots
  let later := laterSlots job own related slots
  let newMem := first.mem - (later.map FirstFreeSlot.memUsedPerCpu).sum
  let newScratchLocal :=
    first.scratchLocal - (later.map FirstFreeSlot.scratchLocalUsedPerCpu).sum
  return slots.mapIdx (fun c slot =>
    if c ∈ related then updateSlot job (own c) newMem newScratchLocal slot else slot)

/-- `first_free_slots_update`. -/
def firstFreeSlotsUpdate (cluster : PlanCluster) (job : PlanJob) (slots : List FirstFreeSlot) :
    Run (List FirstFreeSlot) :=
  (List.range job.reqNumNodes).foldlM (fun slots j => do
    let firstCpuNode ← getAt job.latestNcpuIndex j
    updateNode cluster job (fun c => job.cpuIndexes.contains c) slots firstCpuNode) slots

/-- The CPUs of the nodes of an exclusive job. -/
def ownsNodeOf (job : PlanJob) (slots : List FirstFreeSlot) (c : ℕ) : Bool :=
  ((slots[c]?).map (fun slot => job.ninfoArr.contains (some slot.ninfo))).getD false

/-- The first slot of a node, if it has one. -/
def firstSlotOf (slots : List FirstFreeSlot) (node : Option ℕ) : Option ℕ :=
  (slots.findIdx? (fun slot => some slot.ninfo == node))

/-- `first_free_slots_update_exclusive`.  When a node has no slot, the variable
keeps the slot of the node before, which for the first node was never set. -/
def firstFreeSlotsUpdateExclusive (cluster : PlanCluster) (job : PlanJob)
    (slots : List FirstFreeSlot) : Run (List FirstFreeSlot) := do
  let own := ownsNodeOf job slots
  let (_, slots) ← (List.range job.reqNumNodes).foldlM
    (fun (state : Option ℕ × List FirstFreeSlot) j => do
      let node ← getAt job.ninfoArr j
      let first := (firstSlotOf state.2 node).or state.1
      let firstCpuNode ← deref first
      let slots ← updateNode cluster job own state.2 firstCpuNode
      return (first, slots)) (none, slots)
  return slots

/-! ## Reading the table -/

/-- The time a CPU becomes free; `-1` outside of the table. -/
def slotTime (slots : List FirstFreeSlot) (c : ℕ) : ℤ :=
  ((slots[c]?).map FirstFreeSlot.time).getD (-1)

/-- The node of a CPU. -/
def slotNode (slots : List FirstFreeSlot) (c : ℕ) : Option ℕ :=
  (slots[c]?).map FirstFreeSlot.ninfo

/-- The time of a slot that is there. -/
theorem slotTime_of_getElem? {slots : List FirstFreeSlot} {c : ℕ} {slot : FirstFreeSlot}
    (h : slots[c]? = some slot) : slotTime slots c = slot.time := by
  unfold slotTime
  rw [h]
  rfl

/-- A time other than `-1` is that of a slot of the table. -/
theorem exists_slot_of_slotTime {slots : List FirstFreeSlot} {c : ℕ} (h : slotTime slots c ≠ -1) :
    ∃ slot, slots[c]? = some slot ∧ slot.time = slotTime slots c := by
  cases hslot : slots[c]? with
  | none =>
      refine absurd ?_ h
      unfold slotTime
      rw [hslot]
      rfl
  | some slot => exact ⟨slot, rfl, (slotTime_of_getElem? hslot).symm⟩

/-! ## What the initial times say -/

/-- The job that `jobs_on_cpu` lists for CPU `c`, counted from the first node of the
list. -/
def jobOnCpu : List NodeInfo → ℕ → Option JobInfo
  | [], _ => none
  | node :: nodes, c =>
      if c < node.coresTotal then (node.jobsOnCpu.bind (fun jobs => jobs[c]?)).join
      else jobOnCpu nodes (c - node.coresTotal)

/-- The job ends by time `t`, as far as its walltime tells. -/
def JobInfo.endsBy (jinfo : JobInfo) (t : ℤ) : Prop :=
  ∀ walltime ∈ findResourceReq jinfo.resreq "walltime", jinfo.stime + walltime.amount ≤ t

/-- The slot is out of service, or free no earlier than `time` and than the end of
the job running there. -/
def FirstFreeSlot.FreeFrom (time : ℤ) (running : Option JobInfo) (slot : FirstFreeSlot) : Prop :=
  slot.time = -1 ∨ (time ≤ slot.time ∧ ∀ jinfo ∈ running, jinfo.endsBy slot.time)

/-- An idle CPU is free at once. -/
theorem idle_freeFrom (slot : FirstFreeSlot) (time : ℤ) : (slot.idle time).FreeFrom time none := by
  refine Or.inr ⟨le_rfl, ?_⟩
  intro jinfo hjinfo
  cases hjinfo

/-- A busy CPU is free when its job is expected to end. -/
theorem busy_freeFrom {slot slot' : FirstFreeSlot} {jinfo : JobInfo} {time : ℤ}
    (h : slot.busy jinfo time = .ok slot') : slot'.FreeFrom time (some jinfo) := by
  unfold FirstFreeSlot.busy at h
  simp only [bind_ok, pure_ok, deref_ok] at h
  obtain ⟨walltime, hw, -, -, -, -, -, -, -, -, rfl⟩ := h
  refine Or.inr ⟨?_, ?_⟩
  · dsimp only
    split <;> omega
  · intro j hj w hw'
    cases hj
    rw [hw] at hw'
    cases hw'
    dsimp only
    split <;> omega

/-- The memory of a slot does not matter for its time. -/
theorem settle_freeFrom {time : ℤ} {running : Option JobInfo} {slots : List FirstFreeSlot}
    {slot : FirstFreeSlot} (h : slot.FreeFrom time running) :
    (FirstFreeSlot.settle slots slot).FreeFrom time running := h

/-- One CPU of a node with jobs. -/
theorem initializeCpu_freeFrom {jobsOnCpu : List (Option JobInfo)} {time : ℤ}
    {slot slot' : FirstFreeSlot} {j : ℕ} (h : initializeCpu jobsOnCpu time slot j = .ok slot') :
    slot'.FreeFrom time (jobsOnCpu[j]?).join := by
  unfold initializeCpu at h
  obtain ⟨cell, hcell, h⟩ := bind_ok.mp h
  rw [getAt_ok.mp hcell]
  cases cell with
  | none =>
      rw [← pure_ok.mp h]
      exact idle_freeFrom slot time
  | some jinfo => exact busy_freeFrom h

/-- The CPUs of one node after `first_free_slots_initialize`. -/
theorem initializeNode_freeFrom {time : ℤ} {node : NodeInfo} {slots slots' : List FirstFreeSlot}
    (h : initializeNode time node slots = .ok slots') {c : ℕ} {slot : FirstFreeSlot}
    (hslot : slots'[c]? = some slot) :
    slot.FreeFrom time (node.jobsOnCpu.bind (fun jobs => jobs[c]?)).join := by
  unfold initializeNode at h
  split at h
  · cases h
    rw [List.getElem?_map] at hslot
    obtain ⟨old, -, rfl⟩ := Option.map_eq_some_iff.mp hslot
    exact Or.inl rfl
  · cases hjobs : node.jobsOnCpu with
    | none =>
        rw [hjobs] at h
        cases h
        rw [List.getElem?_map] at hslot
        obtain ⟨old, -, rfl⟩ := Option.map_eq_some_iff.mp hslot
        exact idle_freeFrom old time
    | some jobsOnCpu =>
        rw [hjobs] at h
        obtain ⟨mid, hmid, h⟩ := bind_ok.mp h
        rw [← pure_ok.mp h, List.getElem?_map] at hslot
        obtain ⟨old, hold, rfl⟩ := Option.map_eq_some_iff.mp hslot
        obtain ⟨e, he, hcell⟩ := exists_of_mapM_getElem? hmid hold
        rw [List.getElem?_zipIdx, Nat.zero_add] at he
        obtain ⟨s, -, rfl⟩ := Option.map_eq_some_iff.mp he
        exact settle_freeFrom (initializeCpu_freeFrom hcell)

/-- The pass over a node keeps the number of its slots. -/
theorem initializeNode_length {time : ℤ} {node : NodeInfo} {slots slots' : List FirstFreeSlot}
    (h : initializeNode time node slots = .ok slots') : slots'.length = slots.length := by
  unfold initializeNode at h
  split at h
  · cases h
    exact List.length_map _
  · split at h
    · cases h
      exact List.length_map _
    · obtain ⟨mid, hmid, h⟩ := bind_ok.mp h
      rw [← pure_ok.mp h, List.length_map, ← (forall₂_of_mapM _ mid hmid).length_eq,
        List.length_zipIdx]

/-- After `first_free_slots_initialize` every slot is out of service, or free no
earlier than now and than the end of the job running there. -/
theorem initializeNodes_freeFrom {time : ℤ} (nodes : List NodeInfo) :
    ∀ {slots slots' : List FirstFreeSlot}, (∀ slot ∈ slots, slot.time = -1) →
      initializeNodes time nodes slots = .ok slots' →
      ∀ (c : ℕ) (slot : FirstFreeSlot), slots'[c]? = some slot →
        slot.FreeFrom time (jobOnCpu nodes c) := by
  induction nodes with
  | nil =>
      intro slots slots' hnew h c slot hslot
      rw [initializeNodes] at h
      cases h
      exact Or.inl (hnew slot (List.mem_of_getElem? hslot))
  | cons node nodes ih =>
      intro slots slots' hnew h c slot hslot
      rw [initializeNodes] at h
      split at h
      · cases h
      · next hlen =>
          obtain ⟨first, hfirst, h⟩ := bind_ok.mp h
          obtain ⟨rest, hrest, h⟩ := bind_ok.mp h
          rw [← pure_ok.mp h] at hslot
          have hlength : first.length = node.coresTotal := by
            rw [initializeNode_length hfirst, List.length_take]
            omega
          rw [jobOnCpu]
          split
          · next hc =>
              rw [List.getElem?_append_left (by omega)] at hslot
              exact initializeNode_freeFrom hfirst hslot
          · next hc =>
              rw [List.getElem?_append_right (by omega), hlength] at hslot
              refine ih ?_ hrest _ slot hslot
              intro s hs
              exact hnew s (List.mem_of_mem_drop hs)

/-- All slots are created with time `-1`. -/
theorem createNodes_time {numCpus : ℕ} (nodes : List NodeInfo) :
    ∀ {i : ℕ} {slots slots' : List FirstFreeSlot}, (∀ slot ∈ slots, slot.time = -1) →
      createNodes numCpus i nodes slots = .ok slots' → ∀ slot ∈ slots', slot.time = -1 := by
  induction nodes with
  | nil =>
      intro i slots slots' hslots h
      rw [createNodes] at h
      cases h
      exact hslots
  | cons node nodes ih =>
      intro i slots slots' hslots h
      rw [createNodes] at h
      split at h
      · cases h
      · refine ih ?_ h
        intro slot hslot
        rcases List.mem_append.mp hslot with hslot | hslot
        · exact hslots slot hslot
        · rw [List.eq_of_mem_replicate hslot]

/-- The initial table: see `initializeNodes_freeFrom`. -/
theorem initialSlots_freeFrom {cluster : PlanCluster} {time : ℤ} {slots : List FirstFreeSlot}
    (h : initialSlots cluster time = .ok slots) {c : ℕ} {slot : FirstFreeSlot}
    (hslot : slots[c]? = some slot) : slot.FreeFrom time (jobOnCpu cluster.nodes c) := by
  unfold initialSlots firstFreeSlotsCreate at h
  obtain ⟨created, hcreated, h⟩ := bind_ok.mp h
  obtain ⟨laid, hlaid, hcreated⟩ := bind_ok.mp hcreated
  refine initializeNodes_freeFrom cluster.nodes ?_ h c slot hslot
  intro s hs
  rw [← pure_ok.mp hcreated] at hs
  rcases List.mem_append.mp hs with hs | hs
  · exact createNodes_time cluster.nodes (by simp) hlaid s hs
  · rw [List.eq_of_mem_replicate hs]
    rfl

/-! ## A table that fits its nodes -/

/-- A table of as many slots as the nodes have cores is filled without a gap, unless
the last node has no core: its pass would touch the slot behind the end. -/
theorem createNodes_fits {numCpus : ℕ} (nodes : List NodeInfo) :
    ∀ (i : ℕ) (slots : List FirstFreeSlot),
      slots.length + (nodes.map NodeInfo.coresTotal).sum = numCpus →
      (∀ c ∈ (nodes.map NodeInfo.coresTotal).getLast?, 0 < c) →
      ∃ slots', createNodes numCpus i nodes slots = .ok slots' ∧ slots'.length = numCpus ∧
        ∀ slot ∈ slots', slot ∈ slots ∨ slot.ninfo < i + nodes.length := by
  induction nodes with
  | nil =>
      intro i slots hsum _
      exact ⟨slots, rfl, hsum, fun slot hslot => Or.inl hslot⟩
  | cons node nodes ih =>
      intro i slots hsum hlast
      rw [List.map_cons, List.sum_cons] at hsum
      -- a core is still to come, so the pass does not begin behind the end of the table
      have hpos : 0 < node.coresTotal + (nodes.map NodeInfo.coresTotal).sum := by
        obtain ⟨c, hc⟩ : ∃ c, ((node :: nodes).map NodeInfo.coresTotal).getLast? = some c :=
          ⟨_, List.getLast?_eq_some_getLast (by simp)⟩
        have hle := List.single_le_sum (by simp) c (List.mem_of_getLast? hc)
        rw [List.map_cons, List.sum_cons] at hle
        exact lt_of_lt_of_le (hlast c hc) hle
      have hlast' : ∀ c ∈ (nodes.map NodeInfo.coresTotal).getLast?, 0 < c := by
        intro c hc
        refine hlast c ?_
        rw [List.map_cons, List.getLast?_cons, hc]
        rfl
      have hlen : (slots ++ createNode i node slots.length).length
          = slots.length + node.coresTotal := by
        rw [List.length_append, createNode, List.length_replicate]
      obtain ⟨slots', hrun, hlength, hmem⟩ := ih (i + 1)
        (slots ++ createNode i node slots.length) (by omega) hlast'
      refine ⟨slots', ?_, hlength, ?_⟩
      · rw [createNodes, if_neg (by omega)]
        exact hrun
      · intro slot hslot
        rw [List.length_cons]
        rcases hmem slot hslot with hold | hlt
        · rcases List.mem_append.mp hold with hold | hnew
          · exact Or.inl hold
          · rw [List.eq_of_mem_replicate hnew]
            exact Or.inr (by dsimp only; omega)
        · exact Or.inr (by omega)

/-- One pass of `first_free_slots_initialize` stays within the array of jobs. -/
theorem initializeNode_inBounds {time : ℤ} {node : NodeInfo} {slots : List FirstFreeSlot}
    (hjobs : ∀ jobs ∈ node.jobsOnCpu, slots.length ≤ jobs.length) :
    Avoids .badIndex (initializeNode time node slots) := by
  unfold initializeNode
  split
  · exact avoids_ok _ _
  · cases hcells : node.jobsOnCpu with
    | none => exact avoids_ok _ _
    | some jobs =>
        refine (avoids_mapM _ ?_).bind (fun _ _ => avoids_ok _ _)
        intro e he
        have hlt : e.2 < jobs.length := by
          have := List.snd_lt_of_mem_zipIdx he
          have := hjobs jobs hcells
          omega
        refine (avoids_getAt _ hlt).bind (fun cell _ => ?_)
        cases cell with
        | none => exact avoids_ok _ _
        | some jinfo =>
            refine (avoids_deref _).bind (fun _ _ => (avoids_deref _).bind (fun _ _ => ?_))
            refine (avoids_deref _).bind (fun _ _ => ?_)
            refine (avoids_cdiv (by decide) _ _).bind (fun _ _ => ?_)
            exact (avoids_cdiv (by decide) _ _).bind (fun _ _ => avoids_ok _ _)

/-- `first_free_slots_initialize` stays within a table that has a slot per core. -/
theorem initializeNodes_inBounds {time : ℤ} (nodes : List NodeInfo) :
    ∀ {slots : List FirstFreeSlot}, (nodes.map NodeInfo.coresTotal).sum ≤ slots.length →
      (∀ node ∈ nodes, ∀ jobs ∈ node.jobsOnCpu, node.coresTotal ≤ jobs.length) →
      Avoids .badIndex (initializeNodes time nodes slots) := by
  induction nodes with
  | nil =>
      intro slots _ _
      exact avoids_ok _ _
  | cons node nodes ih =>
      intro slots hsum hjobs
      rw [List.map_cons, List.sum_cons] at hsum
      rw [initializeNodes, if_neg (by omega)]
      refine (initializeNode_inBounds ?_).bind (fun _ _ => ?_)
      · intro jobs hcells
        rw [List.length_take]
        have := hjobs node List.mem_cons_self jobs hcells
        omega
      · refine (ih ?_ (fun n hn => hjobs n (List.mem_cons_of_mem _ hn))).bind
          (fun _ _ => avoids_ok _ _)
        rw [List.length_drop]
        omega

/-- `first_free_slots_create` fills the whole table and leaves no slot without a node,
and `first_free_slots_initialize` stays within it. -/
def PlanCluster.TableFits (cluster : PlanCluster) : Prop :=
  ∃ slots, firstFreeSlotsCreate cluster = .ok slots ∧ slots.length = cluster.numCpus ∧
    (∀ slot ∈ slots, slot.ninfo < cluster.nodes.length) ∧
    ∀ time, Avoids .badIndex (initialSlots cluster time)

/-- The table fits when the CPU count is that of the nodes. -/
theorem tableFits {cluster : PlanCluster} (hcount : cluster.numCpus = cluster.coresSum)
    (hlast : ∀ c ∈ (cluster.nodes.map NodeInfo.coresTotal).getLast?, 0 < c)
    (hjobs : ∀ node ∈ cluster.nodes, ∀ jobs ∈ node.jobsOnCpu, node.coresTotal ≤ jobs.length) :
    cluster.TableFits := by
  have hsum : ([] : List FirstFreeSlot).length + (cluster.nodes.map NodeInfo.coresTotal).sum
      = cluster.numCpus := by
    rw [hcount, List.length_nil, Nat.zero_add]
    rfl
  obtain ⟨slots, hrun, hlength, hmem⟩ := createNodes_fits cluster.nodes 0 [] hsum hlast
  have hcreate : firstFreeSlotsCreate cluster = .ok slots := by
    unfold firstFreeSlotsCreate
    rw [hrun]
    change Except.ok _ = _
    rw [hlength, Nat.sub_self, List.replicate_zero, List.append_nil]
  refine ⟨slots, hcreate, hlength, ?_, ?_⟩
  · intro slot hslot
    rcases hmem slot hslot with hnil | hlt
    · cases hnil
    · omega
  · intro time
    unfold initialSlots
    rw [hcreate]
    refine initializeNodes_inBounds cluster.nodes ?_ hjobs
    rw [hlength, hcount]
    rfl

/-! ## What an update changes -/

/-- The memory numbers of a slot do not touch its time and node. -/
theorem updateSlot_time_ninfo (job : PlanJob) (own : Bool) (newMem newScratchLocal : ℤ)
    (slot : FirstFreeSlot) :
    (updateSlot job own newMem newScratchLocal slot).time = slot.time ∧
      (updateSlot job own newMem newScratchLocal slot).ninfo = slot.ninfo := by
  unfold updateSlot
  dsimp only
  split
  · exact ⟨rfl, rfl⟩
  · split <;> exact ⟨rfl, rfl⟩

/-- The update of one node sets the time of the job's CPUs and of no others. -/
theorem updateNode_spec {cluster : PlanCluster} {job : PlanJob} {own : ℕ → Bool}
    {slots slots' : List FirstFreeSlot} {firstCpuNode : ℕ}
    (h : updateNode cluster job own slots firstCpuNode = .ok slots') (c : ℕ) :
    slotNode slots' c = slotNode slots c ∧
      slotTime slots' c =
        if own c = true ∧ c < slots.length then job.completionTime else slotTime slots c := by
  unfold updateNode at h
  obtain ⟨first, -, h⟩ := bind_ok.mp h
  obtain ⟨ninfo, -, h⟩ := bind_ok.mp h
  rw [← pure_ok.mp h]
  unfold slotNode slotTime occupySlots
  rw [List.getElem?_mapIdx, List.getElem?_mapIdx]
  cases hslot : slots[c]? with
  | none =>
      have hlen := List.getElem?_eq_none_iff.mp hslot
      rw [if_neg (by omega)]
      exact ⟨rfl, rfl⟩
  | some slot =>
      obtain ⟨hlen, -⟩ := List.getElem?_eq_some_iff.mp hslot
      simp only [Option.map_some, Option.getD_some, hlen, and_true]
      constructor
      · split
        · rw [(updateSlot_time_ninfo _ _ _ _ _).2]
          split <;> rfl
        · split <;> rfl
      · split
        · rw [(updateSlot_time_ninfo _ _ _ _ _).1]
          split <;> rfl
        · split <;> rfl

/-- An update of nodes that keeps the number of slots. -/
theorem updateNode_length {cluster : PlanCluster} {job : PlanJob} {own : ℕ → Bool}
    {slots slots' : List FirstFreeSlot} {firstCpuNode : ℕ}
    (h : updateNode cluster job own slots firstCpuNode = .ok slots') :
    slots'.length = slots.length := by
  unfold updateNode at h
  obtain ⟨first, -, h⟩ := bind_ok.mp h
  obtain ⟨ninfo, -, h⟩ := bind_ok.mp h
  rw [← pure_ok.mp h, List.length_mapIdx, occupySlots, List.length_mapIdx]

/-- The slots are those of `slots` with the CPUs in `own` set to time `t`. -/
structure Occupied (own : ℕ → Bool) (t : ℤ) (slots slots' : List FirstFreeSlot) : Prop where
  length_eq : slots'.length = slots.length
  node_eq : ∀ c, slotNode slots' c = slotNode slots c
  time_eq : ∀ c, slotTime slots' c =
    if own c = true ∧ c < slots.length then t else slotTime slots c

/-- One node's update occupies the CPUs of the job. -/
theorem updateNode_occupied {cluster : PlanCluster} {job : PlanJob} {own : ℕ → Bool}
    {slots slots' : List FirstFreeSlot} {firstCpuNode : ℕ}
    (h : updateNode cluster job own slots firstCpuNode = .ok slots') :
    Occupied own job.completionTime slots slots' :=
  ⟨updateNode_length h, fun c => (updateNode_spec h c).1, fun c => (updateNode_spec h c).2⟩

/-- To occupy CPUs twice is to occupy them once. -/
theorem Occupied.trans {own : ℕ → Bool} {t : ℤ} {s₁ s₂ s₃ : List FirstFreeSlot}
    (h : Occupied own t s₁ s₂) (h' : Occupied own t s₂ s₃) : Occupied own t s₁ s₃ := by
  refine ⟨h'.length_eq.trans h.length_eq, fun c => (h'.node_eq c).trans (h.node_eq c), ?_⟩
  intro c
  rw [h'.time_eq c, h.time_eq c, h.length_eq]
  split
  · rfl
  · rfl

/-- `first_free_slots_update` sets the time of the job's CPUs to its completion,
and leaves all other CPUs alone. -/
theorem firstFreeSlotsUpdate_occupied {cluster : PlanCluster} {job : PlanJob}
    {slots slots' : List FirstFreeSlot} (h : firstFreeSlotsUpdate cluster job slots = .ok slots') :
    Occupied (fun c => job.cpuIndexes.contains c) job.completionTime slots slots' := by
  unfold firstFreeSlotsUpdate at h
  -- a job has at least one node, so the first pass occupies and the others repeat it
  obtain ⟨n, hn⟩ := Nat.exists_eq_add_of_lt job.reqNumNodes_pos
  rw [hn, Nat.zero_add, List.range_succ_eq_map, List.foldlM_cons] at h
  obtain ⟨slots₁, hfirst, h⟩ := bind_ok.mp h
  obtain ⟨cpu, -, hfirst⟩ := bind_ok.mp hfirst
  refine foldlM_invariant (fun s => Occupied _ job.completionTime slots s) _ _ slots₁ slots' ?_
    (updateNode_occupied hfirst) h
  intro s j s' _ hs hstep
  obtain ⟨cpu', -, hstep⟩ := bind_ok.mp hstep
  exact hs.trans (updateNode_occupied hstep)

/-- `first_free_slots_update` needs a CPU for each node of the job. -/
theorem reqNumNodes_le_of_firstFreeSlotsUpdate {cluster : PlanCluster} {job : PlanJob}
    {slots slots' : List FirstFreeSlot} (h : firstFreeSlotsUpdate cluster job slots = .ok slots') :
    job.reqNumNodes ≤ job.latestNcpuIndex.length := by
  unfold firstFreeSlotsUpdate at h
  by_contra hlt
  have hmem : job.latestNcpuIndex.length ∈ List.range job.reqNumNodes :=
    List.mem_range.mpr (by omega)
  obtain ⟨s, s', hstep⟩ := exists_step_of_foldlM _ h _ hmem
  obtain ⟨cpu, hcpu, -⟩ := bind_ok.mp hstep
  rw [getAt_ok, List.getElem?_eq_none le_rfl] at hcpu
  cases hcpu

/-- `first_free_slots_update_exclusive` sets the time of all CPUs of the job's nodes
to its completion, and leaves all other CPUs alone. -/
theorem firstFreeSlotsUpdateExclusive_occupied {cluster : PlanCluster} {job : PlanJob}
    {slots slots' : List FirstFreeSlot}
    (h : firstFreeSlotsUpdateExclusive cluster job slots = .ok slots') :
    Occupied (ownsNodeOf job slots) job.completionTime slots slots' := by
  unfold firstFreeSlotsUpdateExclusive at h
  obtain ⟨⟨first, slots₁⟩, hfold, h⟩ := bind_ok.mp h
  obtain rfl := pure_ok.mp h
  obtain ⟨n, hn⟩ := Nat.exists_eq_add_of_lt job.reqNumNodes_pos
  rw [hn, Nat.zero_add, List.range_succ_eq_map, List.foldlM_cons] at hfold
  obtain ⟨state, hfirst, hfold⟩ := bind_ok.mp hfold
  have hpass : ∀ (s s' : Option ℕ × List FirstFreeSlot) (j : ℕ),
      (do
        let node ← getAt job.ninfoArr j
        let first := (firstSlotOf s.2 node).or s.1
        let firstCpuNode ← deref first
        let slots₂ ← updateNode cluster job (ownsNodeOf job slots) s.2 firstCpuNode
        return (first, slots₂) : Run (Option ℕ × List FirstFreeSlot)) = .ok s' →
      Occupied (ownsNodeOf job slots) job.completionTime s.2 s'.2 := by
    intro s s' j hstep
    obtain ⟨node, -, hstep⟩ := bind_ok.mp hstep
    obtain ⟨cpu, -, hstep⟩ := bind_ok.mp hstep
    obtain ⟨slots₂, hupdate, hstep⟩ := bind_ok.mp hstep
    rw [← pure_ok.mp hstep]
    exact updateNode_occupied hupdate
  refine foldlM_invariant (fun s : Option ℕ × List FirstFreeSlot =>
    Occupied (ownsNodeOf job slots) job.completionTime slots s.2) _ _ state (first, slots₁) ?_
    (hpass _ _ _ hfirst) hfold
  intro s j s' _ hs hstep
  exact hs.trans (hpass s s' j hstep)

end PlanSched
