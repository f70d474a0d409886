/-
# Choosing CPUs for a job

Models the first half of `update_job` (`plan_operations.cpp`): which slots a job
may use at all, `ith_smallest`, the loop that collects the CPUs chunk by chunk,
and `find_earliest_node` for exclusive jobs.

The loop keeps the CPUs chosen so far in `cpu_indexes`, ordered by the time they
become free.  It abandons the node under consideration as soon as a CPU of
another node is free earlier, and then goes back to the number of CPUs it had
when the last chunk was complete; the cells it drops are the last ones of the
ordered array.  A chunk is complete after `req_ppn` CPUs; that fixes the start of
the job to the latest of the times so far.
-/
import PlanSched.FirstFreeSlot
import PlanSched.LeastIndex

namespace PlanSched

open CheckedRun LeastIndex

/-! ## Availability of a slot -/

/-- The codes of `first_free_slot_availability`: `-1` to `-4` and `-6` to `-9`, `0`
for a free slot, and the number of the attempt that looked at the slot last. -/
inductive SlotAvailability : Type where
  | nodeDown
  | notEnoughCpus
  | notEnoughMem
  | notEnoughAvailableMem
  | alreadyUsed
  | prohibitedNode
  | availBefore
  | walltimeLimit
  | free
  | tried (attempt : ℕ)
  deriving DecidableEq, Repr, Inhabited

/-- The node offers too few GPUs, or none. -/
def lacksGpu (job : PlanJob) (node : NodeInfo) : Bool :=
  decide (0 < job.reqGpu) && (match node.gpu with
    | none => true
    | some capacity => decide (capacity < job.reqGpu))

/-- The availability of one slot at the start of `update_job`; `wiped` tells that
the job's fixed nodes were given up.  The completion time is the one of the last
plan. -/
def slotAvailability (cluster : PlanCluster) (job : PlanJob) (wiped : Bool)
    (slot : FirstFreeSlot) : Run SlotAvailability :=
  if slot.time = -1 then .ok .nodeDown
  else do
    let node ← getAt cluster.nodes slot.ninfo
    if node.availBefore ≠ 0 ∧ node.availBefore < job.completionTime then return .availBefore
    else if node.walltimeLimitMin ≠ 0 ∧ job.estimatedProcessing < node.walltimeLimitMin then
      return .walltimeLimit
    else if node.walltimeLimitMax ≠ 0 ∧ node.walltimeLimitMax < job.estimatedProcessing then
      return .walltimeLimit
    else if lacksGpu job node then return .walltimeLimit
    else if job.jinfo.isExclusive = false ∧ wiped = false ∧
        job.fixedNnameArr.contains (some node.name) = false then return .prohibitedNode
    else if node.coresTotal < job.reqPpn then return .notEnoughCpus
    else if slot.mem < job.reqMem ∨ slot.scratchLocal < job.reqScratchLocal then
      return .notEnoughMem
    else if slot.availableMem < job.reqMem ∨ slot.availableScratchLocal < job.reqScratchLocal then
      return .notEnoughAvailableMem
    else return .free

/-! ## The state of the choice -/

/-- The variables of the loop of `update_job`.  `cpuIndexes` holds the cells below
`job_cpu` and `tmpCpuArr` those filled for the current chunk. -/
structure Selection where
  avail : List SlotAvailability
  attemptCount : ℕ
  consideredNode : Option ℕ
  nodeLatest : Option ℕ
  totalLatest : Option ℕ
  planNumNodes : ℕ
  cpuIndexes : List ℕ
  tmpCpuArr : List ℕ
  ninfoArr : List (Option ℕ)
  latestNcpuIndex : List ℕ
  fixedNnameArr : List (Option String)
  nodePpnFree : List Bool
  startTime : ℤ
  completionTime : ℤ
  deriving DecidableEq, Repr

/-- The two exceptions for a slot without enough available memory: an already
chosen CPU is free later than this one. -/
def memoryException (slots : List FirstFreeSlot) (sel : Selection) (slot : FirstFreeSlot) : Bool :=
  match sel.nodeLatest with
  | some latest =>
      some slot.ninfo == sel.consideredNode && slotNode slots latest == some slot.ninfo &&
        decide (slot.time < slotTime slots latest)
  | none =>
      match sel.totalLatest with
      | some latest => decide (slot.time < slotTime slots latest)
      | none => false

/-- The slot may be chosen now. -/
def eligible (slots : List FirstFreeSlot) (sel : Selection) (c : ℕ) (slot : FirstFreeSlot) :
    Bool :=
  match sel.avail[c]? with
  | some .free => true
  | some .notEnoughAvailableMem => memoryException slots sel slot
  | some (.tried attempt) =>
      decide (attempt < sel.attemptCount) && some slot.ninfo == sel.consideredNode
  | _ => false

/-- The loop of `ith_smallest` from slot `c` on.  The time is compared as an `int`. -/
def smallestFrom (ok : ℕ → FirstFreeSlot → Bool) :
    ℕ → List FirstFreeSlot → ℤ → Option ℕ → Option ℕ
  | _, [], _, result => result
  | c, slot :: slots, min, result =>
      if toInt slot.time < min ∧ ok c slot = true then
        smallestFrom ok (c + 1) slots (toInt slot.time) (some c)
      else smallestFrom ok (c + 1) slots min result

/-- `ith_smallest`, without the mark it leaves on the slot it returns. -/
def ithSmallest (slots : List FirstFreeSlot) (sel : Selection) : Option ℕ :=
  smallestFrom (eligible slots sel) 0 slots LONG_MAX none

/-! ## Taking a CPU -/

/-- The loop that moves later CPUs up, seen from the last cell. -/
def insertBack (time : ℕ → ℤ) (c : ℕ) : List ℕ → List ℕ
  | [] => [c]
  | x :: xs => if time c < time x then x :: insertBack time c xs else c :: x :: xs

/-- Enter a CPU behind all that are free no later. -/
def insertByTime (time : ℕ → ℤ) (c : ℕ) (xs : List ℕ) : List ℕ :=
  (insertBack time c xs.reverse).reverse

/-- The later one of a remembered CPU and a new one. -/
def laterCpu (slots : List FirstFreeSlot) (latest : Option ℕ) (c : ℕ) : Option ℕ :=
  match latest with
  | none => some c
  | some l => if slotTime slots l ≤ slotTime slots c then some c else some l

/-- The attempt goes on with the node of CPU `c`: the node under consideration is
abandoned if it is another one. -/
def considerNode (job : PlanJob) (sel : Selection) (c ninfo : ℕ) : Selection :=
  if sel.consideredNode.isSome ∧ sel.consideredNode ≠ some ninfo then
    { sel with
      cpuIndexes := sel.cpuIndexes.take (sel.planNumNodes * job.reqPpn)
      tmpCpuArr := []
      attemptCount := sel.attemptCount + 1
      avail := sel.avail.set c (.tried (sel.attemptCount + 1))
      consideredNode := some ninfo }
  else
    { sel with
      avail := sel.avail.set c (.tried sel.attemptCount)
      consideredNode := some ninfo }

/-- The CPU is entered into the arrays. -/
def enterCpu (slots : List FirstFreeSlot) (sel : Selection) (c : ℕ) : Selection :=
  { sel with
    cpuIndexes := insertByTime (slotTime slots) c sel.cpuIndexes
    nodeLatest := laterCpu slots sel.nodeLatest c
    totalLatest := laterCpu slots sel.totalLatest c
    tmpCpuArr := sel.tmpCpuArr ++ [c] }

/-- The loop over `node_ppn_free` from cell `k` on: is this the last time the fixed
node may be used.  It stops at the second cell that names the node. -/
def useFixedNode (name : String) : ℕ → List (Option String) → List Bool → Bool →
    Bool × List Bool
  | _, [], ppnFree, notAnymore => (notAnymore, ppnFree)
  | k, fixed :: rest, ppnFree, notAnymore =>
      if ppnFree[k]? = some true ∧ fixed = some name then
        if notAnymore then (false, ppnFree)
        else useFixedNode name (k + 1) rest (ppnFree.set k false) true
      else useFixedNode name (k + 1) rest ppnFree notAnymore

/-- Forbid the other slots of a node. -/
def prohibitNode (slots : List FirstFreeSlot) (ninfo : ℕ) (avail : List SlotAvailability) :
    List SlotAvailability :=
  avail.mapIdx (fun c a =>
    if slotNode slots c = some ninfo ∧ a ≠ .alreadyUsed then .prohibitedNode else a)

/-- The chunk is complete: its start, its node, and its CPUs taken out. -/
def completeChunk (cluster : PlanCluster) (slots : List FirstFreeSlot) (job : PlanJob)
    (wiped : Bool) (sel : Selection) (ninfo : ℕ) : Run Selection := do
  if job.reqNumNodes ≤ sel.planNumNodes then .error .badIndex
  else do
    let node ← getAt cluster.nodes ninfo
    let last ← deref sel.cpuIndexes.getLast?
    let latest ← deref sel.nodeLatest
    let startTime := slotTime slots last
    let avail := sel.tmpCpuArr.foldl (fun avail c => avail.set c .alreadyUsed) sel.avail
    let (notAnymore, ppnFree) :=
      if wiped then (false, sel.nodePpnFree)
      else useFixedNode node.name 0 sel.fixedNnameArr sel.nodePpnFree false
    return { sel with
      startTime := startTime
      completionTime := startTime + job.estimatedProcessing
      ninfoArr := sel.ninfoArr.set sel.planNumNodes (some ninfo)
      latestNcpuIndex := sel.latestNcpuIndex ++ [latest]
      avail := if notAnymore then prohibitNode slots ninfo avail else avail
      fixedNnameArr :=
        if wiped then sel.fixedNnameArr.set sel.planNumNodes (some node.name)
        else sel.fixedNnameArr
      nodePpnFree := ppnFree
      tmpCpuArr := []
      consideredNode := none
      nodeLatest := none
      planNumNodes := sel.planNumNodes + 1 }

/-- The part of the loop body behind `ith_smallest`, for the CPU `c` it chose. -/
def takeCpu (cluster : PlanCluster) (slots : List FirstFreeSlot) (job : PlanJob) (wiped : Bool)
    (sel : Selection) (c : ℕ) : Run Selection := do
  let slot ← getAt slots c
  let sel := enterCpu slots (considerNode job sel c slot.ninfo) c
  if sel.cpuIndexes.length = (sel.planNumNodes + 1) * job.reqPpn then
    completeChunk cluster slots job wiped sel slot.ninfo
  else return sel

/-- The loop of `update_job`, with a budget of passes.  `none`: no CPU was left. -/
def selectCpus (cluster : PlanCluster) (slots : List FirstFreeSlot) (job : PlanJob) (wiped : Bool) :
    ℕ → Selection → Run (Option Selection)
  | 0, _ => .error .outOfSteps
  | fuel + 1, sel =>
      if sel.cpuIndexes.length < job.usage then
        match ithSmallest slots sel with
        | none => .ok none
        | some c => do
            let sel ← takeCpu cluster slots job wiped sel c
            selectCpus cluster slots job wiped fuel sel
      else .ok (some sel)

/-- The variables before the loop. -/
def Selection.initial (job : PlanJob) (fixedNnameArr : List (Option String))
    (avail : List SlotAvailability) : Selection where
  avail := avail
  attemptCount := 1
  consideredNode := none
  nodeLatest := none
  totalLatest := none
  planNumNodes := 0
  cpuIndexes := []
  tmpCpuArr := []
  ninfoArr := job.ninfoArr
  latestNcpuIndex := []
  fixedNnameArr := fixedNnameArr
  nodePpnFree := List.replicate job.reqNumNodes true
  startTime := -1
  completionTime := -1

/-- The passes that suffice for a table of `n` slots. -/
def selectionBudget (n : ℕ) : ℕ := (n + 1) * (n + 1) + 1

/-! ## Exclusive jobs -/

/-- A time in the year 2199: no node was found. -/
def NO_NODE_TIME : ℤ := 7226578800

/-- The variables of `find_earliest_node`. -/
structure EarliestNode where
  node : Option ℕ
  bestNode : Option ℕ
  overallEarliestTime : ℤ
  latestNodeTime : ℤ
  deriving DecidableEq, Repr

/-- One pass of the loop of `find_earliest_node`; `last` marks the last slot. -/
def findEarliestStep (cluster : PlanCluster) (job : PlanJob) (chosen : List (Option ℕ))
    (last : ℕ) (st : EarliestNode) (entry : (FirstFreeSlot × SlotAvailability) × ℕ) :
    Run EarliestNode := do
  let slot := entry.1.1
  let ninfo ← getAt cluster.nodes slot.ninfo
  if ninfo.coresTotal < job.reqPpn ∨ ninfo.isOut = true then return st
  else if entry.1.2 = .notEnoughMem ∨ entry.1.2 = .availBefore ∨ entry.1.2 = .walltimeLimit then
    return st
  else if chosen.contains (some slot.ninfo) then return st
  else
    let bestNode := if st.bestNode = none then some slot.ninfo else st.bestNode
    let node := if st.node = none then some slot.ninfo else st.node
    let latest :=
      if node = some slot.ninfo ∧ st.latestNodeTime < slot.time then slot.time
      else st.latestNodeTime
    if node ≠ some slot.ninfo ∨ entry.2 = last then
      if latest ≤ st.overallEarliestTime then return ⟨some slot.ninfo, node, latest, 0⟩
      else return ⟨some slot.ninfo, bestNode, st.overallEarliestTime, 0⟩
    else return ⟨node, bestNode, st.overallEarliestTime, latest⟩

/-- `find_earliest_node`: the node it enters and the time it returns. -/
def findEarliestNode (cluster : PlanCluster) (job : PlanJob) (chosen : List (Option ℕ))
    (slots : List FirstFreeSlot) (avail : List SlotAvailability) : Run (Option ℕ × ℤ) := do
  let st ← ((slots.zip avail).zipIdx).foldlM
    (findEarliestStep cluster job chosen (slots.length - 1)) ⟨none, none, NO_NODE_TIME, 0⟩
  return (st.bestNode, st.overallEarliestTime)

/-- The calls of `find_earliest_node` for all nodes of the job: the nodes and the
time the last call returned. -/
def findEarliestNodes (cluster : PlanCluster) (job : PlanJob) (slots : List FirstFreeSlot)
    (avail : List SlotAvailability) : Run (List (Option ℕ) × ℤ) :=
  (List.range job.reqNumNodes).foldlM (fun state _ => do
    let (node, time) ← findEarliestNode cluster job state.1 slots avail
    return (state.1 ++ [node], time)) ([], -1)

/-! ## The ordered array -/

/-- The loop moves CPUs, it neither drops nor repeats one. -/
theorem perm_insertBack (time : ℕ → ℤ) (c : ℕ) (xs : List ℕ) :
    (insertBack time c xs).Perm (c :: xs) := by
  induction xs with
  | nil => exact List.Perm.refl _
  | cons x xs ih =>
      rw [insertBack]
      split
      · exact (ih.cons x).trans (List.Perm.swap c x xs)
      · exact List.Perm.refl _

/-- Entering a CPU adds exactly that CPU. -/
theorem perm_insertByTime (time : ℕ → ℤ) (c : ℕ) (xs : List ℕ) :
    (insertByTime time c xs).Perm (c :: xs) := by
  unfold insertByTime
  refine (List.reverse_perm _).trans ((perm_insertBack time c _).trans ?_)
  exact (List.reverse_perm xs).cons c

/-- The array grows by one cell. -/
theorem length_insertByTime (time : ℕ → ℤ) (c : ℕ) (xs : List ℕ) :
    (insertByTime time c xs).length = xs.length + 1 :=
  (perm_insertByTime time c xs).length_eq

/-- The CPUs are ordered by the time they become free. -/
def ByTime (time : ℕ → ℤ) (xs : List ℕ) : Prop := xs.Pairwise (fun a b => time a ≤ time b)

/-- Seen from the last cell, entering a CPU keeps the order. -/
theorem insertBack_sorted {time : ℕ → ℤ} (c : ℕ) {xs : List ℕ}
    (h : xs.Pairwise (fun a b => time b ≤ time a)) :
    (insertBack time c xs).Pairwise (fun a b => time b ≤ time a) := by
  induction xs with
  | nil => exact List.pairwise_singleton _ _
  | cons x xs ih =>
      obtain ⟨hhead, htail⟩ := List.pairwise_cons.mp h
      rw [insertBack]
      split
      · next hlt =>
          refine List.pairwise_cons.mpr ⟨?_, ih htail⟩
          intro y hy
          rcases List.mem_cons.mp ((perm_insertBack time c xs).mem_iff.mp hy) with rfl | hy
          · exact hlt.le
          · exact hhead y hy
      · next hge =>
          refine List.pairwise_cons.mpr ⟨?_, h⟩
          intro y hy
          rcases List.mem_cons.mp hy with rfl | hy
          · omega
          · have := hhead y hy
            omega

/-- Entering a CPU keeps the order. -/
theorem insertByTime_byTime {time : ℕ → ℤ} {xs : List ℕ} (c : ℕ) (h : ByTime time xs) :
    ByTime time (insertByTime time c xs) := by
  unfold ByTime insertByTime
  rw [List.pairwise_reverse]
  exact insertBack_sorted c (List.pairwise_reverse.mpr h)

/-- The last CPU of the ordered array is free last. -/
theorem ByTime.le_getLast {time : ℕ → ℤ} {xs : List ℕ} (h : ByTime time xs) {last : ℕ}
    (hlast : xs.getLast? = some last) {c : ℕ} (hc : c ∈ xs) : time c ≤ time last := by
  obtain ⟨init, rfl⟩ := List.getLast?_eq_some_iff.mp hlast
  rcases List.mem_append.mp hc with hc | hc
  · exact (List.pairwise_append.mp h).2.2 c hc last (List.mem_singleton.mpr rfl)
  · rw [List.mem_singleton.mp hc]

/-! ## What the choice keeps -/

/-- The slot with this availability may still be chosen. -/
def SlotAvailability.usable : SlotAvailability → Bool
  | .free | .notEnoughAvailableMem | .tried _ => true
  | _ => false

/-- A slot `ith_smallest` looks at is usable. -/
theorem usable_of_eligible {slots : List FirstFreeSlot} {sel : Selection} {c : ℕ}
    {slot : FirstFreeSlot} (h : eligible slots sel c slot = true) :
    ∃ a, sel.avail[c]? = some a ∧ a.usable = true := by
  unfold eligible at h
  split at h
  · next ha => exact ⟨_, ha, rfl⟩
  · next ha => exact ⟨_, ha, rfl⟩
  · next ha => exact ⟨_, ha, rfl⟩
  · cases h

/-- The loop of `ith_smallest` is the search for the least time, as an `int`. -/
theorem smallestFrom_eq (ok : ℕ → FirstFreeSlot → Bool) (slots : List FirstFreeSlot) :
    ∀ (i : ℕ) (min : ℤ) (result : Option ℕ), smallestFrom ok i slots min result =
      leastFrom ok (fun slot => toInt slot.time) i slots min result := by
  induction slots with
  | nil =>
      intro i min result
      rfl
  | cons slot slots ih =>
      intro i min result
      rw [smallestFrom, leastFrom, ih, ih]

/-- What `ith_smallest` ends with. -/
theorem ithSmallest_end (slots : List FirstFreeSlot) (sel : Selection) :
    LoopEnd (eligible slots sel) (fun slot => toInt slot.time) 0 slots LONG_MAX none
      (ithSmallest slots sel) := by
  unfold ithSmallest
  rw [smallestFrom_eq]
  exact leastFrom_end _ _ _ _ _ _

/-- `ith_smallest` returns a slot of the table that may be chosen. -/
theorem ithSmallest_spec {slots : List FirstFreeSlot} {sel : Selection} {c : ℕ}
    (h : ithSmallest slots sel = some c) :
    ∃ slot, slots[c]? = some slot ∧ eligible slots sel c slot = true := by
  have hend := ithSmallest_end slots sel
  rw [h] at hend
  cases hend with
  | found j slot hslot hok hlt hleast =>
      rw [Nat.zero_add] at hok ⊢
      exact ⟨slot, hslot, hok⟩

/-- What always holds of the variables of the loop: slots out of service are never
usable, and the array holds slots of the table in order of time. -/
structure ChoiceInv (slots : List FirstFreeSlot) (job : PlanJob) (sel : Selection) : Prop where
  down_unusable : ∀ c a, slotTime slots c = -1 → sel.avail[c]? = some a → a.usable = false
  chosen_free : ∀ c ∈ sel.cpuIndexes, slotTime slots c ≠ -1
  byTime : ByTime (slotTime slots) sel.cpuIndexes
  nodes_le : sel.planNumNodes ≤ job.reqNumNodes
  latest_length : sel.latestNcpuIndex.length = sel.planNumNodes
  completion : 0 < sel.planNumNodes →
    sel.completionTime = sel.startTime + job.estimatedProcessing

/-- What holds before every pass: the array is filled beyond the complete chunks by
less than one chunk, and after a complete chunk the start is the latest time of the
array. -/
structure SelectionInv (slots : List FirstFreeSlot) (job : PlanJob) (sel : Selection) : Prop
    extends ChoiceInv slots job sel where
  chunks_le : sel.planNumNodes * job.reqPpn ≤ sel.cpuIndexes.length
  lt_chunks : sel.cpuIndexes.length < (sel.planNumNodes + 1) * job.reqPpn
  start_latest : 0 < sel.planNumNodes →
    sel.cpuIndexes.length = sel.planNumNodes * job.reqPpn →
      ∀ c ∈ sel.cpuIndexes, slotTime slots c ≤ sel.startTime

/-- The slots a job may use at the start of `update_job` are in service. -/
theorem slotAvailability_down {cluster : PlanCluster} {job : PlanJob} {wiped : Bool}
    {slot : FirstFreeSlot} {a : SlotAvailability} (hslot : slot.time = -1)
    (h : slotAvailability cluster job wiped slot = .ok a) : a.usable = false := by
  unfold slotAvailability at h
  rw [if_pos hslot] at h
  cases h
  rfl

/-- The invariant holds before the loop. -/
theorem initial_inv {cluster : PlanCluster} {slots : List FirstFreeSlot} {job : PlanJob}
    {wiped : Bool} {avail : List SlotAvailability}
    (h : slots.mapM (slotAvailability cluster job wiped) = .ok avail)
    (fixedNnameArr : List (Option String)) :
    SelectionInv slots job (Selection.initial job fixedNnameArr avail) := by
  have hppn := job.reqPpn_pos
  refine ⟨⟨?_, ?_, List.Pairwise.nil, Nat.zero_le _, rfl, ?_⟩, ?_, ?_, ?_⟩
  · intro c a hdown ha
    obtain ⟨slot, hslot, hcell⟩ := exists_of_mapM_getElem? h ha
    rw [slotTime_of_getElem? hslot] at hdown
    exact slotAvailability_down hdown hcell
  · intro c hc
    cases hc
  · intro hpos
    exact absurd hpos (Nat.lt_irrefl 0)
  · show 0 * job.reqPpn ≤ 0
    omega
  · show 0 < (0 + 1) * job.reqPpn
    omega
  · intro hpos
    exact absurd hpos (Nat.lt_irrefl 0)

/-- What entering CPU `c` does: an attempt of the node is marked, and `c` joins the
array, which an abandoned node has cut back to the complete chunks. -/
theorem enterCpu_considerNode (slots : List FirstFreeSlot) (job : PlanJob) (sel : Selection)
    (c ninfo : ℕ) :
    ∃ attempt kept, sel.planNumNodes * job.reqPpn ≤ kept ∧
      (enterCpu slots (considerNode job sel c ninfo) c).avail = sel.avail.set c (.tried attempt) ∧
      (enterCpu slots (considerNode job sel c ninfo) c).cpuIndexes =
        insertByTime (slotTime slots) c (sel.cpuIndexes.take kept) := by
  unfold considerNode
  split
  · exact ⟨sel.attemptCount + 1, sel.planNumNodes * job.reqPpn, le_rfl, rfl, rfl⟩
  · refine ⟨sel.attemptCount, max sel.cpuIndexes.length (sel.planNumNodes * job.reqPpn),
      le_max_right _ _, rfl, ?_⟩
    rw [List.take_of_length_le (le_max_left _ _)]
    rfl

/-- The other variables that entering a CPU keeps. -/
theorem considerNode_keeps (job : PlanJob) (sel : Selection) (c ninfo : ℕ) :
    (considerNode job sel c ninfo).planNumNodes = sel.planNumNodes ∧
      (considerNode job sel c ninfo).latestNcpuIndex = sel.latestNcpuIndex ∧
      (considerNode job sel c ninfo).startTime = sel.startTime ∧
      (considerNode job sel c ninfo).completionTime = sel.completionTime ∧
      (considerNode job sel c ninfo).ninfoArr = sel.ninfoArr := by
  unfold considerNode
  split <;> exact ⟨rfl, rfl, rfl, rfl, rfl⟩

/-- Forbidding a node makes no slot usable. -/
theorem usable_of_prohibitNode {slots : List FirstFreeSlot} {ninfo : ℕ}
    {avail : List SlotAvailability} {c : ℕ} {a : SlotAvailability}
    (h : (prohibitNode slots ninfo avail)[c]? = some a) (ha : a.usable = true) :
    avail[c]? = some a := by
  unfold prohibitNode at h
  rw [List.getElem?_mapIdx] at h
  obtain ⟨b, hb, rfl⟩ := Option.map_eq_some_iff.mp h
  split at ha
  · cases ha
  · next hnot => rwa [if_neg hnot]

/-- Taking the CPUs of a chunk out makes no slot usable. -/
theorem usable_of_foldl_alreadyUsed {c : ℕ} {a : SlotAvailability} (cpus : List ℕ) :
    ∀ {avail : List SlotAvailability},
      (cpus.foldl (fun avail c => avail.set c .alreadyUsed) avail)[c]? = some a →
      a.usable = true → avail[c]? = some a := by
  induction cpus with
  | nil =>
      intro avail h _
      exact h
  | cons d cpus ih =>
      intro avail h ha
      rw [List.foldl_cons] at h
      have hset := ih h ha
      rw [List.getElem?_set] at hset
      split at hset
      · split at hset
        · cases hset
          cases ha
        · cases hset
      · exact hset

/-- Taking the CPUs of a chunk out keeps the number of cells. -/
theorem length_foldl_alreadyUsed (cpus : List ℕ) : ∀ avail : List SlotAvailability,
    (cpus.foldl (fun avail c => avail.set c .alreadyUsed) avail).length = avail.length := by
  induction cpus with
  | nil =>
      intro avail
      rfl
  | cons c cpus ih =>
      intro avail
      rw [List.foldl_cons, ih, List.length_set]

/-- What a complete chunk fixes. -/
theorem completeChunk_spec {cluster : PlanCluster} {slots : List FirstFreeSlot} {job : PlanJob}
    {wiped : Bool} {sel sel' : Selection} {ninfo : ℕ}
    (h : completeChunk cluster slots job wiped sel ninfo = .ok sel') :
    sel.planNumNodes < job.reqNumNodes ∧ sel'.planNumNodes = sel.planNumNodes + 1 ∧
      sel'.cpuIndexes = sel.cpuIndexes ∧
      (∃ last, sel.cpuIndexes.getLast? = some last ∧ sel'.startTime = slotTime slots last) ∧
      sel'.completionTime = sel'.startTime + job.estimatedProcessing ∧
      sel'.latestNcpuIndex.length = sel.latestNcpuIndex.length + 1 ∧
      ∀ (c : ℕ) (a : SlotAvailability), sel'.avail[c]? = some a → a.usable = true →
        sel.avail[c]? = some a := by
  unfold completeChunk at h
  split at h
  · cases h
  · next hnodes =>
      obtain ⟨node, -, h⟩ := bind_ok.mp h
      obtain ⟨last, hlast, h⟩ := bind_ok.mp h
      obtain ⟨latest, -, h⟩ := bind_ok.mp h
      cases pure_ok.mp h
      refine ⟨by omega, rfl, rfl, ⟨last, deref_ok.mp hlast, rfl⟩, rfl, ?_, ?_⟩
      · exact List.length_append
      · intro c a hc ha
        dsimp only at hc
        split at hc
        · exact usable_of_foldl_alreadyUsed _ (usable_of_prohibitNode hc ha) ha
        · exact usable_of_foldl_alreadyUsed _ hc ha

/-- What a complete chunk enters, resets and keeps. -/
structure ChunkReset (sel : Selection) (wiped : Bool) (ninfo : ℕ) (sel' : Selection) : Prop where
  ninfoArr_eq : sel'.ninfoArr = sel.ninfoArr.set sel.planNumNodes (some ninfo)
  tmpCpuArr_eq : sel'.tmpCpuArr = []
  considered_eq : sel'.consideredNode = none
  avail_length : sel'.avail.length = sel.avail.length
  attempt_eq : sel'.attemptCount = sel.attemptCount
  fixed_eq : wiped = false → sel'.fixedNnameArr = sel.fixedNnameArr

/-- The completion of a chunk is such a one. -/
theorem completeChunk_reset {cluster : PlanCluster} {slots : List FirstFreeSlot} {job : PlanJob}
    {wiped : Bool} {sel sel' : Selection} {ninfo : ℕ}
    (h : completeChunk cluster slots job wiped sel ninfo = .ok sel') :
    ChunkReset sel wiped ninfo sel' := by
  unfold completeChunk at h
  split at h
  · cases h
  · obtain ⟨node, -, h⟩ := bind_ok.mp h
    obtain ⟨last, -, h⟩ := bind_ok.mp h
    obtain ⟨latest, -, h⟩ := bind_ok.mp h
    cases pure_ok.mp h
    refine ⟨rfl, rfl, rfl, ?_, rfl, ?_⟩
    · dsimp only
      split
      · rw [prohibitNode, List.length_mapIdx, length_foldl_alreadyUsed]
      · exact length_foldl_alreadyUsed _ _
    · intro hwiped
      subst hwiped
      rfl

/-- The body of the loop for a slot of node `n`. -/
theorem takeCpu_eq {cluster : PlanCluster} {slots : List FirstFreeSlot} {job : PlanJob}
    {wiped : Bool} {sel : Selection} {c n : ℕ} {slot : FirstFreeSlot}
    (hslot : slots[c]? = some slot) (hnode : slot.ninfo = n) :
    takeCpu cluster slots job wiped sel c
      = if (enterCpu slots (considerNode job sel c n) c).cpuIndexes.length
          = ((enterCpu slots (considerNode job sel c n) c).planNumNodes + 1) * job.reqPpn then
        completeChunk cluster slots job wiped (enterCpu slots (considerNode job sel c n) c) n
      else .ok (enterCpu slots (considerNode job sel c n) c) := by
  subst hnode
  unfold takeCpu
  rw [getAt_ok.mpr hslot]
  rfl

/-- The body of the loop reads the slot of the CPU it takes. -/
theorem exists_slot_of_takeCpu {cluster : PlanCluster} {slots : List FirstFreeSlot}
    {job : PlanJob} {wiped : Bool} {sel sel' : Selection} {c : ℕ}
    (h : takeCpu cluster slots job wiped sel c = .ok sel') : ∃ slot, slots[c]? = some slot := by
  unfold takeCpu at h
  obtain ⟨slot, hslot, -⟩ := bind_ok.mp h
  exact ⟨slot, getAt_ok.mp hslot⟩

/-- A slot that may be chosen is in service. -/
theorem ChoiceInv.free_of_ithSmallest {slots : List FirstFreeSlot} {job : PlanJob}
    {sel : Selection} (hinv : ChoiceInv slots job sel) {c : ℕ}
    (hc : ithSmallest slots sel = some c) : slotTime slots c ≠ -1 := by
  obtain ⟨slot, -, hok⟩ := ithSmallest_spec hc
  obtain ⟨a, ha, husable⟩ := usable_of_eligible hok
  intro hdown
  rw [hinv.down_unusable c a hdown ha] at husable
  cases husable

/-- Entering a CPU in service keeps what always holds. -/
theorem ChoiceInv.enterCpu {slots : List FirstFreeSlot} {job : PlanJob} {sel : Selection}
    (hinv : ChoiceInv slots job sel) {c : ℕ} (hfree : slotTime slots c ≠ -1) (ninfo : ℕ) :
    ChoiceInv slots job (enterCpu slots (considerNode job sel c ninfo) c) := by
  obtain ⟨attempt, kept, -, havail, hcpus⟩ := enterCpu_considerNode slots job sel c ninfo
  obtain ⟨hplan, hlatest, hstart, hcompletion, -⟩ := considerNode_keeps job sel c ninfo
  constructor
  case down_unusable =>
    intro d a hd ha
    have hne : c ≠ d := by
      rintro rfl
      exact hfree hd
    rw [havail, List.getElem?_set_ne hne] at ha
    exact hinv.down_unusable d a hd ha
  case chosen_free =>
    intro d hd
    rw [hcpus] at hd
    rcases List.mem_cons.mp ((perm_insertByTime _ _ _).mem_iff.mp hd) with rfl | hd
    · exact hfree
    · exact hinv.chosen_free d (List.mem_of_mem_take hd)
  case byTime =>
    rw [hcpus]
    exact insertByTime_byTime c (hinv.byTime.sublist (List.take_sublist _ _))
  case nodes_le => exact hplan.le.trans hinv.nodes_le
  case latest_length =>
    exact (congrArg List.length hlatest).trans (hinv.latest_length.trans hplan.symm)
  case completion =>
    intro hpos
    have hsum := hinv.completion (hplan ▸ hpos)
    rw [← hstart, ← hcompletion] at hsum
    exact hsum

/-- A complete chunk keeps what always holds. -/
theorem ChoiceInv.completeChunk {cluster : PlanCluster} {slots : List FirstFreeSlot}
    {job : PlanJob} {wiped : Bool} {sel sel' : Selection} {ninfo : ℕ}
    (hinv : ChoiceInv slots job sel)
    (h : completeChunk cluster slots job wiped sel ninfo = .ok sel') :
    ChoiceInv slots job sel' := by
  obtain ⟨hnodes, hplan, hcpus, -, hcompletion, hlatest, havail⟩ := completeChunk_spec h
  constructor
  case down_unusable =>
    intro d a hd ha
    by_contra husable
    rw [Bool.not_eq_false] at husable
    rw [hinv.down_unusable d a hd (havail d a ha husable)] at husable
    cases husable
  case chosen_free =>
    rw [hcpus]
    exact hinv.chosen_free
  case byTime =>
    rw [hcpus]
    exact hinv.byTime
  case nodes_le =>
    omega
  case latest_length =>
    rw [hlatest, hplan, hinv.latest_length]
  case completion => exact fun _ => hcompletion

/-- The invariant is kept by one pass of the loop. -/
theorem takeCpu_inv {cluster : PlanCluster} {slots : List FirstFreeSlot} {job : PlanJob}
    {wiped : Bool} {sel sel' : Selection} {c : ℕ} (hinv : SelectionInv slots job sel)
    (hc : ithSmallest slots sel = some c)
    (h : takeCpu cluster slots job wiped sel c = .ok sel') : SelectionInv slots job sel' := by
  obtain ⟨slot, hslot⟩ := exists_slot_of_takeCpu h
  rw [takeCpu_eq hslot rfl] at h
  have hentered := hinv.toChoiceInv.enterCpu (hinv.free_of_ithSmallest hc) slot.ninfo
  obtain ⟨attempt, kept, hkept, -, hcpus⟩ := enterCpu_considerNode slots job sel c slot.ninfo
  obtain ⟨hplan, -⟩ := considerNode_keeps job sel c slot.ninfo
  have hplan' : (enterCpu slots (considerNode job sel c slot.ninfo) c).planNumNodes
      = sel.planNumNodes := hplan
  generalize enterCpu slots (considerNode job sel c slot.ninfo) c = entered
    at h hentered hcpus hplan'
  have hlength : entered.cpuIndexes.length = min kept sel.cpuIndexes.length + 1 := by
    rw [hcpus, length_insertByTime, List.length_take]
  have hlower := hinv.chunks_le
  have hupper := hinv.lt_chunks
  have hppn := job.reqPpn_pos
  rw [Nat.add_mul, one_mul] at hupper
  split at h
  · next hfull =>
      -- the chunk is complete: its last CPU gives the start
      obtain ⟨-, hplan₁, hcpus₁, ⟨last, hlast, hstart⟩, -⟩ := completeChunk_spec h
      refine ⟨hentered.completeChunk h, ?_, ?_, ?_⟩
      · rw [hcpus₁, hplan₁, hfull]
      · rw [hcpus₁, hplan₁, hfull, Nat.add_mul (_ + 1) 1, one_mul]
        omega
      · intro _ _ d hd
        rw [hcpus₁] at hd
        rw [hstart]
        exact hentered.byTime.le_getLast hlast hd
  · next hnot =>
      obtain rfl := Except.ok.inj h
      rw [hplan', Nat.add_mul, one_mul] at hnot
      refine ⟨hentered, ?_, ?_, ?_⟩
      · rw [hlength, hplan']
        omega
      · rw [hplan', Nat.add_mul, one_mul]
        omega
      · intro _ hexact
        rw [hplan'] at hexact
        omega

/-- A pass adds at most one CPU. -/
theorem takeCpu_length_le {cluster : PlanCluster} {slots : List FirstFreeSlot} {job : PlanJob}
    {wiped : Bool} {sel sel' : Selection} {c : ℕ}
    (h : takeCpu cluster slots job wiped sel c = .ok sel') :
    sel'.cpuIndexes.length ≤ sel.cpuIndexes.length + 1 := by
  obtain ⟨slot, hslot⟩ := exists_slot_of_takeCpu h
  rw [takeCpu_eq hslot rfl] at h
  obtain ⟨attempt, kept, -, -, hcpus⟩ := enterCpu_considerNode slots job sel c slot.ninfo
  have hlength : (enterCpu slots (considerNode job sel c slot.ninfo) c).cpuIndexes.length
      = min kept sel.cpuIndexes.length + 1 := by
    rw [hcpus, length_insertByTime, List.length_take]
  split at h
  · obtain ⟨-, -, hcpus₁, -⟩ := completeChunk_spec h
    rw [hcpus₁, hlength]
    omega
  · rw [← Except.ok.inj h, hlength]
    omega

/-- What a pass of the loop keeps holds when the loop ends, and enough CPUs are chosen then. -/
theorem selectCpus_keeps {cluster : PlanCluster} {slots : List FirstFreeSlot} {job : PlanJob}
    {wiped : Bool} {P : Selection → Prop}
    (hpass : ∀ {sel sel' : Selection} {c : ℕ}, P sel → sel.cpuIndexes.length < job.usage →
      ithSmallest slots sel = some c → takeCpu cluster slots job wiped sel c = .ok sel' → P sel')
    (fuel : ℕ) : ∀ {sel sel' : Selection}, P sel →
      selectCpus cluster slots job wiped fuel sel = .ok (some sel') →
      P sel' ∧ job.usage ≤ sel'.cpuIndexes.length := by
  induction fuel with
  | zero =>
      intro sel sel' _ h
      rw [selectCpus] at h
      cases h
  | succ fuel ih =>
      intro sel sel' hsel h
      rw [selectCpus] at h
      split at h
      · next hlt =>
          cases hc : ithSmallest slots sel with
          | none =>
              -- no CPU was left: the loop returns no choice
              rw [hc] at h
              cases h
          | some c =>
              rw [hc] at h
              obtain ⟨sel₁, h₁, h₂⟩ := bind_ok.mp h
              exact ih (hpass hsel hlt hc h₁) h₂
      · next hge =>
          cases h
          exact ⟨hsel, not_lt.mp hge⟩

/-- The invariant holds when the loop ends, and as many CPUs are chosen then as the
job uses. -/
theorem selectCpus_inv {cluster : PlanCluster} {slots : List FirstFreeSlot} {job : PlanJob}
    {wiped : Bool} (fuel : ℕ) {sel sel' : Selection} (hinv : SelectionInv slots job sel)
    (husage : sel.cpuIndexes.length ≤ job.usage)
    (h : selectCpus cluster slots job wiped fuel sel = .ok (some sel')) :
    SelectionInv slots job sel' ∧ sel'.cpuIndexes.length = job.usage := by
  have hloop := selectCpus_keeps
    (P := fun sel => SelectionInv slots job sel ∧ sel.cpuIndexes.length ≤ job.usage)
    (fun {sel sel' c} hsel hlt hc hstep => by
      refine ⟨takeCpu_inv hsel.1 hc hstep, ?_⟩
      have := takeCpu_length_le hstep
      omega) fuel ⟨hinv, husage⟩ h
  obtain ⟨⟨hinv', hle⟩, hge⟩ := hloop
  exact ⟨hinv', le_antisymm hle hge⟩

end PlanSched
