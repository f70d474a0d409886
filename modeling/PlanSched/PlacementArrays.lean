/-
# The arrays of a placement

`job_fillin` (`plan_jobs.cpp`) sizes `ninfo_arr`, `latest_ncpu_index` and
`fixed_nname_arr` by the request `nodect` and `tmp_cpu_arr` by `procs / nodect`, but the
loop of `update_job` (`plan_operations.cpp`) runs until `procs` CPUs are chosen.  If
`procs` is no multiple of `nodect`, CPUs remain when all nodes are complete: as many as
a chunk make it complete one node too many, fewer are chosen without moving the start.

* `LoopReaches`: the states of the loop, `WritesInRange`: the indexes of one pass;
* `ArraysSafe`: what is asked for, on every slot table;
* `arraysSafe_iff`: it holds exactly for shared jobs whose `procs` are a multiple of
  `nodect` or at most `nodect`.  An exclusive job may start before its CPUs are free,
  because `find_earliest_node` does not count the first slot of a node (`NodeSearch`).
-/
import PlanSched.ChunkChoice
import PlanSched.NodeSearch

namespace PlanSched

open CheckedRun

/-! ## What is asked for -/

/-- The states the loop of `update_job` goes through from `sel₀` on. -/
inductive LoopReaches (cluster : PlanCluster) (slots : List FirstFreeSlot) (job : PlanJob)
    (wiped : Bool) (sel₀ : Selection) : Selection → Prop
  | start : LoopReaches cluster slots job wiped sel₀ sel₀
  | pass {sel sel' : Selection} {c : ℕ} (h : LoopReaches cluster slots job wiped sel₀ sel)
      (hlt : sel.cpuIndexes.length < job.usage) (hc : ithSmallest slots sel = some c)
      (hstep : takeCpu cluster slots job wiped sel c = .ok sel') :
      LoopReaches cluster slots job wiped sel₀ sel'

/-- The variables with which `update_job` enters the loop. -/
def LoopStarts (cluster : PlanCluster) (slots : List FirstFreeSlot) (job : PlanJob)
    (sel₀ : Selection) : Prop :=
  ∃ avail, slots.mapM (slotAvailability cluster job (wipeFixedNodes job).2) = .ok avail ∧
    sel₀ = Selection.initial job (wipeFixedNodes job).1 avail

/-- The indexes the pass for CPU `c` writes to: `job_cpu - plan_num_nodes * req_ppn` in
`tmp_cpu_arr`, and when the chunk is complete `plan_num_nodes` in the other arrays. -/
def WritesInRange (job : PlanJob) (sel : Selection) (c ninfo : ℕ) : Prop :=
  let jobCpu := (considerNode job sel c ninfo).cpuIndexes.length
  jobCpu - sel.planNumNodes * job.reqPpn < job.reqPpn ∧
    (jobCpu + 1 = (sel.planNumNodes + 1) * job.reqPpn → sel.planNumNodes < job.reqNumNodes)

/-- The two are the same request, at different times of its planning. -/
structure PlanJob.SameRequest (job job' : PlanJob) : Prop where
  jinfo_eq : job'.jinfo = job.jinfo
  usage_eq : job'.usage = job.usage
  reqPpn_eq : job'.reqPpn = job.reqPpn
  reqNumNodes_eq : job'.reqNumNodes = job.reqNumNodes

/-- The arrays of the job are never overrun, and no CPU that is chosen is free later than
the job starts, whenever `update_job` runs on the job and whatever the slot table is. -/
structure ArraysSafe (job : PlanJob) : Prop where
  writes : ∀ (job' : PlanJob) (cluster : PlanCluster) (slots : List FirstFreeSlot)
    (sel₀ sel : Selection) (c : ℕ) (slot : FirstFreeSlot), job.SameRequest job' →
    job.jinfo.isExclusive = false → LoopStarts cluster slots job' sel₀ →
    LoopReaches cluster slots job' (wipeFixedNodes job').2 sel₀ sel →
    sel.cpuIndexes.length < job'.usage → ithSmallest slots sel = some c →
    slots[c]? = some slot → WritesInRange job' sel c slot.ninfo
  start : ∀ (job' : PlanJob) (conf : LimitsForClusters) (cluster : PlanCluster)
    (values : LimitsValues) (limits : List PlanLimit) (slots : List FirstFreeSlot)
    (update : JobUpdate), job.SameRequest job' → LimitsInv limits →
    updateJob conf cluster values limits slots job' = .ok (some update) →
    ∀ c ∈ update.job.cpuIndexes, slotTime slots c ≤ update.job.startTime

/-! ## Requests that fit -/

/-- The invariant of the loop holds in every state it goes through. -/
theorem LoopReaches.inv {cluster : PlanCluster} {slots : List FirstFreeSlot} {job : PlanJob}
    {sel₀ sel : Selection} (hstart : LoopStarts cluster slots job sel₀)
    (h : LoopReaches cluster slots job (wipeFixedNodes job).2 sel₀ sel) :
    SelectionInv slots job sel := by
  induction h with
  | start =>
      obtain ⟨avail, havail, rfl⟩ := hstart
      exact initial_inv havail _
  | pass _ _ hc hstep ih => exact takeCpu_inv ih hc hstep

/-- To consider a node keeps the array or cuts it back to the complete chunks. -/
theorem considerNode_length (job : PlanJob) (sel : Selection) (c ninfo : ℕ) :
    (considerNode job sel c ninfo).cpuIndexes.length = sel.cpuIndexes.length ∨
      (considerNode job sel c ninfo).cpuIndexes.length
        = min (sel.planNumNodes * job.reqPpn) sel.cpuIndexes.length := by
  unfold considerNode
  split
  · exact Or.inr (List.length_take ..)
  · exact Or.inl rfl

/-- If the chunks hold all CPUs the job uses, every index is in range. -/
theorem writesInRange_of_fits {slots : List FirstFreeSlot} {job : PlanJob} {sel : Selection}
    (hinv : SelectionInv slots job sel) (hfits : job.usage ≤ job.reqPpn * job.reqNumNodes)
    (hlt : sel.cpuIndexes.length < job.usage) (c ninfo : ℕ) : WritesInRange job sel c ninfo := by
  have hlower := hinv.chunks_le
  have hupper := hinv.lt_chunks
  have hppn := job.reqPpn_pos
  rw [Nat.add_mul, one_mul] at hupper
  have hlength := considerNode_length job sel c ninfo
  unfold WritesInRange
  dsimp only
  generalize (considerNode job sel c ninfo).cpuIndexes.length = jobCpu at hlength
  constructor
  · omega
  · intro hfull
    by_contra hge
    have hmul : job.reqPpn * job.reqNumNodes ≤ sel.planNumNodes * job.reqPpn := by
      rw [Nat.mul_comm]
      exact Nat.mul_le_mul_right _ (not_lt.mp hge)
    omega

/-- A shared job whose chunks hold all its CPUs is safe. -/
theorem arraysSafe_of_fits {job : PlanJob} (hshared : job.jinfo.isExclusive = false)
    (hfits : job.usage ≤ job.reqPpn * job.reqNumNodes) : ArraysSafe job := by
  constructor
  · intro job' cluster slots sel₀ sel c slot hsame _ hstart hreach hlt _ _
    refine writesInRange_of_fits (hreach.inv hstart) ?_ hlt c slot.ninfo
    rw [hsame.usage_eq, hsame.reqPpn_eq, hsame.reqNumNodes_eq]
    exact hfits
  · intro job' conf cluster values limits slots update hsame hlimits h c hc
    have hshared' : job'.jinfo.isExclusive = false := by
      rw [hsame.jinfo_eq, hshared]
    rw [updateJob_shared hshared'] at h
    obtain ⟨hplace, -, -⟩ := updateSharedJob_spec hlimits.increasing h
    refine hplace.start_latest ?_ c hc
    rw [hplace.usage_eq, hplace.reqPpn_eq, hplace.reqNumNodes_eq, hsame.usage_eq,
      hsame.reqPpn_eq, hsame.reqNumNodes_eq]
    exact hfits

/-- For a job as `job_fillin` leaves it, the chunks hold all CPUs exactly if `procs` is a
multiple of `nodect` or at most `nodect`. -/
theorem fits_iff {usage nodes ppn : ℕ} (hnodes : 0 < nodes) (hppn : ppn = max (usage / nodes) 1) :
    usage ≤ ppn * nodes ↔ nodes ∣ usage ∨ usage ≤ nodes := by
  subst hppn
  by_cases hle : usage ≤ nodes
  · refine iff_of_true ?_ (Or.inr hle)
    exact hle.trans (Nat.le_mul_of_pos_left _ (by omega))
  · have hdiv : 1 ≤ usage / nodes := (Nat.one_le_div_iff hnodes).mpr (by omega)
    rw [max_eq_left hdiv]
    constructor
    · intro h
      left
      have hmod := Nat.div_add_mod usage nodes
      rw [Nat.mul_comm] at hmod
      exact Nat.dvd_of_mod_eq_zero (by omega)
    · rintro (h | h)
      · exact (Nat.div_mul_cancel h).ge
      · exact absurd h hle

/-! ## When `update_job` returns -/

section Returns

variable {cluster : PlanCluster} {slots : List FirstFreeSlot} {job : PlanJob}

/-- Every slot of the table belongs to a node of the cluster. -/
def OnNodes (cluster : PlanCluster) (slots : List FirstFreeSlot) : Prop :=
  ∀ place ∈ layout slots, place.1 < cluster.nodes.length

/-- The node of a slot is one of the cluster. -/
theorem OnNodes.node_lt (h : OnNodes cluster slots) {slot : FirstFreeSlot} (hslot : slot ∈ slots) :
    slot.ninfo < cluster.nodes.length :=
  h slot.place (List.mem_map_of_mem hslot)

/-- Tables of one layout have the same length. -/
theorem length_eq_of_layout {slots slots' : List FirstFreeSlot}
    (h : layout slots' = layout slots) : slots'.length = slots.length := by
  have := congrArg List.length h
  unfold layout at this
  rwa [List.length_map, List.length_map] at this

/-- Reading CPUs of the table returns. -/
theorem mapM_getAt_returns {cpus : List ℕ} (hcpus : ∀ c ∈ cpus, c < slots.length) :
    ∃ own, cpus.mapM (fun c => getAt slots c) = .ok own := by
  obtain ⟨own, hown, -⟩ := @mapM_exists _ _ (fun _ _ => True) (fun c => getAt slots c) cpus
    (fun c hc => ⟨_, getAt_ok.mpr (List.getElem?_eq_getElem (hcpus c hc)), trivial⟩)
  exact ⟨own, hown⟩

/-- The gaps in front of a job are made from any CPUs of the table. -/
theorem gapsOfJob_returns (hjob : ∀ c ∈ job.cpuIndexes, c < slots.length) (cpus : List ℕ) :
    ∀ gapStart, (∀ c ∈ cpus, c < slots.length) →
      ∃ gaps, gapsOfJob job slots cpus gapStart = .ok gaps := by
  obtain ⟨own, hown⟩ := mapM_getAt_returns hjob
  induction cpus with
  | nil =>
      intro gapStart _
      exact ⟨[], rfl⟩
  | cons c cpus ih =>
      intro gapStart hcpus
      have hlt := hcpus c List.mem_cons_self
      have hrest : ∀ d ∈ cpus, d < slots.length :=
        fun d hd => hcpus d (List.mem_cons_of_mem _ hd)
      rw [gapsOfJob, getAt_ok.mpr (List.getElem?_eq_getElem hlt)]
      simp only [bind, Except.bind]
      generalize (if gapStart = -1 then slots[c].time else gapStart) = start
      by_cases hgap : start ≠ slots[c].time
      · obtain ⟨gaps, hgaps⟩ := ih slots[c].time hrest
        unfold gapMemoryCreate
        rw [if_pos hgap, hown, hgaps]
        exact ⟨_, rfl⟩
      · rw [if_neg hgap]
        exact ih start hrest

/-- The update of a node returns and keeps the layout. -/
theorem updateNode_returns (hnodes : OnNodes cluster slots) (own : ℕ → Bool) {c : ℕ}
    (hc : c < slots.length) :
    ∃ slots', updateNode cluster job own slots c = .ok slots' ∧
      layout slots' = layout slots := by
  have hnode : slots[c].ninfo < cluster.nodes.length := hnodes.node_lt (List.getElem_mem hc)
  have hrun : ∃ slots', updateNode cluster job own slots c = .ok slots' := by
    unfold updateNode
    rw [getAt_ok.mpr (List.getElem?_eq_getElem hc)]
    simp only [bind, Except.bind]
    rw [getAt_ok.mpr (List.getElem?_eq_getElem hnode)]
    exact ⟨_, rfl⟩
  obtain ⟨slots', h⟩ := hrun
  exact ⟨slots', h, updateNode_layout h⟩

/-- `first_free_slots_update` returns if a CPU of the table is remembered for each node. -/
theorem firstFreeSlotsUpdate_returns (hnodes : OnNodes cluster slots)
    (hlength : job.reqNumNodes ≤ job.latestNcpuIndex.length)
    (hlatest : ∀ c ∈ job.latestNcpuIndex, c < slots.length) :
    ∃ slots', firstFreeSlotsUpdate cluster job slots = .ok slots' := by
  unfold firstFreeSlotsUpdate
  have hrange : ∀ j ∈ List.range job.reqNumNodes, j < job.latestNcpuIndex.length := by
    intro j hj
    have := List.mem_range.mp hj
    omega
  generalize List.range job.reqNumNodes = js at hrange
  induction js generalizing slots with
  | nil => exact ⟨slots, rfl⟩
  | cons j js ih =>
      have hj := hrange j List.mem_cons_self
      have hc := hlatest _ (List.getElem_mem hj)
      obtain ⟨slots₁, h₁, hlayout⟩ := @updateNode_returns cluster slots job hnodes
        (fun c => job.cpuIndexes.contains c) _ hc
      have hlen := length_eq_of_layout hlayout
      rw [List.foldlM_cons, getAt_ok.mpr (List.getElem?_eq_getElem hj)]
      simp only [bind, Except.bind]
      rw [h₁]
      refine ih ?_ ?_ (fun k hk => hrange k (List.mem_cons_of_mem _ hk))
      · unfold OnNodes
        rw [hlayout]
        exact hnodes
      · rw [hlen]
        exact hlatest

/-- A node with slots has a first one. -/
theorem firstSlotOf_returns {n : ℕ} (h : ∃ place ∈ layout slots, place.1 = n) :
    ∃ c, firstSlotOf slots (some n) = some c ∧ c < slots.length := by
  obtain ⟨place, hplace, rfl⟩ := h
  obtain ⟨slot, hslot, rfl⟩ := List.mem_map.mp hplace
  unfold firstSlotOf
  cases hfind : slots.findIdx? (fun s => some s.ninfo == some slot.place.1) with
  | none =>
      have hno := List.findIdx?_eq_none_iff.mp hfind slot hslot
      simp [FirstFreeSlot.place] at hno
  | some c => exact ⟨c, rfl, (List.findIdx?_eq_some_iff_findIdx_eq.mp hfind).1⟩

/-- `first_free_slots_update_exclusive` returns if every node of the job has slots. -/
theorem firstFreeSlotsUpdateExclusive_returns (hnodes : OnNodes cluster slots)
    (hlength : job.reqNumNodes ≤ job.ninfoArr.length)
    (hplaces : ∀ node ∈ job.ninfoArr, ∃ n, node = some n ∧ ∃ place ∈ layout slots, place.1 = n) :
    ∃ slots', firstFreeSlotsUpdateExclusive cluster job slots = .ok slots' := by
  unfold firstFreeSlotsUpdateExclusive
  generalize ownsNodeOf job slots = own
  have hrange : ∀ j ∈ List.range job.reqNumNodes, j < job.ninfoArr.length := by
    intro j hj
    have := List.mem_range.mp hj
    omega
  generalize List.range job.reqNumNodes = js at hrange
  -- a pass leaves the layout of the table, so the next node still has slots
  have hfold : ∀ first : Option ℕ, ∃ state, js.foldlM
      (fun (state : Option ℕ × List FirstFreeSlot) j => do
        let node ← getAt job.ninfoArr j
        let first := (firstSlotOf state.2 node).or state.1
        let firstCpuNode ← deref first
        let slots ← updateNode cluster job own state.2 firstCpuNode
        return (first, slots)) (first, slots) = (.ok state : Run _) := by
    induction js generalizing slots with
    | nil =>
        intro first
        exact ⟨_, rfl⟩
    | cons j js ih =>
        intro first
        have hj := hrange j List.mem_cons_self
        obtain ⟨n, hn, hplace⟩ := hplaces _ (List.getElem_mem hj)
        obtain ⟨c, hfirst, hc⟩ := firstSlotOf_returns hplace
        obtain ⟨slots₁, h₁, hlayout⟩ := @updateNode_returns cluster slots job hnodes own _ hc
        have hnodes₁ : OnNodes cluster slots₁ := by
          unfold OnNodes
          rw [hlayout]
          exact hnodes
        obtain ⟨state, hstate⟩ := ih hnodes₁ (by rw [hlayout]; exact hplaces)
          (fun k hk => hrange k (List.mem_cons_of_mem _ hk)) (some c)
        refine ⟨state, ?_⟩
        rw [List.foldlM_cons]
        refine bind_ok.mpr ⟨(some c, slots₁), ?_, hstate⟩
        refine bind_ok.mpr ⟨some n, ?_, ?_⟩
        · rw [getAt_ok, List.getElem?_eq_getElem hj, hn]
        · dsimp only
          rw [hfirst]
          exact bind_ok.mpr ⟨c, rfl, bind_ok.mpr ⟨slots₁, h₁, rfl⟩⟩
  obtain ⟨state, hstate⟩ := hfold none
  exact ⟨state.2, bind_ok.mpr ⟨state, hstate, rfl⟩⟩

/-- An empty profile leaves the job alone. -/
theorem adjustJob_nil {conf : LimitsForClusters} {values : LimitsValues} {c : ℕ}
    (hclass : walltimeSuitsToLimit conf job.estimatedProcessing cluster = .ok c) :
    adjustJobStarttimeAccordingToLimits conf cluster values [] job = .ok job := by
  unfold adjustJobStarttimeAccordingToLimits
  rw [hclass]
  rfl

/-- `update_job` returns with the place it chose, if the profile is empty and the CPUs are
slots of the table. -/
theorem updateSharedJob_returns {conf : LimitsForClusters} {values : LimitsValues} {c : ℕ}
    {placed : PlanJob} (hplaced : placeShared cluster job slots = .ok (some placed))
    (hclass : walltimeSuitsToLimit conf placed.estimatedProcessing cluster = .ok c)
    (hnodes : OnNodes cluster slots) (hcpus : ∀ c ∈ placed.cpuIndexes, c < slots.length)
    (hlength : placed.reqNumNodes ≤ placed.latestNcpuIndex.length)
    (hlatest : ∀ c ∈ placed.latestNcpuIndex, c < slots.length) :
    ∃ update, updateSharedJob conf cluster values [] slots job = .ok (some update) ∧
      update.job = placed := by
  obtain ⟨gaps, hgaps⟩ := gapsOfJob_returns hcpus placed.cpuIndexes (-1) hcpus
  obtain ⟨slots', hslots'⟩ := firstFreeSlotsUpdate_returns hnodes hlength hlatest
  refine ⟨⟨placed, slots', gaps⟩, ?_, rfl⟩
  unfold updateSharedJob
  refine bind_ok.mpr ⟨_, hplaced, bind_ok.mpr ⟨_, adjustJob_nil hclass, ?_⟩⟩
  exact bind_ok.mpr ⟨_, hgaps, bind_ok.mpr ⟨_, hslots', rfl⟩⟩

end Returns

/-! ## Requests with a remainder

A node with as many free slots as the job wants: the loop takes them from the first to
the last.  The slots behind the complete chunks are free later than the others. -/

/-- A node in service with everything the job asks for. -/
def roomyNode (job : PlanJob) (cores : ℕ) : NodeInfo :=
  { (default : NodeInfo) with coresTotal := cores, gpu := some job.reqGpu }

/-- A slot of node `n`, free from `t` on, with everything the job asks for. -/
def roomySlot (job : PlanJob) (n : ℕ) (t : ℤ) : FirstFreeSlot :=
  { (default : FirstFreeSlot) with
    time := t
    ninfo := n
    mem := job.reqMem
    scratchLocal := job.reqScratchLocal
    availableMem := job.reqMem
    availableScratchLocal := job.reqScratchLocal }

/-- The node of such a slot. -/
@[simp] theorem roomySlot_ninfo (job : PlanJob) (n : ℕ) (t : ℤ) : (roomySlot job n t).ninfo = n :=
  rfl

/-- A job that is not fixed to nodes may use such a slot. -/
theorem slotAvailability_roomy {cluster : PlanCluster} {job : PlanJob} {n cores : ℕ} {t : ℤ}
    (hnode : cluster.nodes[n]? = some (roomyNode job cores)) (hcores : job.reqPpn ≤ cores)
    (ht : t ≠ -1) : slotAvailability cluster job true (roomySlot job n t) = .ok .free := by
  have hgpu : lacksGpu job (roomyNode job cores) = false := by
    simp [lacksGpu, roomyNode]
  have hcores' : ¬ (roomyNode job cores).coresTotal < job.reqPpn := not_lt.mpr hcores
  have htime : ¬ (roomySlot job n t).time = -1 := ht
  have hget : getAt cluster.nodes (roomySlot job n t).ninfo = .ok (roomyNode job cores) :=
    getAt_ok.mpr hnode
  unfold slotAvailability
  rw [if_neg htime, hget]
  refine bind_ok.mpr ⟨_, rfl, ?_⟩
  rw [if_neg (fun h => h.1 rfl), if_neg (fun h => h.1 rfl), if_neg (fun h => h.1 rfl), hgpu,
    if_neg (by simp), if_neg (by simp), if_neg hcores', if_neg (by simp [roomySlot]),
    if_neg (by simp [roomySlot])]
  rfl

/-- A CPU that is free no earlier than the last one is entered at the end. -/
theorem insertByTime_last {time : ℕ → ℤ} {c : ℕ} {xs : List ℕ}
    (h : ∀ last ∈ xs.getLast?, time last ≤ time c) : insertByTime time c xs = xs ++ [c] := by
  unfold insertByTime
  rcases List.eq_nil_or_concat' xs with rfl | ⟨front, last, rfl⟩
  · rfl
  · have hle := h last (by simp)
    rw [List.reverse_append, List.reverse_singleton, List.singleton_append, insertBack,
      if_neg (by omega)]
    simp

section Remainder

variable (job : PlanJob)

/-- The cluster with one node of `procs` cores. -/
def remainderCluster : PlanCluster := ⟨"", [roomyNode job job.usage], job.usage, 0, 0⟩

/-- Its slots: those of the complete chunks are free at `0`, the remainder at `10`. -/
def remainderTable : List FirstFreeSlot :=
  (List.range job.usage).map
    (fun i => roomySlot job 0 (if i < job.reqNumNodes * job.reqPpn then 0 else 10))

variable {job}

/-- The slots of the table. -/
theorem getElem?_remainderTable {i : ℕ} (hi : i < job.usage) :
    (remainderTable job)[i]?
      = some (roomySlot job 0 (if i < job.reqNumNodes * job.reqPpn then 0 else 10)) := by
  unfold remainderTable
  rw [List.getElem?_map, List.getElem?_range hi]
  rfl

/-- As many as the job wants. -/
theorem length_remainderTable : (remainderTable job).length = job.usage := by
  unfold remainderTable
  rw [List.length_map, List.length_range]

/-- The times of the slots. -/
theorem slotTime_remainderTable {i : ℕ} (hi : i < job.usage) :
    slotTime (remainderTable job) i = if i < job.reqNumNodes * job.reqPpn then 0 else 10 :=
  slotTime_of_getElem? (getElem?_remainderTable hi)

/-- All slots are slots of the node. -/
theorem onNodes_remainderTable : OnNodes (remainderCluster job) (remainderTable job) := by
  intro place hplace
  obtain ⟨slot, hslot, rfl⟩ := List.mem_map.mp hplace
  obtain ⟨i, -, rfl⟩ := List.mem_map.mp hslot
  exact Nat.zero_lt_one

/-- All slots may be used. -/
theorem avail_remainderTable (hppn : job.reqPpn ≤ job.usage) :
    (remainderTable job).mapM (slotAvailability (remainderCluster job) job true)
      = .ok (List.replicate job.usage .free) := by
  have hall := mapM_eq_replicate (f := slotAvailability (remainderCluster job) job true)
    (b := .free) (remainderTable job) ?_
  · rw [length_remainderTable] at hall
    exact hall
  · intro slot hslot
    obtain ⟨i, -, rfl⟩ := List.mem_map.mp hslot
    refine slotAvailability_roomy rfl hppn ?_
    split
    · decide
    · decide

/-- The variables of the loop when the first `i` slots are taken. -/
structure Filling (job : PlanJob) (i : ℕ) (sel : Selection) : Prop where
  free : ∀ c, i ≤ c → c < job.usage → sel.avail[c]? = some .free
  taken : ∀ c < i, sel.avail[c]? = some .alreadyUsed ∨
    sel.avail[c]? = some (.tried sel.attemptCount)
  cpus : sel.cpuIndexes = List.range i
  considered : sel.consideredNode = none ∨ sel.consideredNode = some 0
  chunk : ∀ c ∈ sel.tmpCpuArr, c < i
  nodeLatest : ∀ l ∈ sel.nodeLatest, l < i
  latest_length : sel.latestNcpuIndex.length = sel.planNumNodes
  latest : ∀ c ∈ sel.latestNcpuIndex, c < i
  start : 0 < sel.planNumNodes → sel.startTime = 0

/-- Before the loop nothing is taken. -/
theorem filling_initial (fixedNnameArr : List (Option String)) :
    Filling job 0 (Selection.initial job fixedNnameArr (List.replicate job.usage .free)) where
  free := by
    intro c _ hc
    exact List.getElem?_replicate_of_lt hc
  taken := by
    intro c hc
    omega
  cpus := rfl
  considered := Or.inl rfl
  chunk := by
    intro c hc
    cases hc
  nodeLatest := by
    intro l hl
    cases hl
  latest_length := rfl
  latest := by
    intro c hc
    cases hc
  start := by
    intro h
    exact absurd h (Nat.lt_irrefl 0)

/-- The node under consideration is the only one. -/
theorem Filling.not_abandoned {i : ℕ} {sel : Selection} (h : Filling job i sel) :
    ¬ (sel.consideredNode.isSome ∧ sel.consideredNode ≠ some 0) := by
  rintro ⟨hsome, hne⟩
  rcases h.considered with hnone | hzero
  · rw [hnone] at hsome
    cases hsome
  · exact hne hzero

/-- The loop takes the slots in order. -/
theorem Filling.ithSmallest_eq {i : ℕ} {sel : Selection} (h : Filling job i sel)
    (hi : i < job.usage) : ithSmallest (remainderTable job) sel = some i := by
  have hok : eligible (remainderTable job) sel i
      (roomySlot job 0 (if i < job.reqNumNodes * job.reqPpn then 0 else 10)) = true := by
    unfold eligible
    rw [h.free i le_rfl hi]
  obtain ⟨c, hc⟩ := Option.ne_none_iff_exists'.mp
    (ithSmallest_ne_none (getElem?_remainderTable hi) hok)
  obtain ⟨slot, hslot, hokc⟩ := ithSmallest_spec hc
  have hlt : c < job.usage := by
    have := (List.getElem?_eq_some_iff.mp hslot).1
    rwa [length_remainderTable] at this
  have hge : i ≤ c := by
    by_contra hlt'
    unfold eligible at hokc
    rcases h.taken c (by omega) with ha | ha
    · rw [ha] at hokc
      cases hokc
    · rw [ha] at hokc
      simp at hokc
  rw [hc]
  rcases ithSmallest_sooner hc (getElem?_remainderTable hi) hok with heq | hsooner
  · rw [heq]
  · -- a later slot is not free sooner
    unfold Sooner at hsooner
    rw [slotTime_remainderTable hlt, slotTime_remainderTable hi] at hsooner
    have h0 : toInt 0 = 0 := by decide
    have h10 : toInt 10 = 10 := by decide
    split_ifs at hsooner <;> omega

/-- Entering the next slot. -/
theorem Filling.enter {i : ℕ} {sel : Selection} (h : Filling job i sel) (hi : i < job.usage) :
    Filling job (i + 1) (enterCpu (remainderTable job) (considerNode job sel i 0) i) ∧
      (enterCpu (remainderTable job) (considerNode job sel i 0) i).nodeLatest ≠ none := by
  have hlater : ∀ latest : Option ℕ, (∀ l ∈ latest, l < i) →
      (∀ l ∈ laterCpu (remainderTable job) latest i, l < i + 1) ∧
        laterCpu (remainderTable job) latest i ≠ none := by
    intro latest hlatest
    unfold laterCpu
    cases latest with
    | none =>
        refine ⟨?_, by simp⟩
        intro l hl
        cases hl
        omega
    | some l =>
        have := hlatest l rfl
        dsimp only
        split
        · refine ⟨?_, by simp⟩
          intro l' hl'
          cases hl'
          omega
        · refine ⟨?_, by simp⟩
          intro l' hl'
          cases hl'
          omega
  have hlt : i < sel.avail.length := (List.getElem?_eq_some_iff.mp (h.free i le_rfl hi)).1
  -- the slots are entered in their order, so this one is the last
  have horder : insertByTime (slotTime (remainderTable job)) i sel.cpuIndexes
      = List.range (i + 1) := by
    rw [h.cpus, insertByTime_last, List.range_succ]
    intro last hlast
    have hmem := List.mem_range.mp (List.mem_of_getLast? hlast)
    rw [slotTime_remainderTable (by omega), slotTime_remainderTable hi]
    split_ifs <;> omega
  unfold considerNode
  rw [if_neg h.not_abandoned]
  refine ⟨?_, (hlater sel.nodeLatest h.nodeLatest).2⟩
  constructor
  case free =>
    intro c hc hcu
    show (sel.avail.set i (.tried sel.attemptCount))[c]? = some .free
    rw [List.getElem?_set_ne (by omega)]
    exact h.free c (by omega) hcu
  case taken =>
    intro c hc
    show (sel.avail.set i (.tried sel.attemptCount))[c]? = _ ∨
      (sel.avail.set i (.tried sel.attemptCount))[c]? = some (.tried sel.attemptCount)
    by_cases hci : i = c
    · subst hci
      right
      rw [List.getElem?_set_self hlt]
    · rw [List.getElem?_set_ne hci]
      exact h.taken c (by omega)
  case cpus => exact horder
  case considered => exact Or.inr rfl
  case chunk =>
    intro c hc
    rcases List.mem_append.mp hc with hc | hc
    · exact (h.chunk c hc).trans (Nat.lt_succ_self i)
    · rw [List.mem_singleton.mp hc]
      exact Nat.lt_succ_self i
  case nodeLatest => exact (hlater sel.nodeLatest h.nodeLatest).1
  case latest_length => exact h.latest_length
  case latest =>
    intro c hc
    exact (h.latest c hc).trans (Nat.lt_succ_self i)
  case start => exact h.start

/-- Completing a chunk among the slots that are free at `0`. -/
theorem Filling.complete {i : ℕ} {sel : Selection} (h : Filling job (i + 1) sel)
    (hi : i < job.usage) (hzero : i < job.reqNumNodes * job.reqPpn)
    (hlatest : sel.nodeLatest ≠ none) (hplan : sel.planNumNodes < job.reqNumNodes) :
    ∃ sel', completeChunk (remainderCluster job) (remainderTable job) job true sel 0 = .ok sel' ∧
      Filling job (i + 1) sel' ∧ sel'.planNumNodes = sel.planNumNodes + 1 := by
  obtain ⟨latest, hsome⟩ := Option.ne_none_iff_exists'.mp hlatest
  have hlast : sel.cpuIndexes.getLast? = some i := by
    rw [h.cpus, List.range_succ]
    simp
  have hrun : completeChunk (remainderCluster job) (remainderTable job) job true sel 0 = .ok
      { sel with
        startTime := slotTime (remainderTable job) i
        completionTime := slotTime (remainderTable job) i + job.estimatedProcessing
        ninfoArr := sel.ninfoArr.set sel.planNumNodes (some 0)
        latestNcpuIndex := sel.latestNcpuIndex ++ [latest]
        avail := sel.tmpCpuArr.foldl (fun avail c => avail.set c .alreadyUsed) sel.avail
        fixedNnameArr := sel.fixedNnameArr.set sel.planNumNodes
          (some (roomyNode job job.usage).name)
        tmpCpuArr := []
        consideredNode := none
        nodeLatest := none
        planNumNodes := sel.planNumNodes + 1 } := by
    unfold completeChunk
    rw [if_neg (by omega), hlast, hsome]
    rfl
  have hcells : ∀ c ∈ sel.tmpCpuArr, c < sel.avail.length := by
    intro c hc
    rcases h.taken c (h.chunk c hc) with ha | ha
    · exact (List.getElem?_eq_some_iff.mp ha).1
    · exact (List.getElem?_eq_some_iff.mp ha).1
  refine ⟨_, hrun, ?_, rfl⟩
  constructor
  case free =>
    intro c hc hcu
    dsimp only
    rw [foldl_alreadyUsed_getElem? _ _ _ hcells, if_neg]
    · exact h.free c hc hcu
    · intro hmem
      have := h.chunk c hmem
      omega
  case taken =>
    intro c hc
    dsimp only
    rw [foldl_alreadyUsed_getElem? _ _ _ hcells]
    split
    · exact Or.inl rfl
    · exact h.taken c hc
  case cpus => exact h.cpus
  case considered => exact Or.inl rfl
  case chunk =>
    intro c hc
    cases hc
  case nodeLatest =>
    intro l hl
    cases hl
  case latest_length =>
    show (sel.latestNcpuIndex ++ [latest]).length = sel.planNumNodes + 1
    rw [List.length_append, h.latest_length]
    rfl
  case latest =>
    intro c hc
    rcases List.mem_append.mp hc with hc | hc
    · exact h.latest c hc
    · rw [List.mem_singleton.mp hc]
      exact h.nodeLatest latest hsome
  case start =>
    intro _
    show slotTime (remainderTable job) i = 0
    rw [slotTime_remainderTable hi, if_pos hzero]

/-- One pass of the loop. -/
theorem Filling.pass {i : ℕ} {sel : Selection} (h : Filling job i sel) (hi : i < job.usage)
    (hplan : sel.planNumNodes = i / job.reqPpn)
    (hroom : i + 1 < (job.reqNumNodes + 1) * job.reqPpn) :
    ∃ sel', takeCpu (remainderCluster job) (remainderTable job) job true sel i = .ok sel' ∧
      Filling job (i + 1) sel' ∧ sel'.planNumNodes = (i + 1) / job.reqPpn := by
  have hppn := job.reqPpn_pos
  obtain ⟨hentered, hlatest⟩ := h.enter hi
  have hplan' : (enterCpu (remainderTable job) (considerNode job sel i 0) i).planNumNodes
      = i / job.reqPpn := (considerNode_keeps job sel i 0).1.trans hplan
  rw [takeCpu_eq (getElem?_remainderTable hi) (roomySlot_ninfo _ _ _)]
  have hlength : (enterCpu (remainderTable job) (considerNode job sel i 0) i).cpuIndexes.length
      = i + 1 := by
    rw [hentered.cpus, List.length_range]
  have hlower := Nat.div_mul_le_self i job.reqPpn
  -- the chunk being filled is number `i / req_ppn`
  have hupper : i < (i / job.reqPpn + 1) * job.reqPpn := by
    rw [Nat.mul_comm]
    exact Nat.lt_mul_div_succ i hppn
  split
  · next hfull =>
      rw [hlength, hplan'] at hfull
      have hnodes : i / job.reqPpn < job.reqNumNodes := by
        by_contra hge
        have := Nat.mul_le_mul_right job.reqPpn (Nat.succ_le_succ (not_lt.mp hge))
        rw [Nat.succ_eq_add_one, Nat.succ_eq_add_one] at this
        omega
      have hzero : i < job.reqNumNodes * job.reqPpn := by
        have := Nat.mul_le_mul_right job.reqPpn (Nat.succ_le_of_lt hnodes)
        rw [Nat.succ_eq_add_one] at this
        omega
      obtain ⟨sel', hrun, hfilled, hplan₁⟩ := hentered.complete hi hzero hlatest (by omega)
      refine ⟨sel', hrun, hfilled, ?_⟩
      rw [hplan₁, hplan', hfull, Nat.mul_div_cancel _ hppn]
  · next hopen =>
      rw [hlength, hplan'] at hopen
      refine ⟨_, rfl, hentered, ?_⟩
      rw [hplan']
      refine (Nat.div_eq_of_lt_le ?_ ?_).symm
      · omega
      · omega

/-- As long as no chunk too many is complete, the loop goes through these states. -/
theorem filling_reached {sel₀ : Selection} (h₀ : Filling job 0 sel₀)
    (hplan₀ : sel₀.planNumNodes = 0) :
    ∀ i ≤ job.usage, i < (job.reqNumNodes + 1) * job.reqPpn →
      ∃ sel, LoopReaches (remainderCluster job) (remainderTable job) job true sel₀ sel ∧
        Filling job i sel ∧ sel.planNumNodes = i / job.reqPpn := by
  intro i
  induction i with
  | zero =>
      intro _ _
      exact ⟨sel₀, .start, h₀, hplan₀.trans (Nat.zero_div _).symm⟩
  | succ i ih =>
      intro hi hroom
      obtain ⟨sel, hreach, hfilled, hplan⟩ := ih (by omega) (by omega)
      obtain ⟨sel', hrun, hfilled', hplan'⟩ := hfilled.pass (by omega) hplan hroom
      have hlt : sel.cpuIndexes.length < job.usage := by
        rw [hfilled.cpus, List.length_range]
        omega
      exact ⟨sel', hreach.pass hlt (hfilled.ithSmallest_eq (by omega)) hrun, hfilled', hplan'⟩

/-- With a remainder smaller than a chunk the loop takes all slots and returns. -/
theorem selectCpus_remainder (hsmall : job.usage < (job.reqNumNodes + 1) * job.reqPpn) (n : ℕ) :
    ∀ (i fuel : ℕ) {sel : Selection}, Filling job i sel → sel.planNumNodes = i / job.reqPpn →
      i + n = job.usage → n < fuel →
      ∃ sel', selectCpus (remainderCluster job) (remainderTable job) job true fuel sel
          = .ok (some sel') ∧ Filling job job.usage sel' ∧
        sel'.planNumNodes = job.usage / job.reqPpn := by
  induction n with
  | zero =>
      intro i fuel sel h hplan hi hfuel
      obtain ⟨fuel, rfl⟩ : ∃ k, fuel = k + 1 := ⟨fuel - 1, by omega⟩
      rw [Nat.add_zero] at hi
      subst hi
      refine ⟨sel, ?_, h, hplan⟩
      rw [selectCpus, if_neg]
      rw [h.cpus, List.length_range]
      exact lt_irrefl _
  | succ n ih =>
      intro i fuel sel h hplan hi hfuel
      obtain ⟨fuel, rfl⟩ : ∃ k, fuel = k + 1 := ⟨fuel - 1, by omega⟩
      obtain ⟨sel₁, hrun, hfilled, hplan₁⟩ := h.pass (by omega) hplan (by omega)
      obtain ⟨sel', hselect, hend⟩ := ih (i + 1) fuel hfilled hplan₁ (by omega) (by omega)
      refine ⟨sel', ?_, hend⟩
      have hlt : sel.cpuIndexes.length < job.usage := by
        rw [h.cpus, List.length_range]
        omega
      rw [selectCpus, if_pos hlt, h.ithSmallest_eq (by omega)]
      exact bind_ok.mpr ⟨sel₁, hrun, hselect⟩

/-- The variables before the loop, on this table. -/
theorem remainder_starts (hfixed : (wipeFixedNodes job).2 = true) (hroom : job.reqPpn ≤ job.usage) :
    LoopStarts (remainderCluster job) (remainderTable job) job
      (Selection.initial job (wipeFixedNodes job).1 (List.replicate job.usage .free)) := by
  refine ⟨_, ?_, rfl⟩
  rw [hfixed]
  exact avail_remainderTable hroom

/-- A remainder of a chunk or more: one chunk too many is completed. -/
theorem not_arraysSafe_of_large (hshared : job.jinfo.isExclusive = false)
    (hfixed : (wipeFixedNodes job).2 = true)
    (hlarge : (job.reqNumNodes + 1) * job.reqPpn ≤ job.usage) : ¬ ArraysSafe job := by
  intro hsafe
  have hppn := job.reqPpn_pos
  have hexpand : (job.reqNumNodes + 1) * job.reqPpn
      = job.reqNumNodes * job.reqPpn + job.reqPpn := by
    rw [Nat.add_mul, one_mul]
  have hstart := remainder_starts hfixed (by omega)
  have hfill : Filling job 0 (Selection.initial job (wipeFixedNodes job).1
      (List.replicate job.usage .free)) := filling_initial _
  obtain ⟨sel, hreach, hfilled, hplan⟩ := filling_reached hfill rfl
    ((job.reqNumNodes + 1) * job.reqPpn - 1) (by omega) (by omega)
  rw [← hfixed] at hreach
  set i := (job.reqNumNodes + 1) * job.reqPpn - 1 with hi
  have hilt : i < job.usage := by omega
  have hlt : sel.cpuIndexes.length < job.usage := by
    rw [hfilled.cpus, List.length_range]
    exact hilt
  have hwrites := hsafe.writes job _ _ _ sel i _ ⟨rfl, rfl, rfl, rfl⟩ hshared hstart hreach hlt
    (hfilled.ithSmallest_eq hilt) (getElem?_remainderTable hilt)
  have hdiv : i / job.reqPpn = job.reqNumNodes := by
    refine Nat.div_eq_of_lt_le ?_ ?_
    · omega
    · omega
  have hjobCpu : (considerNode job sel i 0).cpuIndexes.length = i := by
    unfold considerNode
    rw [if_neg hfilled.not_abandoned]
    show sel.cpuIndexes.length = i
    rw [hfilled.cpus, List.length_range]
  have hover := hwrites.2
  rw [roomySlot_ninfo, hjobCpu, hplan, hdiv] at hover
  exact lt_irrefl _ (hover (by omega))

/-- A remainder of less than a chunk: it is chosen without moving the start. -/
theorem not_arraysSafe_of_small (hshared : job.jinfo.isExclusive = false)
    (hfixed : (wipeFixedNodes job).2 = true)
    (hrem : job.reqPpn * job.reqNumNodes < job.usage)
    (hsmall : job.usage < (job.reqNumNodes + 1) * job.reqPpn) : ¬ ArraysSafe job := by
  intro hsafe
  have hppn := job.reqPpn_pos
  have hnodes := job.reqNumNodes_pos
  have hcomm : job.reqPpn * job.reqNumNodes = job.reqNumNodes * job.reqPpn := Nat.mul_comm _ _
  have hroom : job.reqPpn ≤ job.usage :=
    (Nat.le_mul_of_pos_right job.reqPpn hnodes).trans hrem.le
  have hdiv : job.usage / job.reqPpn = job.reqNumNodes := by
    refine Nat.div_eq_of_lt_le ?_ ?_
    · omega
    · omega
  have hbudget : job.usage < selectionBudget (remainderTable job).length := by
    rw [length_remainderTable]
    unfold selectionBudget
    nlinarith
  obtain ⟨sel, hselect, hfilled, hplan⟩ := selectCpus_remainder hsmall job.usage 0 _
    (filling_initial (wipeFixedNodes job).1) (Nat.zero_div _).symm (Nat.zero_add _) hbudget
  have hplaced : placeShared (remainderCluster job) job (remainderTable job)
      = .ok (some { job with
        startTime := sel.startTime
        completionTime := sel.completionTime
        cpuIndexes := sel.cpuIndexes
        ninfoArr := sel.ninfoArr
        latestNcpuIndex := sel.latestNcpuIndex
        fixedNnameArr := sel.fixedNnameArr }) := by
    obtain ⟨avail, havail, heq⟩ := remainder_starts hfixed hroom
    unfold placeShared
    refine bind_ok.mpr ⟨_, havail, bind_ok.mpr ⟨some sel, ?_, rfl⟩⟩
    show selectCpus _ _ _ (wipeFixedNodes job).2 _
      (Selection.initial job (wipeFixedNodes job).1 avail) = _
    rw [← heq, hfixed]
    exact hselect
  obtain ⟨update, hupdate, hjob⟩ := @updateSharedJob_returns _ _ _ oneClass ⟨[], []⟩ _ _ hplaced
    rfl onNodes_remainderTable
    (by
      intro c hc
      rw [length_remainderTable]
      have hc' : c ∈ sel.cpuIndexes := hc
      rw [hfilled.cpus] at hc'
      exact List.mem_range.mp hc')
    (by
      show job.reqNumNodes ≤ sel.latestNcpuIndex.length
      rw [hfilled.latest_length, hplan, hdiv])
    (by
      intro c hc
      rw [length_remainderTable]
      exact hfilled.latest c hc)
  have hrun : updateJob oneClass (remainderCluster job) ⟨[], []⟩ [] (remainderTable job) job
      = .ok (some update) := by
    rw [updateJob_shared hshared]
    exact hupdate
  -- the last slot is free at `10`, but the job starts at `0`
  have hlast : job.usage - 1 ∈ update.job.cpuIndexes := by
    rw [hjob]
    show job.usage - 1 ∈ sel.cpuIndexes
    rw [hfilled.cpus, List.mem_range]
    omega
  have hle := hsafe.start job _ _ _ [] _ update ⟨rfl, rfl, rfl, rfl⟩ limitsInv_nil hrun _ hlast
  have hstartTime : update.job.startTime = 0 := by
    rw [hjob]
    exact hfilled.start (by omega)
  rw [hstartTime, slotTime_remainderTable (by omega), if_neg (by omega)] at hle
  exact absurd hle (by decide)

end Remainder

/-! ## Exclusive jobs

A table in which the first slot of every node is free at `100` and the others at `0`:
`find_earliest_node` counts the first slot of no node but the first, so it finds nodes
for time `0`. -/

/-- A property of the cells of an array that every step adds or keeps. -/
theorem mem_foldl_of_step {β : Type} {f : List ℕ → β → List ℕ} {c : ℕ} {bs : List β} {b : β}
    (hkeep : ∀ cpus b', c ∈ cpus → c ∈ f cpus b') (hb : b ∈ bs) (hadd : ∀ cpus, c ∈ f cpus b) :
    ∀ cpus, c ∈ bs.foldl f cpus := by
  intro cpus
  obtain ⟨pre, post, rfl⟩ := List.append_of_mem hb
  rw [List.foldl_append, List.foldl_cons]
  exact List.foldlRecOn post f (hadd _) (fun cpus' h b' _ => hkeep cpus' b' h)

/-- An exclusive job takes every CPU of its nodes. -/
theorem mem_cpusOfNodes {nodes : List (Option ℕ)} {slots : List FirstFreeSlot} {c : ℕ}
    (hc : c < slots.length) (hnode : slotNode slots c ∈ nodes) : c ∈ cpusOfNodes nodes slots := by
  have hkeep : ∀ (cpus : List ℕ) (d : ℕ) (node : Option ℕ), c ∈ cpus →
      c ∈ if slotNode slots d = node then insertByTime (slotTime slots) d cpus else cpus := by
    intro cpus d node hmem
    split
    · exact (perm_insertByTime _ _ _).mem_iff.mpr (List.mem_cons_of_mem _ hmem)
    · exact hmem
  unfold cpusOfNodes
  refine mem_foldl_of_step ?_ (List.mem_range.mpr hc) ?_ []
  · intro cpus d hmem
    exact List.foldlRecOn nodes _ hmem (fun cpus' h node _ => hkeep cpus' d node h)
  · intro cpus
    refine mem_foldl_of_step (fun cpus' node h => hkeep cpus' c node h) hnode ?_ cpus
    intro cpus'
    rw [if_pos rfl]
    exact (perm_insertByTime _ _ _).mem_iff.mpr List.mem_cons_self

section Exclusive

variable (job : PlanJob)

/-- Three nodes more than the job wants, each with one core more than a chunk. -/
def wholeCluster : PlanCluster :=
  ⟨"", List.replicate (job.reqNumNodes + 3) (roomyNode job (job.reqPpn + 1)), 0, 0, 0⟩

/-- The slots of one node. -/
def wholeNodeSlots (n : ℕ) : List FirstFreeSlot :=
  roomySlot job n 100 :: List.replicate job.reqPpn (roomySlot job n 0)

/-- The slots of all nodes. -/
def wholeTable : List FirstFreeSlot :=
  (List.range (job.reqNumNodes + 3)).flatMap (wholeNodeSlots job)

variable {job}

/-- A slot of the table is one of its nodes'. -/
theorem mem_wholeTable {slot : FirstFreeSlot} (h : slot ∈ wholeTable job) :
    ∃ n t, n < job.reqNumNodes + 3 ∧ (t = 100 ∨ t = 0) ∧ slot = roomySlot job n t := by
  obtain ⟨n, hn, hslot⟩ := List.mem_flatMap.mp h
  refine ⟨n, ?_⟩
  rcases List.mem_cons.mp hslot with rfl | hslot
  · exact ⟨100, List.mem_range.mp hn, Or.inl rfl, rfl⟩
  · exact ⟨0, List.mem_range.mp hn, Or.inr rfl, List.eq_of_mem_replicate hslot⟩

/-- The nodes of the cluster. -/
theorem getElem?_wholeCluster {n : ℕ} (hn : n < job.reqNumNodes + 3) :
    (wholeCluster job).nodes[n]? = some (roomyNode job (job.reqPpn + 1)) :=
  List.getElem?_replicate_of_lt hn

/-- All slots may be used. -/
theorem avail_wholeTable :
    (wholeTable job).mapM (slotAvailability (wholeCluster job) job true)
      = .ok (List.replicate (wholeTable job).length .free) := by
  refine mapM_eq_replicate _ ?_
  intro slot hslot
  obtain ⟨n, t, hn, ht, rfl⟩ := mem_wholeTable hslot
  refine slotAvailability_roomy (getElem?_wholeCluster hn) (Nat.le_succ _) ?_
  rcases ht with rfl | rfl
  · decide
  · decide

/-- A slot is scanned exactly if its node was not chosen. -/
theorem scanned_wholeTable {chosen : List (Option ℕ)} {n : ℕ} (hn : n < job.reqNumNodes + 3)
    (t : ℤ) : scanned (wholeCluster job) job chosen (roomySlot job n t, .free) ↔
      some n ∉ chosen := by
  have hunmarked : SlotAvailability.free.unmarked := by decide
  unfold scanned nodeUsable
  rw [roomySlot_ninfo, getElem?_wholeCluster hn]
  constructor
  · rintro ⟨⟨h, -⟩, -⟩
    exact h
  · intro h
    exact ⟨⟨h, _, rfl, Nat.le_succ _, rfl⟩, hunmarked⟩

/-- The nodes that were not chosen. -/
def remaining (job : PlanJob) (chosen : List (Option ℕ)) : List ℕ :=
  (List.range (job.reqNumNodes + 3)).filter (fun n => !chosen.contains (some n))

/-- What is scanned are the runs of the nodes that were not chosen. -/
theorem scannedSlots_wholeTable (chosen : List (Option ℕ)) :
    scannedSlots (wholeCluster job) job chosen
        ((wholeTable job).zip (List.replicate (wholeTable job).length .free))
      = slotsOfRuns ((remaining job chosen).map
          (fun n => (n, (100 : ℤ) :: List.replicate job.reqPpn 0))) := by
  have hzip : ∀ slots : List FirstFreeSlot,
      slots.zip (List.replicate slots.length SlotAvailability.free)
        = slots.map (fun slot => (slot, SlotAvailability.free)) := by
    intro slots
    induction slots with
    | nil => rfl
    | cons slot slots ih =>
        rw [List.length_cons, List.replicate_succ, List.zip_cons_cons, ih, List.map_cons]
  rw [hzip]
  unfold scannedSlots wholeTable remaining slotsOfRuns
  have hrange : ∀ n ∈ List.range (job.reqNumNodes + 3), n < job.reqNumNodes + 3 :=
    fun n hn => List.mem_range.mp hn
  generalize List.range (job.reqNumNodes + 3) = ns at hrange
  induction ns with
  | nil => rfl
  | cons n ns ih =>
      have hn := hrange n List.mem_cons_self
      have hrest := ih (fun n' hn' => hrange n' (List.mem_cons_of_mem _ hn'))
      rw [List.flatMap_cons, List.map_append, List.filter_append, List.map_append, hrest]
      by_cases hchosen : some n ∈ chosen
      · -- no slot of a chosen node is scanned
        rw [List.filter_cons_of_neg (by simpa using hchosen), List.filter_eq_nil_iff.mpr]
        · rfl
        · intro entry hentry
          obtain ⟨slot, hslot, rfl⟩ := List.mem_map.mp hentry
          have hnot : ¬ scanned (wholeCluster job) job chosen (slot, .free) := by
            rcases List.mem_cons.mp hslot with rfl | hslot
            · rw [scanned_wholeTable hn]
              simpa using hchosen
            · rw [List.eq_of_mem_replicate hslot, scanned_wholeTable hn]
              simpa using hchosen
          simpa using hnot
      · rw [List.filter_cons_of_pos (by simpa using hchosen), List.filter_eq_self.mpr]
        · rw [List.map_cons, List.flatMap_cons]
          congr 1
          unfold wholeNodeSlots
          simp [roomySlot]
        · intro entry hentry
          obtain ⟨slot, hslot, rfl⟩ := List.mem_map.mp hentry
          have hscan : scanned (wholeCluster job) job chosen (slot, .free) := by
            rcases List.mem_cons.mp hslot with rfl | hslot
            · exact (scanned_wholeTable hn _).mpr hchosen
            · rw [List.eq_of_mem_replicate hslot]
              exact (scanned_wholeTable hn _).mpr hchosen
          simpa using hscan

/-- Three nodes are not among as many as the job wants. -/
theorem three_le_remaining {chosen : List (Option ℕ)} (hchosen : chosen.length ≤ job.reqNumNodes) :
    3 ≤ (remaining job chosen).length := by
  have hsub : (List.range (job.reqNumNodes + 3)).toFinset \
      (chosen.filterMap id).toFinset ⊆ (remaining job chosen).toFinset := by
    intro n hn
    rw [Finset.mem_sdiff, List.mem_toFinset, List.mem_toFinset] at hn
    rw [List.mem_toFinset]
    refine List.mem_filter.mpr ⟨hn.1, ?_⟩
    have hnot : some n ∉ chosen := by
      intro hmem
      exact hn.2 (List.mem_filterMap.mpr ⟨some n, hmem, rfl⟩)
    simpa using hnot
  have hcard := (Finset.le_card_sdiff (chosen.filterMap id).toFinset
    (List.range (job.reqNumNodes + 3)).toFinset).trans (Finset.card_le_card hsub)
  have hrange : (List.range (job.reqNumNodes + 3)).toFinset.card = job.reqNumNodes + 3 := by
    rw [List.toFinset_card_of_nodup List.nodup_range, List.length_range]
  have hfew := List.toFinset_card_le (chosen.filterMap id)
  have hlen := List.length_filterMap_le id chosen
  have hle := List.toFinset_card_le (remaining job chosen)
  omega

/-- The runs that are scanned. -/
theorem isRuns_remaining (chosen : List (Option ℕ)) :
    IsRuns ((remaining job chosen).map
      (fun n => (n, (100 : ℤ) :: List.replicate job.reqPpn 0))) := by
  constructor
  · intro run hrun
    obtain ⟨n, -, rfl⟩ := List.mem_map.mp hrun
    simp
  · rw [List.isChain_map]
    refine List.Pairwise.isChain ?_
    exact (List.nodup_range.filter _)

/-- What the scan observes of them: `100` for the first one and `0` for the others. -/
theorem observed_remaining (chosen : List (Option ℕ)) {first : ℕ} {rest : List ℕ}
    (h : remaining job chosen = first :: rest) :
    observed ((remaining job chosen).map (fun n => (n, (100 : ℤ) :: List.replicate job.reqPpn 0)))
      = (first, 100) :: rest.map (fun n => (n, 0)) := by
  have hzero : ∀ k (m : ℤ), 0 ≤ m → (List.replicate k (0 : ℤ)).foldl max m = m := by
    intro k
    induction k with
    | zero =>
        intro m _
        rfl
    | succ k ih =>
        intro m hm
        rw [List.replicate_succ, List.foldl_cons, max_eq_left hm]
        exact ih m hm
  rw [h, List.map_cons, observed, List.map_map]
  congr 1
  · show (first, ((100 : ℤ) :: List.replicate job.reqPpn 0).foldl max 0) = (first, 100)
    rw [List.foldl_cons, hzero _ _ (by decide)]
    rfl
  · refine List.map_congr_left ?_
    intro n _
    show (n, (List.replicate job.reqPpn (0 : ℤ)).foldl max 0) = (n, 0)
    rw [hzero _ _ le_rfl]

/-- Every call finds a node for time `0`. -/
theorem findEarliestNode_wholeTable {chosen : List (Option ℕ)}
    (hchosen : chosen.length ≤ job.reqNumNodes) :
    ∃ n < job.reqNumNodes + 3, findEarliestNode (wholeCluster job) job chosen (wholeTable job)
      (List.replicate (wholeTable job).length .free) = .ok (some n, 0) := by
  have heq := @findEarliestNode_eq (wholeCluster job) job chosen (wholeTable job)
    (List.replicate (wholeTable job).length .free) List.length_replicate (by
      intro slot hslot
      obtain ⟨n, t, hn, -, rfl⟩ := mem_wholeTable hslot
      rw [roomySlot_ninfo]
      exact (List.getElem?_eq_some_iff.mp (getElem?_wholeCluster hn)).1)
  obtain ⟨first, second, third, rest, hremaining⟩ : ∃ first second third rest,
      remaining job chosen = first :: second :: third :: rest := by
    have hthree := three_le_remaining hchosen
    match hr : remaining job chosen with
    | [] => simp [hr] at hthree
    | [_] => simp [hr] at hthree
    | [_, _] => simp [hr] at hthree
    | first :: second :: third :: rest => exact ⟨first, second, third, rest, rfl⟩
  have hobserved := observed_remaining chosen hremaining
  set table := (wholeTable job).zip
    (List.replicate (wholeTable job).length SlotAvailability.free) with htable
  -- the first of the remaining nodes is seen at 100, all others at 0
  have hruns : observed (runsOf (scannedSlots (wholeCluster job) job chosen table))
      = (first, 100) :: (second :: third :: rest).map (fun n => (n, (0 : ℤ))) := by
    rw [htable, scannedSlots_wholeTable, runsOf_slotsOfRuns _ (isRuns_remaining chosen)]
    exact hobserved
  have hsub : ∀ run ∈ considered (wholeCluster job) job chosen table,
      run.1 ∈ remaining job chosen ∧ 0 ≤ run.2 := by
    intro run hrun
    have hmem : run ∈ (first, (100 : ℤ)) :: (second :: third :: rest).map (fun n => (n, 0)) := by
      rw [← hruns]
      unfold considered at hrun
      dsimp only at hrun
      split at hrun
      · exact hrun
      · exact List.mem_of_mem_dropLast hrun
    rw [hremaining]
    rcases List.mem_cons.mp hmem with rfl | hmem
    · exact ⟨List.mem_cons_self, show (0 : ℤ) ≤ 100 by decide⟩
    · obtain ⟨n, hn, rfl⟩ := List.mem_map.mp hmem
      exact ⟨List.mem_cons_of_mem _ hn, le_rfl⟩
  have hsecond : (second, (0 : ℤ)) ∈ considered (wholeCluster job) job chosen table := by
    unfold considered
    dsimp only
    rw [hruns]
    split
    · simp
    · simp
  have hspec := searchResult_spec (@considered_of_nil (wholeCluster job) job chosen table)
  rw [heq]
  rcases hspec with ⟨-, hall⟩ | ⟨pre, n, post, hcons, hnode, -, hall, -⟩
  · exact absurd (hall _ hsecond) (show ¬ NO_NODE_TIME < 0 by decide)
  · set result := searchResult (scannedSlots (wholeCluster job) job chosen table)
      (considered (wholeCluster job) job chosen table) with hresult
    obtain ⟨hn, hnonneg⟩ := hsub (n, result.2) (by rw [hcons]; simp)
    have hle := hall _ hsecond
    refine ⟨n, List.mem_range.mp (List.mem_filter.mp hn).1, ?_⟩
    congr 1
    refine Prod.ext hnode ?_
    dsimp only at hle hnonneg ⊢
    omega

/-- All calls together find nodes for time `0`. -/
theorem findEarliestNodes_wholeTable :
    ∃ nodes, findEarliestNodes (wholeCluster job) job (wholeTable job)
        (List.replicate (wholeTable job).length .free) = .ok (nodes, 0) ∧
      nodes.length = job.reqNumNodes ∧
      ∀ node ∈ nodes, ∃ n < job.reqNumNodes + 3, node = some n := by
  have hcalls : ∀ k ≤ job.reqNumNodes, ∃ nodes time, (List.range k).foldlM
      (fun (state : List (Option ℕ) × ℤ) _ => do
        let found ← findEarliestNode (wholeCluster job) job state.1 (wholeTable job)
          (List.replicate (wholeTable job).length .free)
        return (state.1 ++ [found.1], found.2)) ([], -1) = (.ok (nodes, time) : Run _) ∧
      nodes.length = k ∧ (∀ node ∈ nodes, ∃ n < job.reqNumNodes + 3, node = some n) ∧
      (0 < k → time = 0) := by
    intro k
    induction k with
    | zero =>
        intro _
        exact ⟨[], -1, rfl, rfl, by simp, fun h => absurd h (Nat.lt_irrefl 0)⟩
    | succ k ih =>
        intro hk
        obtain ⟨nodes, time, hrun, hlength, hnodes, -⟩ := ih (by omega)
        obtain ⟨n, hn, hcall⟩ := @findEarliestNode_wholeTable job nodes (by omega)
        refine ⟨nodes ++ [some n], 0, ?_, ?_, ?_, fun _ => rfl⟩
        · rw [List.range_succ, List.foldlM_append]
          refine bind_ok.mpr ⟨(nodes, time), hrun, ?_⟩
          rw [List.foldlM_cons]
          refine bind_ok.mpr ⟨(nodes ++ [some n], 0), ?_, rfl⟩
          exact bind_ok.mpr ⟨(some n, 0), hcall, rfl⟩
        · rw [List.length_append, hlength]
          rfl
        · intro node hnode
          rcases List.mem_append.mp hnode with hnode | hnode
          · exact hnodes node hnode
          · exact ⟨n, hn, List.mem_singleton.mp hnode⟩
  obtain ⟨nodes, time, hrun, hlength, hnodes, htime⟩ := hcalls job.reqNumNodes le_rfl
  rw [htime job.reqNumNodes_pos] at hrun
  exact ⟨nodes, hrun, hlength, hnodes⟩

/-- Every node has its first slot in the table. -/
theorem exists_first_wholeTable {n : ℕ} (hn : n < job.reqNumNodes + 3) :
    ∃ c : ℕ, (wholeTable job)[c]? = some (roomySlot job n 100) := by
  refine List.mem_iff_getElem?.mp (List.mem_flatMap.mpr ⟨n, List.mem_range.mpr hn, ?_⟩)
  exact List.mem_cons_self

/-- The layout does not depend on who claimed the nodes. -/
theorem layout_claimNodes (nodes : List (Option ℕ)) (t : ℤ) (slots : List FirstFreeSlot) :
    layout (claimNodes nodes t slots) = layout slots := by
  refine layout_map ?_ slots
  intro slot
  split
  · rfl
  · rfl

/-- No exclusive job is safe. -/
theorem not_arraysSafe_of_exclusive (hexclusive : job.jinfo.isExclusive = true)
    (hfixed : (wipeFixedNodes job).2 = true) : ¬ ArraysSafe job := by
  intro hsafe
  obtain ⟨nodes, hnodes, hlength, hall⟩ := @findEarliestNodes_wholeTable job
  set claimed := claimNodes nodes 0 (wholeTable job) with hclaimed
  set placed : PlanJob := { job with
    startTime := 0
    completionTime := 0 + job.estimatedProcessing
    ninfoArr := nodes
    fixedNnameArr := (wipeFixedNodes job).1 } with hplacedDef
  have hplaced : placeExclusive (wholeCluster job) job (wholeTable job)
      = .ok (some (placed, claimed)) := by
    unfold placeExclusive
    refine bind_ok.mpr ⟨List.replicate (wholeTable job).length .free, ?_,
      bind_ok.mpr ⟨(nodes, 0), hnodes, rfl⟩⟩
    show (wholeTable job).mapM (slotAvailability (wholeCluster job) job (wipeFixedNodes job).2) = _
    rw [hfixed]
    exact avail_wholeTable
  have hlayout : layout claimed = layout (wholeTable job) := layout_claimNodes _ _ _
  have honNodes : OnNodes (wholeCluster job) claimed := by
    intro place hplace
    rw [hlayout] at hplace
    obtain ⟨slot, hslot, rfl⟩ := List.mem_map.mp hplace
    obtain ⟨n, t, hn, -, rfl⟩ := mem_wholeTable hslot
    exact (List.getElem?_eq_some_iff.mp (getElem?_wholeCluster hn)).1
  -- the CPUs of the job are slots of the table, and its nodes have slots
  set final : PlanJob := { placed with
    cpuIndexes := cpusOfNodes nodes claimed
    usage := (cpusOfNodes nodes claimed).length } with hfinal
  have hcpus : ∀ c ∈ final.cpuIndexes, c < claimed.length :=
    fun c hc => (slotNode_mem_of_mem_cpusOfNodes hc).1
  have hplaces : ∀ node ∈ final.ninfoArr, ∃ n, node = some n ∧
      ∃ place ∈ layout claimed, place.1 = n := by
    intro node hnode
    obtain ⟨n, hn, rfl⟩ := hall node hnode
    obtain ⟨c, hc⟩ := exists_first_wholeTable hn
    refine ⟨n, rfl, (roomySlot job n 100).place, ?_, rfl⟩
    rw [hlayout]
    exact List.mem_map_of_mem (List.mem_of_getElem? hc)
  obtain ⟨gaps, hgaps⟩ := gapsOfJob_returns hcpus final.cpuIndexes (-1) hcpus
  obtain ⟨slots', hslots'⟩ := @firstFreeSlotsUpdateExclusive_returns (wholeCluster job) claimed
    final honNodes hlength.ge hplaces
  have hrun : updateJob oneClass (wholeCluster job) ⟨[], []⟩ [] (wholeTable job) job
      = .ok (some ⟨final, slots', gaps⟩) := by
    unfold updateJob
    rw [if_pos hexclusive]
    unfold updateExclusiveJob
    refine bind_ok.mpr ⟨_, hplaced, bind_ok.mpr ⟨placed, adjustJob_nil rfl, ?_⟩⟩
    exact bind_ok.mpr ⟨gaps, hgaps, bind_ok.mpr ⟨slots', hslots', rfl⟩⟩
  obtain ⟨node, hnode⟩ := List.exists_mem_of_length_pos (hlength ▸ job.reqNumNodes_pos)
  obtain ⟨n, hn, rfl⟩ := hall node hnode
  obtain ⟨c, hc⟩ := exists_first_wholeTable hn
  have hslotNode : slotNode claimed c = some n := by
    rw [hclaimed, slotNode_claimNodes]
    unfold slotNode
    rw [hc]
    rfl
  have hmem : c ∈ final.cpuIndexes := by
    refine mem_cpusOfNodes ?_ (hslotNode ▸ hnode)
    rw [length_eq_of_layout hlayout]
    exact (List.getElem?_eq_some_iff.mp hc).1
  have hle := hsafe.start job _ _ _ [] _ _ ⟨rfl, rfl, rfl, rfl⟩ limitsInv_nil hrun c hmem
  rw [slotTime_of_getElem? hc] at hle
  exact absurd hle (show ¬ (100 : ℤ) ≤ 0 by decide)

end Exclusive

/-! ## Exactly the safe requests -/

/-- What `job_fillin` makes of the requests. -/
theorem jobFillin_request {ptr : ℕ} {jinfo : JobInfo} {startTime : ℤ} {job : PlanJob}
    (h : jobFillin ptr jinfo startTime = .ok job) :
    job.reqPpn = max (job.usage / job.reqNumNodes) 1 ∧ (wipeFixedNodes job).2 = true := by
  obtain ⟨procs, nodect, hnodect, mem, gpu, rfl⟩ := jobFillin_ok h
  refine ⟨rfl, ?_⟩
  unfold wipeFixedNodes
  rw [if_pos]
  rw [List.contains_iff_mem]
  exact List.mem_replicate.mpr ⟨hnodect.ne', rfl⟩

/-- **Exactly the safe requests**: the arrays of a job that `job_fillin` built are never
overrun, and it never starts before a CPU of it is free, exactly if the job shares its
nodes and `procs` is a multiple of `nodect` or at most `nodect`. -/
theorem arraysSafe_iff {ptr : ℕ} {jinfo : JobInfo} {startTime : ℤ} {job : PlanJob}
    (h : jobFillin ptr jinfo startTime = .ok job) :
    ArraysSafe job ↔ job.jinfo.isExclusive = false ∧
      (job.reqNumNodes ∣ job.usage ∨ job.usage ≤ job.reqNumNodes) := by
  obtain ⟨hppn, hfixed⟩ := jobFillin_request h
  rw [← fits_iff job.reqNumNodes_pos hppn]
  constructor
  · intro hsafe
    have hshared : job.jinfo.isExclusive = false := by
      by_contra hexclusive
      rw [Bool.not_eq_false] at hexclusive
      exact not_arraysSafe_of_exclusive hexclusive hfixed hsafe
    refine ⟨hshared, ?_⟩
    by_contra hrem
    rcases Nat.lt_or_ge job.usage ((job.reqNumNodes + 1) * job.reqPpn) with hsmall | hlarge
    · exact not_arraysSafe_of_small hshared hfixed (not_le.mp hrem) hsmall hsafe
    · exact not_arraysSafe_of_large hshared hfixed hlarge hsafe
  · rintro ⟨hshared, hfits⟩
    exact arraysSafe_of_fits hshared hfits

/-- A queued job with the given requests. -/
def requestJob (procs nodect : ℤ) : JobInfo :=
  { (default : JobInfo) with
    state := .queued
    resreq := [⟨"procs", procs⟩, ⟨"nodect", nodect⟩, ⟨"mem", 0⟩, ⟨"walltime", 100⟩] }

/-- Four CPUs on two nodes: the arrays are safe. -/
theorem arraysSafe_four :
    ∃ job, jobFillin 0 (requestJob 4 2) (-1) = .ok job ∧ job.usage = 4 ∧ job.reqNumNodes = 2 ∧
      ArraysSafe job := by
  have hjob : jobFillin 0 (requestJob 4 2) (-1)
      = .ok (PlanJob.filled 0 (requestJob 4 2) 4 2 (by decide) 0 100 0 (-1)) := by decide
  exact ⟨_, hjob, rfl, rfl, (arraysSafe_iff hjob).mpr ⟨rfl, Or.inl (by decide)⟩⟩

/-- Three CPUs on two nodes: on a node with three free cores the loop completes a third
chunk, for which the arrays have no cell. -/
theorem arrays_overrun :
    ∃ job, jobFillin 0 (requestJob 3 2) (-1) = .ok job ∧ job.usage = 3 ∧ job.reqNumNodes = 2 ∧
      placeShared (remainderCluster job) job (remainderTable job) = .error .badIndex ∧
      ¬ ArraysSafe job := by
  have hjob : jobFillin 0 (requestJob 3 2) (-1)
      = .ok (PlanJob.filled 0 (requestJob 3 2) 3 2 (by decide) 0 100 0 (-1)) := by decide
  refine ⟨_, hjob, rfl, rfl, by decide, ?_⟩
  exact not_arraysSafe_of_large rfl (jobFillin_request hjob).2 (by decide)

end PlanSched
