/-
# What the initial slot table holds

The table that `first_free_slots_create` and `first_free_slots_initialize` fill for a cluster
and the jobs running on it: every node has its slots one after the other, they list each other,
and a slot knows what is left of memory and scratch space once its CPU is free.

What is left is computed from the requests of the jobs on the node's other CPUs, divided by
their numbers of CPUs.  A scratch request may be one of the codes `-1` and `-2`, which are
divided and taken off like amounts.

* `initialTable_run`: when the table is filled, and with what;
* `initialTable_wellFormed_iff`: when it is well formed;
* `sharesFit_of_amounts`: requests for which it is.
-/
import PlanSched.SlotTable
import PlanSched.TailSums

namespace PlanSched

open CheckedRun TailSums

/-! ## The cluster and its jobs -/

/-- A cluster as it is given to the planner: its CPUs are the cores of its nodes, `jobs_on_cpu`
has a cell for each core, and the jobs request memory, no negative amount, and CPUs. -/
structure RunningCluster extends PlanCluster where
  numCpus_eq : numCpus = toPlanCluster.coresSum
  cells_le : ∀ node ∈ nodes, ∀ jobs ∈ node.jobsOnCpu, node.coresTotal ≤ jobs.length
  mem_nonneg : ∀ node ∈ nodes, ∀ jobs ∈ node.jobsOnCpu, ∀ jinfo, some jinfo ∈ jobs →
    ∃ mem, findResourceReq jinfo.resreq "mem" = some mem ∧ 0 ≤ mem.amount
  procs_pos : ∀ node ∈ nodes, ∀ jobs ∈ node.jobsOnCpu, ∀ jinfo, some jinfo ∈ jobs →
    ∃ procs, findResourceReq jinfo.resreq "procs" = some procs ∧ 1 ≤ procs.amount

/-- The amount that a job requests. -/
def JobInfo.requested (jinfo : JobInfo) (name : String) : ℤ :=
  ((findResourceReq jinfo.resreq name).map ResourceReq.amount).getD 0

/-- The jobs on the CPUs of a node. -/
def NodeInfo.cells (node : NodeInfo) : List (Option JobInfo) :=
  match node.jobsOnCpu with
  | none => List.replicate node.coresTotal none
  | some jobsOnCpu => jobsOnCpu.take node.coresTotal

/-- The time from which a CPU is expected to be free. -/
def freedAt (time : ℤ) : Option JobInfo → ℤ
  | none => time
  | some jinfo =>
      if jinfo.stime + jinfo.requested "walltime" ≤ time then time + 1
      else jinfo.stime + jinfo.requested "walltime"

/-- What a CPU has of its job's memory. -/
def memShare : Option JobInfo → ℤ
  | none => 0
  | some jinfo => (jinfo.requested "mem").tdiv (toInt (jinfo.requested "procs"))

/-- What a CPU has of its job's scratch space. -/
def scratchShare : Option JobInfo → ℤ
  | none => 0
  | some jinfo => jinfo.scratchLocal.tdiv (toInt (jinfo.requested "procs"))

/-- The job of a CPU can be entered: it requests a walltime, and its number of CPUs is not `0`
as an `int`. -/
def CellReady (cell : Option JobInfo) : Prop :=
  ∀ jinfo ∈ cell, (findResourceReq jinfo.resreq "walltime").isSome = true ∧
    toInt (jinfo.requested "procs") ≠ 0

/-- The jobs on the CPUs of a node in service can be entered. -/
def NodeReady (node : NodeInfo) : Prop :=
  node.isUnavailable = false → ∀ cell ∈ node.cells, CellReady cell

/-! ## The table -/

/-- The index of the first slot of node number `n`. -/
def firstCpu (nodes : List NodeInfo) (n : ℕ) : ℕ := ((nodes.take n).map NodeInfo.coresTotal).sum

/-- The slot belongs to a node in service. -/
def InService (cluster : PlanCluster) (slot : FirstFreeSlot) : Prop :=
  ∃ node, cluster.nodes[slot.ninfo]? = some node ∧ node.isUnavailable = false

/-- The slots of the node that a slot belongs to. -/
def sameNode (slots : List FirstFreeSlot) (slot : FirstFreeSlot) : List FirstFreeSlot :=
  slots.filter (fun other => decide (other.ninfo = slot.ninfo))

/-- The table is well formed at the start of a plan. -/
structure WellFormedTable (cluster : PlanCluster) (time : ℤ) (slots : List FirstFreeSlot) :
    Prop where
  length : slots.length = cluster.numCpus
  node_lt : ∀ slot ∈ slots, slot.ninfo < cluster.nodes.length
  contiguous : ∀ n node, cluster.nodes[n]? = some node → ∀ c slot, slots[c]? = some slot →
    (slot.ninfo = n ↔
      firstCpu cluster.nodes n ≤ c ∧ c < firstCpu cluster.nodes n + node.coresTotal)
  releated : ∀ n node, cluster.nodes[n]? = some node → ∀ slot ∈ slots, slot.ninfo = n →
    slot.releatedCpus = List.range' (firstCpu cluster.nodes n) node.coresTotal
  usable_time : ∀ slot ∈ slots, InService cluster slot → time ≤ slot.time
  down_time : ∀ slot ∈ slots, ¬ InService cluster slot → slot.time = -1
  available : ∀ slot ∈ slots, InService cluster slot → slot.availableMem =
    slot.mem - usedAfter FirstFreeSlot.memUsedPerCpu (sameNode slots slot) slot.time
  available_mono : ∀ slot ∈ slots, InService cluster slot → ∀ other ∈ sameNode slots slot,
    slot.time ≤ other.time → slot.availableMem ≤ other.availableMem
  mem_le : ∀ slot ∈ slots, slot.availableMem ≤ slot.mem
  scratch_le : ∀ slot ∈ slots, slot.availableScratchLocal ≤ slot.scratchLocal

/-- What the cluster and its jobs must meet: the last node has cores, the jobs on CPUs in
service can be entered, and on every node in service the CPUs freed after one of them and by
the time of another have no negative amount of memory in sum, and those freed after one of them
no negative amount of scratch space. -/
structure SharesFit (cluster : PlanCluster) (time : ℤ) : Prop where
  last_pos : ∀ c ∈ (cluster.nodes.map NodeInfo.coresTotal).getLast?, 0 < c
  ready : ∀ node ∈ cluster.nodes, NodeReady node
  mem : ∀ node ∈ cluster.nodes, node.isUnavailable = false → ∀ cell ∈ node.cells,
    ∀ other ∈ node.cells,
      0 ≤ spanSum (freedAt time) memShare node.cells (freedAt time cell) (freedAt time other)
  scratch : ∀ node ∈ cluster.nodes, node.isUnavailable = false → ∀ cell ∈ node.cells,
    0 ≤ tailSum (freedAt time) scratchShare node.cells (freedAt time cell)

/-! ## The slots of one node -/

/-- A slot of node number `i`, whose slots begin at `counter`, before the initial times. -/
def createdSlot (i : ℕ) (node : NodeInfo) (counter : ℕ) : FirstFreeSlot where
  time := -1
  ninfo := i
  releatedCpus := List.range' counter node.coresTotal
  mem := getNodeMem node
  scratchLocal := getNodeScratchLocal node
  availableMem := getNodeMem node
  availableScratchLocal := getNodeScratchLocal node
  memUsedPerCpu := 0
  scratchLocalUsedPerCpu := 0

/-- The slot of a CPU, with its time and what it uses. -/
def FirstFreeSlot.enter (slot : FirstFreeSlot) (time : ℤ) (cell : Option JobInfo) :
    FirstFreeSlot :=
  { slot with
    time := freedAt time cell
    memUsedPerCpu := memShare cell
    scratchLocalUsedPerCpu := scratchShare cell }

/-- The slots of node number `i` in the initial table. -/
def nodeBlock (time : ℤ) (i : ℕ) (counter : ℕ) (node : NodeInfo) : List FirstFreeSlot :=
  if node.isUnavailable then List.replicate node.coresTotal (createdSlot i node counter)
  else
    let entered := node.cells.map (fun cell => (createdSlot i node counter).enter time cell)
    entered.map (FirstFreeSlot.settle entered)

/-- The initial table for the nodes from number `i` on. -/
def tableFrom (time : ℤ) : ℕ → ℕ → List NodeInfo → List FirstFreeSlot
  | _, _, [] => []
  | i, counter, node :: nodes =>
      nodeBlock time i counter node ++ tableFrom time (i + 1) (counter + node.coresTotal) nodes

/-- The table before the initial times. -/
def createdFrom : ℕ → ℕ → List NodeInfo → List FirstFreeSlot
  | _, _, [] => []
  | i, counter, node :: nodes =>
      createNode i node counter ++ createdFrom (i + 1) (counter + node.coresTotal) nodes

/-! ## One node -/

/-- A request that is there is what the job requests. -/
theorem requested_eq {jinfo : JobInfo} {name : String} {req : ResourceReq}
    (h : findResourceReq jinfo.resreq name = some req) : jinfo.requested name = req.amount := by
  unfold JobInfo.requested
  rw [h]
  rfl

/-- The slot of a CPU with a job is entered if the job can be. -/
theorem busy_ok {slot slot' : FirstFreeSlot} {jinfo : JobInfo} {time : ℤ} {mem procs : ResourceReq}
    (hmem : findResourceReq jinfo.resreq "mem" = some mem)
    (hprocs : findResourceReq jinfo.resreq "procs" = some procs) :
    slot.busy jinfo time = .ok slot' ↔
      CellReady (some jinfo) ∧ slot' = slot.enter time (some jinfo) := by
  have hmemAmount := requested_eq hmem
  have hprocsAmount := requested_eq hprocs
  unfold FirstFreeSlot.busy
  simp only [bind_ok, pure_ok, deref_ok, cdiv_ok, hmem, hprocs, Option.some.injEq,
    exists_eq_left']
  constructor
  · rintro ⟨walltime, hwalltime, m, ⟨hnonzero, rfl⟩, s, ⟨-, rfl⟩, rfl⟩
    have hwall := requested_eq hwalltime
    refine ⟨?_, ?_⟩
    · intro j hj
      cases hj
      refine ⟨?_, ?_⟩
      · rw [hwalltime]
        rfl
      · rwa [hprocsAmount]
    · unfold FirstFreeSlot.enter freedAt memShare scratchShare
      dsimp only
      rw [hwall, hmemAmount, hprocsAmount]
  · rintro ⟨hready, rfl⟩
    obtain ⟨hsome, hnonzero⟩ := hready jinfo rfl
    obtain ⟨walltime, hwalltime⟩ := Option.isSome_iff_exists.mp hsome
    have hwall := requested_eq hwalltime
    rw [hprocsAmount] at hnonzero
    refine ⟨walltime, hwalltime, _, ⟨hnonzero, rfl⟩, _, ⟨hnonzero, rfl⟩, ?_⟩
    unfold FirstFreeSlot.enter freedAt memShare scratchShare
    dsimp only
    rw [hwall, hmemAmount, hprocsAmount]

/-- The requests of the jobs of an array are there. -/
def HasRequests (jobs : List (Option JobInfo)) : Prop :=
  ∀ jinfo, some jinfo ∈ jobs → ∃ mem procs, findResourceReq jinfo.resreq "mem" = some mem ∧
    findResourceReq jinfo.resreq "procs" = some procs

/-- One CPU of a node with jobs. -/
theorem initializeCpu_ok {jobs : List (Option JobInfo)} (hjobs : HasRequests jobs) {time : ℤ}
    {slot slot' : FirstFreeSlot} {j : ℕ} :
    initializeCpu jobs time slot j = .ok slot' ↔
      ∃ cell, jobs[j]? = some cell ∧ CellReady cell ∧ slot' = slot.enter time cell := by
  unfold initializeCpu
  rw [bind_ok]
  refine exists_congr ?_
  intro cell
  rw [getAt_ok]
  refine and_congr_right ?_
  intro hcell
  cases cell with
  | none =>
      show (Except.ok (slot.idle time) : Run FirstFreeSlot) = .ok slot' ↔ _
      rw [Except.ok.injEq]
      constructor
      · rintro rfl
        refine ⟨?_, rfl⟩
        intro jinfo hjinfo
        cases hjinfo
      · rintro ⟨-, rfl⟩
        rfl
  | some jinfo =>
      obtain ⟨mem, procs, hmem, hprocs⟩ := hjobs jinfo (List.mem_of_getElem? hcell)
      exact busy_ok hmem hprocs

/-- The loop over the CPUs of a node with jobs. -/
theorem initializeCpus_ok {jobs : List (Option JobInfo)} (hjobs : HasRequests jobs) {time : ℤ}
    {slot : FirstFreeSlot} {n : ℕ} (hn : n ≤ jobs.length) {slots' : List FirstFreeSlot} :
    ((List.replicate n slot).zipIdx).mapM (fun e => initializeCpu jobs time e.1 e.2) =
        .ok slots' ↔
      (∀ cell ∈ jobs.take n, CellReady cell) ∧
        slots' = (jobs.take n).map (fun cell => slot.enter time cell) := by
  have hlength : (jobs.take n).length = n := by
    rw [List.length_take]
    omega
  have hzip : (List.replicate n slot).zipIdx.length = n := by
    rw [List.length_zipIdx, List.length_replicate]
  rw [mapM_ok, List.forall₂_iff_get]
  constructor
  · rintro ⟨hn', hcells⟩
    rw [hzip] at hn'
    -- CPU `j` of the node is entered from cell `j` of its jobs
    have hcell : ∀ (j : ℕ) (hj : j < n), ∃ cell, jobs[j]? = some cell ∧ CellReady cell ∧
        slots'[j]? = some (slot.enter time cell) := by
      intro j hj
      have hrun := hcells j (by omega) (by omega)
      rw [List.get_eq_getElem, List.getElem_zipIdx, List.getElem_replicate, List.get_eq_getElem,
        Nat.zero_add] at hrun
      obtain ⟨cell, hjob, hready, hslot⟩ := (initializeCpu_ok hjobs).mp hrun
      refine ⟨cell, hjob, hready, ?_⟩
      rw [List.getElem?_eq_getElem (by omega), hslot]
    refine ⟨?_, ?_⟩
    · intro cell hmem
      obtain ⟨j, hj⟩ := List.getElem?_of_mem hmem
      have hlt := (List.getElem?_eq_some_iff.mp hj).1
      rw [List.getElem?_take_of_lt (by omega)] at hj
      obtain ⟨cell', hjob, hready, -⟩ := hcell j (by omega)
      rw [hj] at hjob
      cases hjob
      exact hready
    · apply List.ext_getElem?
      intro j
      rw [List.getElem?_map]
      by_cases hj : j < n
      · obtain ⟨cell, hjob, -, hslot⟩ := hcell j hj
        rw [hslot, List.getElem?_take_of_lt hj, hjob]
        rfl
      · rw [List.getElem?_eq_none (by omega), List.getElem?_eq_none (by omega)]
        rfl
  · rintro ⟨hready, rfl⟩
    refine ⟨?_, ?_⟩
    · rw [hzip, List.length_map, hlength]
    · intro j hj hj'
      have hjn : j < n := by omega
      rw [List.get_eq_getElem, List.getElem_zipIdx, List.getElem_replicate, List.get_eq_getElem,
        List.getElem_map, Nat.zero_add]
      have hjob : jobs[j]? = some (jobs.take n)[j] := by
        rw [← List.getElem?_take_of_lt hjn, List.getElem?_eq_getElem (by omega)]
      exact (initializeCpu_ok hjobs).mpr
        ⟨_, hjob, hready _ (List.getElem_mem (by omega)), rfl⟩

/-- The pass over a node fills its slots. -/
theorem initializeNode_ok {node : NodeInfo} {time : ℤ} {i counter : ℕ}
    (hcells : ∀ jobs ∈ node.jobsOnCpu, node.coresTotal ≤ jobs.length)
    (hjobs : ∀ jobs ∈ node.jobsOnCpu, HasRequests jobs) {slots' : List FirstFreeSlot} :
    initializeNode time node (createNode i node counter) = .ok slots' ↔
      NodeReady node ∧ slots' = nodeBlock time i counter node := by
  have hcreated : createNode i node counter =
      List.replicate node.coresTotal (createdSlot i node counter) := rfl
  unfold initializeNode nodeBlock NodeReady NodeInfo.cells
  rw [hcreated]
  by_cases hout : node.isUnavailable = true
  · -- the slots of a node out of service are left as they were created
    rw [if_pos hout, if_pos hout, List.map_replicate, Except.ok.injEq]
    constructor
    · rintro rfl
      refine ⟨?_, rfl⟩
      intro hin
      rw [hout] at hin
      cases hin
    · rintro ⟨-, rfl⟩
      rfl
  · rw [if_neg hout, if_neg hout]
    have hin : node.isUnavailable = false := Bool.not_eq_true _ ▸ hout
    cases hnode : node.jobsOnCpu with
    | none =>
        have hidle : ∀ slots : List FirstFreeSlot, (∀ s ∈ slots, s.time = time) →
            ((createdSlot i node counter).enter time none).settle slots =
              (createdSlot i node counter).idle time := by
          intro slots hslots
          have hnone : ∀ used, usedAfter used slots time = 0 := by
            intro used
            exact tailSum_last (fun s hs => (hslots s hs).le)
          unfold FirstFreeSlot.settle FirstFreeSlot.enter FirstFreeSlot.idle createdSlot
          dsimp only [freedAt, memShare, scratchShare]
          rw [hnone, hnone, sub_zero, sub_zero]
        dsimp only
        rw [List.map_replicate, List.map_replicate, List.map_replicate, hidle _ (by
          intro s hs
          rw [List.eq_of_mem_replicate hs]
          rfl), Except.ok.injEq]
        constructor
        · rintro rfl
          refine ⟨?_, rfl⟩
          intro _ cell hcell
          rw [List.eq_of_mem_replicate hcell]
          intro jinfo hjinfo
          cases hjinfo
        · rintro ⟨-, rfl⟩
          rfl
    | some jobs =>
        have hcpus := @initializeCpus_ok jobs (hjobs jobs hnode) time (createdSlot i node counter)
          node.coresTotal (hcells jobs hnode)
        dsimp only
        rw [bind_ok]
        constructor
        · rintro ⟨busy, hbusy, hslots⟩
          obtain ⟨hready, rfl⟩ := hcpus.mp hbusy
          exact ⟨fun _ => hready, (pure_ok.mp hslots).symm⟩
        · rintro ⟨hready, rfl⟩
          exact ⟨_, hcpus.mpr ⟨hready hin, rfl⟩, rfl⟩

/-! ## The whole table -/

/-- The loop that creates the nodes' slots, on a table with a slot for each core left: it touches
the slot behind the end exactly if the last node has no core. -/
theorem createNodes_ok {numCpus : ℕ} (nodes : List NodeInfo) :
    ∀ {i : ℕ} {done slots : List FirstFreeSlot},
      done.length + (nodes.map NodeInfo.coresTotal).sum = numCpus →
      (createNodes numCpus i nodes done = .ok slots ↔
        (∀ c ∈ (nodes.map NodeInfo.coresTotal).getLast?, 0 < c) ∧
          slots = done ++ createdFrom i done.length nodes) := by
  induction nodes with
  | nil =>
      intro i done slots _
      rw [createNodes, createdFrom, List.append_nil, Except.ok.injEq]
      constructor
      · rintro rfl
        refine ⟨?_, rfl⟩
        intro c hc
        cases hc
      · rintro ⟨-, rfl⟩
        rfl
  | cons node nodes ih =>
      intro i done slots hsum
      rw [List.map_cons, List.sum_cons] at hsum
      rw [createNodes, createdFrom]
      by_cases hend : numCpus ≤ done.length
      · -- no core is left: all nodes from here on have none
        rw [if_pos (Or.inl hend)]
        constructor
        · intro h
          cases h
        · rintro ⟨hlast, -⟩
          obtain ⟨c, hc⟩ : ∃ c, ((node :: nodes).map NodeInfo.coresTotal).getLast? = some c :=
            ⟨_, List.getLast?_eq_some_getLast (by simp)⟩
          have hpos := hlast c hc
          have hle := List.single_le_sum (by simp) c (List.mem_of_getLast? hc)
          rw [List.map_cons, List.sum_cons] at hle
          omega
      · rw [if_neg (by omega)]
        have hlength : (done ++ createNode i node done.length).length =
            done.length + node.coresTotal := by
          rw [List.length_append, createNode, List.length_replicate]
        rw [ih (by omega), hlength, List.append_assoc]
        refine and_congr_left ?_
        intro _
        cases nodes with
        | nil =>
            rw [List.map_nil, List.sum_nil] at hsum
            constructor
            · intro _ c hc
              have hcores : node.coresTotal = c := by simpa using hc
              omega
            · intro _ c hc
              cases hc
        | cons next nodes => rw [List.map_cons (l := next :: nodes), List.map_cons,
            List.getLast?_cons_cons]

/-- The loop over the nodes on the table that was created. -/
theorem initializeNodes_ok {time : ℤ} (nodes : List NodeInfo)
    (hcells : ∀ node ∈ nodes, ∀ jobs ∈ node.jobsOnCpu, node.coresTotal ≤ jobs.length)
    (hjobs : ∀ node ∈ nodes, ∀ jobs ∈ node.jobsOnCpu, HasRequests jobs) :
    ∀ {i counter : ℕ} {slots : List FirstFreeSlot},
      initializeNodes time nodes (createdFrom i counter nodes) = .ok slots ↔
        (∀ node ∈ nodes, NodeReady node) ∧ slots = tableFrom time i counter nodes := by
  induction nodes with
  | nil =>
      intro i counter slots
      rw [createdFrom, initializeNodes, tableFrom, Except.ok.injEq]
      constructor
      · rintro rfl
        refine ⟨?_, rfl⟩
        intro node hnode
        cases hnode
      · rintro ⟨-, rfl⟩
        rfl
  | cons node nodes ih =>
      intro i counter slots
      have hlength : (createNode i node counter).length = node.coresTotal := by
        rw [createNode, List.length_replicate]
      have hnode := @initializeNode_ok node time i counter
        (hcells node List.mem_cons_self) (hjobs node List.mem_cons_self)
      have hrest := @ih (fun n hn => hcells n (List.mem_cons_of_mem _ hn))
        (fun n hn => hjobs n (List.mem_cons_of_mem _ hn)) (i + 1) (counter + node.coresTotal)
      rw [createdFrom, initializeNodes, if_neg (by rw [List.length_append, hlength]; omega),
        List.take_left' hlength, List.drop_left' hlength, tableFrom, bind_ok]
      constructor
      · rintro ⟨first, hfirst, h⟩
        obtain ⟨others, hothers, h⟩ := bind_ok.mp h
        obtain ⟨hready, rfl⟩ := hnode.mp hfirst
        obtain ⟨hreadyRest, rfl⟩ := hrest.mp hothers
        exact ⟨List.forall_mem_cons.mpr ⟨hready, hreadyRest⟩, (pure_ok.mp h).symm⟩
      · rintro ⟨hready, rfl⟩
        obtain ⟨hready, hreadyRest⟩ := List.forall_mem_cons.mp hready
        refine ⟨_, hnode.mpr ⟨hready, rfl⟩, ?_⟩
        exact bind_ok.mpr ⟨_, hrest.mpr ⟨hreadyRest, rfl⟩, rfl⟩

/-- The requests that the cluster's jobs have. -/
theorem RunningCluster.hasRequests (cluster : RunningCluster) :
    ∀ node ∈ cluster.nodes, ∀ jobs ∈ node.jobsOnCpu, HasRequests jobs := by
  intro node hnode jobs hjobs jinfo hjinfo
  obtain ⟨mem, hmem, -⟩ := cluster.mem_nonneg node hnode jobs hjobs jinfo hjinfo
  obtain ⟨procs, hprocs, -⟩ := cluster.procs_pos node hnode jobs hjobs jinfo hjinfo
  exact ⟨mem, procs, hmem, hprocs⟩

/-- The table is filled exactly if the last node has cores and the jobs on CPUs in service can
be entered; then it holds the blocks of the nodes. -/
theorem initialTable_run (cluster : RunningCluster) {time : ℤ} {slots : List FirstFreeSlot} :
    initialTable cluster.toPlanCluster time = .ok slots ↔
      ((∀ c ∈ (cluster.nodes.map NodeInfo.coresTotal).getLast?, 0 < c) ∧
        ∀ node ∈ cluster.nodes, NodeReady node) ∧
      slots = tableFrom time 0 0 cluster.nodes := by
  have hsum : ([] : List FirstFreeSlot).length +
      (cluster.nodes.map NodeInfo.coresTotal).sum = cluster.numCpus := by
    rw [cluster.numCpus_eq, List.length_nil, Nat.zero_add]
    rfl
  have hcreate := @createNodes_ok cluster.numCpus cluster.nodes 0 []
  have hfill := @initializeNodes_ok time cluster.nodes cluster.cells_le cluster.hasRequests 0 0
  have hlength : ∀ {slots}, createNodes cluster.numCpus 0 cluster.nodes [] = .ok slots →
      firstFreeSlotsCreate cluster.toPlanCluster = .ok slots := by
    intro slots hslots
    have hlen := createNodes_length _ hslots
    unfold firstFreeSlotsCreate
    rw [hslots]
    show (Except.ok (slots ++ List.replicate (cluster.numCpus - slots.length) _) : Run _) = _
    rw [hlen, hsum, Nat.sub_self, List.replicate_zero, List.append_nil]
  rw [initialTable_eq cluster.numCpus_eq]
  unfold initialSlots
  rw [bind_ok]
  constructor
  · rintro ⟨created, hcreated, hrun⟩
    obtain ⟨made, hmade, -⟩ := bind_ok.mp hcreated
    have hsame := hlength hmade
    rw [hcreated] at hsame
    cases hsame
    obtain ⟨hlast, rfl⟩ := (hcreate hsum).mp hmade
    obtain ⟨hready, rfl⟩ := hfill.mp hrun
    exact ⟨⟨hlast, hready⟩, rfl⟩
  · rintro ⟨⟨hlast, hready⟩, rfl⟩
    exact ⟨_, hlength ((hcreate hsum).mpr ⟨hlast, rfl⟩), hfill.mpr ⟨hready, rfl⟩⟩

/-! ## Reading the table -/

/-- The slot of a CPU of node number `i` that is in service. -/
def blockSlot (time : ℤ) (i counter : ℕ) (node : NodeInfo) (cell : Option JobInfo) :
    FirstFreeSlot :=
  ((createdSlot i node counter).enter time cell).settle
    (node.cells.map (fun other => (createdSlot i node counter).enter time other))

/-- What the CPUs freed after a time use, by their jobs. -/
theorem usedAfter_entered (used : FirstFreeSlot → ℤ) (share : Option JobInfo → ℤ) (time : ℤ)
    (slot : FirstFreeSlot) (hshare : ∀ cell, used (slot.enter time cell) = share cell)
    (cells : List (Option JobInfo)) (t : ℤ) :
    usedAfter used (cells.map (fun cell => slot.enter time cell)) t =
      tailSum (freedAt time) share cells t := by
  show tailSum FirstFreeSlot.time used _ t = _
  rw [tailSum_map]
  unfold tailSum
  congr 2
  funext cell
  exact hshare cell

/-- What is left for a CPU: the node's amounts without the shares of the CPUs freed later. -/
theorem blockSlot_left (time : ℤ) (i counter : ℕ) (node : NodeInfo) (cell : Option JobInfo) :
    (blockSlot time i counter node cell).availableMem = getNodeMem node -
        tailSum (freedAt time) memShare node.cells (freedAt time cell) ∧
      (blockSlot time i counter node cell).availableScratchLocal = getNodeScratchLocal node -
        tailSum (freedAt time) scratchShare node.cells (freedAt time cell) := by
  have hmem := usedAfter_entered FirstFreeSlot.memUsedPerCpu memShare time
    (createdSlot i node counter) (fun _ => rfl) node.cells
  have hscratch := usedAfter_entered FirstFreeSlot.scratchLocalUsedPerCpu scratchShare time
    (createdSlot i node counter) (fun _ => rfl) node.cells
  refine ⟨?_, ?_⟩
  · show getNodeMem node - usedAfter _ _ (freedAt time cell) = _
    rw [hmem]
  · show getNodeScratchLocal node - usedAfter _ _ (freedAt time cell) = _
    rw [hscratch]

/-- The slots of a node in service. -/
theorem nodeBlock_in {node : NodeInfo} (h : node.isUnavailable = false) (time : ℤ)
    (i counter : ℕ) :
    nodeBlock time i counter node = node.cells.map (blockSlot time i counter node) := by
  unfold nodeBlock
  rw [h, if_neg Bool.false_ne_true]
  dsimp only
  rw [List.map_map]
  rfl

/-- The slots of a node out of service. -/
theorem nodeBlock_out {node : NodeInfo} (h : node.isUnavailable = true) (time : ℤ)
    (i counter : ℕ) :
    nodeBlock time i counter node =
      List.replicate node.coresTotal (createdSlot i node counter) := by
  unfold nodeBlock
  rw [if_pos h]

/-- The place of a slot of a node, the array it shares, and the node's amounts. -/
theorem nodeBlock_place {time : ℤ} {i counter : ℕ} {node : NodeInfo} {slot : FirstFreeSlot}
    (h : slot ∈ nodeBlock time i counter node) :
    slot.ninfo = i ∧ slot.releatedCpus = List.range' counter node.coresTotal ∧
      slot.mem = getNodeMem node ∧ slot.scratchLocal = getNodeScratchLocal node := by
  cases hout : node.isUnavailable with
  | true =>
      rw [nodeBlock_out hout] at h
      rw [List.eq_of_mem_replicate h]
      exact ⟨rfl, rfl, rfl, rfl⟩
  | false =>
      rw [nodeBlock_in hout] at h
      obtain ⟨cell, -, rfl⟩ := List.mem_map.mp h
      exact ⟨rfl, rfl, rfl, rfl⟩

/-- A node has a slot for each core. -/
theorem nodeBlock_length {node : NodeInfo}
    (hcells : ∀ jobs ∈ node.jobsOnCpu, node.coresTotal ≤ jobs.length) (time : ℤ)
    (i counter : ℕ) : (nodeBlock time i counter node).length = node.coresTotal := by
  cases hout : node.isUnavailable with
  | true => rw [nodeBlock_out hout, List.length_replicate]
  | false =>
      rw [nodeBlock_in hout, List.length_map]
      unfold NodeInfo.cells
      cases hjobs : node.jobsOnCpu with
      | none => exact List.length_replicate
      | some jobs =>
          have := hcells jobs hjobs
          show (jobs.take node.coresTotal).length = node.coresTotal
          rw [List.length_take]
          omega

/-- The slots before the nodes behind the first. -/
theorem firstCpu_succ (node : NodeInfo) (nodes : List NodeInfo) (k : ℕ) :
    firstCpu (node :: nodes) (k + 1) = node.coresTotal + firstCpu nodes k := by
  unfold firstCpu
  rw [List.take_succ_cons, List.map_cons, List.sum_cons]

/-- A node's slots end before those of the nodes behind it begin. -/
theorem firstCpu_le {nodes : List NodeInfo} {k n : ℕ} {node : NodeInfo}
    (hk : nodes[k]? = some node) (hlt : k < n) :
    firstCpu nodes k + node.coresTotal ≤ firstCpu nodes n := by
  unfold firstCpu
  have hsplit : nodes.take (k + 1) = nodes.take k ++ [node] := by
    obtain ⟨hlt, rfl⟩ := List.getElem?_eq_some_iff.mp hk
    exact List.take_succ_eq_append_getElem hlt
  have hprefix : nodes.take (k + 1) <+: nodes.take n := List.take_prefix_take_left (by omega)
  obtain ⟨rest, hrest⟩ := hprefix
  rw [← hrest, hsplit, List.map_append, List.map_append, List.sum_append, List.sum_append,
    List.map_singleton, List.sum_singleton]
  omega

/-- A slot of the table is one of the slots of a node, at its place. -/
theorem getElem_tableFrom {time : ℤ} (nodes : List NodeInfo)
    (hcells : ∀ node ∈ nodes, ∀ jobs ∈ node.jobsOnCpu, node.coresTotal ≤ jobs.length) :
    ∀ {i counter c : ℕ} {slot : FirstFreeSlot},
      (tableFrom time i counter nodes)[c]? = some slot →
      ∃ k node, nodes[k]? = some node ∧ firstCpu nodes k ≤ c ∧
        c < firstCpu nodes k + node.coresTotal ∧
        slot ∈ nodeBlock time (i + k) (counter + firstCpu nodes k) node := by
  induction nodes with
  | nil =>
      intro i counter c slot h
      cases h
  | cons node nodes ih =>
      intro i counter c slot h
      have hlength := nodeBlock_length (hcells node List.mem_cons_self) time i counter
      rw [tableFrom] at h
      by_cases hc : c < node.coresTotal
      · rw [List.getElem?_append_left (by omega)] at h
        refine ⟨0, node, rfl, Nat.zero_le _, ?_, List.mem_of_getElem? h⟩
        show c < 0 + _
        omega
      · rw [List.getElem?_append_right (by omega), hlength] at h
        obtain ⟨k, node', hnode, hle, hlt, hmem⟩ :=
          ih (fun n hn => hcells n (List.mem_cons_of_mem _ hn)) h
        refine ⟨k + 1, node', hnode, ?_, ?_, ?_⟩
        · rw [firstCpu_succ]
          omega
        · rw [firstCpu_succ]
          omega
        · have hi : i + (k + 1) = i + 1 + k := by omega
          rw [firstCpu_succ, ← Nat.add_assoc counter, hi]
          exact hmem

/-- A slot of the table is one of the slots of a node. -/
theorem mem_tableFrom (time : ℤ) {nodes : List NodeInfo}
    (hcells : ∀ node ∈ nodes, ∀ jobs ∈ node.jobsOnCpu, node.coresTotal ≤ jobs.length)
    (slot : FirstFreeSlot) (h : slot ∈ tableFrom time 0 0 nodes) :
    ∃ n node, nodes[n]? = some node ∧ slot ∈ nodeBlock time n (firstCpu nodes n) node := by
  obtain ⟨c, hc⟩ := List.getElem?_of_mem h
  obtain ⟨k, node, hnode, -, -, hmem⟩ := getElem_tableFrom nodes hcells hc
  rw [Nat.zero_add, Nat.zero_add] at hmem
  exact ⟨k, node, hnode, hmem⟩

/-- The slots of the table that point to a node are the slots of the node. -/
theorem filter_tableFrom (time : ℤ) (nodes : List NodeInfo)
    (hcells : ∀ node ∈ nodes, ∀ jobs ∈ node.jobsOnCpu, node.coresTotal ≤ jobs.length) :
    ∀ {i counter k : ℕ} {node : NodeInfo}, nodes[k]? = some node →
      (tableFrom time i counter nodes).filter (fun slot => decide (slot.ninfo = i + k)) =
        nodeBlock time (i + k) (counter + firstCpu nodes k) node := by
  induction nodes with
  | nil =>
      intro i counter k node h
      cases h
  | cons first nodes ih =>
      intro i counter k node h
      have hrest := fun n hn => hcells n (List.mem_cons_of_mem first hn)
      rw [tableFrom, List.filter_append]
      -- the slots of the first node come first; those behind them have larger numbers
      cases k with
      | zero =>
          cases h
          have hothers : (tableFrom time (i + 1) (counter + first.coresTotal) nodes).filter
              (fun slot => decide (slot.ninfo = i + 0)) = [] := by
            rw [List.filter_eq_nil_iff]
            intro slot hslot
            obtain ⟨c, hc⟩ := List.getElem?_of_mem hslot
            obtain ⟨k, node, -, -, -, hmem⟩ := getElem_tableFrom nodes hrest hc
            have hninfo := (nodeBlock_place hmem).1
            rw [decide_eq_true_eq]
            omega
          rw [hothers, List.append_nil, List.filter_eq_self.mpr]
          · rfl
          · intro slot hslot
            exact decide_eq_true (nodeBlock_place hslot).1
      | succ k =>
          have hown : (nodeBlock time i counter first).filter
              (fun slot => decide (slot.ninfo = i + (k + 1))) = [] := by
            rw [List.filter_eq_nil_iff]
            intro slot hslot
            have hninfo := (nodeBlock_place hslot).1
            rw [decide_eq_true_eq]
            omega
          have hothers := @ih hrest (i + 1) (counter + first.coresTotal) k node h
          have hi : i + (k + 1) = i + 1 + k := by omega
          rw [hown, List.nil_append, firstCpu_succ, ← Nat.add_assoc counter, hi, hothers]

/-- The table has a slot for each core. -/
theorem tableFrom_length {time : ℤ} (nodes : List NodeInfo)
    (hcells : ∀ node ∈ nodes, ∀ jobs ∈ node.jobsOnCpu, node.coresTotal ≤ jobs.length) :
    ∀ {i counter : ℕ},
      (tableFrom time i counter nodes).length = (nodes.map NodeInfo.coresTotal).sum := by
  induction nodes with
  | nil =>
      intro i counter
      rfl
  | cons node nodes ih =>
      intro i counter
      rw [tableFrom, List.length_append, nodeBlock_length (hcells node List.mem_cons_self),
        ih (fun n hn => hcells n (List.mem_cons_of_mem _ hn)), List.map_cons, List.sum_cons]

/-! ## When the table is well formed -/

variable {cluster : RunningCluster}

/-- The slots of the node that a slot of the table belongs to. -/
theorem sameNode_tableFrom (time : ℤ) {n : ℕ} {node : NodeInfo}
    (hnode : cluster.nodes[n]? = some node) {slot : FirstFreeSlot} (hninfo : slot.ninfo = n) :
    sameNode (tableFrom time 0 0 cluster.nodes) slot =
      nodeBlock time n (firstCpu cluster.nodes n) node := by
  have hfilter := @filter_tableFrom time cluster.nodes cluster.cells_le 0 0 n node hnode
  rw [Nat.zero_add, Nat.zero_add] at hfilter
  unfold sameNode
  rw [hninfo]
  exact hfilter

variable {time : ℤ}

/-- The slots of a node are slots of the table. -/
theorem block_subset_tableFrom {n : ℕ} {node : NodeInfo} (hnode : cluster.nodes[n]? = some node)
    {slot : FirstFreeSlot} (h : slot ∈ nodeBlock time n (firstCpu cluster.nodes n) node) :
    slot ∈ tableFrom time 0 0 cluster.nodes := by
  rw [← sameNode_tableFrom time hnode (nodeBlock_place h).1] at h
  exact List.mem_of_mem_filter h

/-- In a well-formed table the shares of the jobs fit. -/
theorem SharesFit.of_wellFormed
    (hlast : ∀ c ∈ (cluster.nodes.map NodeInfo.coresTotal).getLast?, 0 < c)
    (hready : ∀ node ∈ cluster.nodes, NodeReady node)
    (h : WellFormedTable cluster.toPlanCluster time (tableFrom time 0 0 cluster.nodes)) :
    SharesFit cluster.toPlanCluster time := by
  -- the slot of a CPU in service
  have hslot : ∀ n node, cluster.nodes[n]? = some node → node.isUnavailable = false →
      ∀ cell ∈ node.cells, blockSlot time n (firstCpu cluster.nodes n) node cell ∈
        nodeBlock time n (firstCpu cluster.nodes n) node := by
    intro n node _ hin cell hcell
    rw [nodeBlock_in hin]
    exact List.mem_map_of_mem hcell
  refine ⟨hlast, hready, ?_, ?_⟩
  · intro node hmem hin
    obtain ⟨n, hn⟩ := List.getElem?_of_mem hmem
    refine (tailSum_antitone_iff node.cells).mp ?_
    intro cell hcell other hother hle
    have hs := hslot n node hn hin cell hcell
    have hs' := hslot n node hn hin other hother
    have hmono := h.available_mono _ (block_subset_tableFrom hn hs) ⟨node, hn, hin⟩
      (blockSlot time n (firstCpu cluster.nodes n) node other) (by
        rw [sameNode_tableFrom time hn rfl]
        exact hs') hle
    rw [(blockSlot_left ..).1, (blockSlot_left ..).1] at hmono
    omega
  · intro node hmem hin cell hcell
    obtain ⟨n, hn⟩ := List.getElem?_of_mem hmem
    have hs := hslot n node hn hin cell hcell
    have hle := h.scratch_le _ (block_subset_tableFrom hn hs)
    rw [(blockSlot_left ..).2] at hle
    have hscratch : (blockSlot time n (firstCpu cluster.nodes n) node cell).scratchLocal =
      getNodeScratchLocal node := rfl
    omega

/-- If the shares of the jobs fit, the table is well formed. -/
theorem SharesFit.wellFormed (h : SharesFit cluster.toPlanCluster time) :
    WellFormedTable cluster.toPlanCluster time (tableFrom time 0 0 cluster.nodes) := by
  have hmem := mem_tableFrom time cluster.cells_le
  -- the slots of nodes in service, as the CPUs of their nodes
  have hserved : ∀ slot ∈ tableFrom time 0 0 cluster.nodes,
      InService cluster.toPlanCluster slot → ∃ n node, cluster.nodes[n]? = some node ∧
        slot.ninfo = n ∧ node.isUnavailable = false ∧ ∃ cell ∈ node.cells,
          slot = blockSlot time n (firstCpu cluster.nodes n) node cell := by
    rintro slot hslot ⟨node, hnode, hin⟩
    obtain ⟨n, node', hn, hblock⟩ := hmem slot hslot
    have hninfo := (nodeBlock_place hblock).1
    rw [hninfo, hn] at hnode
    cases hnode
    rw [nodeBlock_in hin] at hblock
    obtain ⟨cell, hcell, heq⟩ := List.mem_map.mp hblock
    exact ⟨n, node, hn, hninfo, hin, cell, hcell, heq.symm⟩
  -- the others are as they were created
  have hidle : ∀ slot ∈ tableFrom time 0 0 cluster.nodes,
      ¬ InService cluster.toPlanCluster slot →
        ∃ n node, slot = createdSlot n node (firstCpu cluster.nodes n) := by
    intro slot hslot hout
    obtain ⟨n, node, hn, hblock⟩ := hmem slot hslot
    have hninfo := (nodeBlock_place hblock).1
    cases hdown : node.isUnavailable with
    | true =>
        rw [nodeBlock_out hdown] at hblock
        exact ⟨n, node, List.eq_of_mem_replicate hblock⟩
    | false =>
        refine absurd ⟨node, ?_, hdown⟩ hout
        rw [hninfo]
        exact hn
  constructor
  case length =>
    rw [tableFrom_length _ cluster.cells_le, cluster.numCpus_eq]
    rfl
  case node_lt =>
    intro slot hslot
    obtain ⟨n, node, hn, hblock⟩ := hmem slot hslot
    rw [(nodeBlock_place hblock).1]
    exact (List.getElem?_eq_some_iff.mp hn).1
  case contiguous =>
    intro n node hn c slot hc
    obtain ⟨k, node', hk, hle, hlt, hblock⟩ := getElem_tableFrom _ cluster.cells_le hc
    rw [Nat.zero_add, Nat.zero_add] at hblock
    have hninfo := (nodeBlock_place hblock).1
    constructor
    · intro heq
      have hkn : k = n := by omega
      subst hkn
      rw [hn] at hk
      cases hk
      exact ⟨hle, hlt⟩
    · rintro ⟨hle', hlt'⟩
      -- the stretches of two nodes do not overlap
      rw [hninfo]
      rcases lt_trichotomy k n with hkn | hkn | hkn
      · have := firstCpu_le hk hkn
        omega
      · exact hkn
      · have := firstCpu_le hn hkn
        omega
  case releated =>
    intro n node hn slot hslot hninfo
    obtain ⟨k, node', hk, hblock⟩ := hmem slot hslot
    obtain ⟨hplace, hreleated, -, -⟩ := nodeBlock_place hblock
    have hkn : k = n := by omega
    subst hkn
    rw [hn] at hk
    cases hk
    exact hreleated
  case usable_time =>
    intro slot hslot hin
    obtain ⟨n, node, -, -, -, cell, -, rfl⟩ := hserved slot hslot hin
    show time ≤ freedAt time cell
    cases cell with
    | none => exact le_rfl
    | some jinfo =>
        unfold freedAt
        dsimp only
        split
        · omega
        · omega
  case down_time =>
    intro slot hslot hout
    obtain ⟨n, node, rfl⟩ := hidle slot hslot hout
    rfl
  case available =>
    intro slot hslot hin
    obtain ⟨n, node, hn, hninfo, hup, cell, -, rfl⟩ := hserved slot hslot hin
    rw [sameNode_tableFrom time hn hninfo, (blockSlot_left ..).1, nodeBlock_in hup]
    show _ = getNodeMem node - tailSum FirstFreeSlot.time FirstFreeSlot.memUsedPerCpu _ _
    rw [tailSum_map]
    rfl
  case available_mono =>
    intro slot hslot hin other hother hle
    obtain ⟨n, node, hn, hninfo, hup, cell, hcell, rfl⟩ := hserved slot hslot hin
    rw [sameNode_tableFrom time hn hninfo, nodeBlock_in hup] at hother
    obtain ⟨cell', hcell', rfl⟩ := List.mem_map.mp hother
    have hspan := h.mem node (List.mem_of_getElem? hn) hup
    have htail := (tailSum_antitone_iff node.cells).mpr hspan cell hcell cell' hcell' hle
    rw [(blockSlot_left ..).1, (blockSlot_left ..).1]
    omega
  case mem_le =>
    intro slot hslot
    by_cases hin : InService cluster.toPlanCluster slot
    · obtain ⟨n, node, hn, -, hup, cell, hcell, rfl⟩ := hserved slot hslot hin
      have hspan := h.mem node (List.mem_of_getElem? hn) hup cell hcell
      have htail := tailSum_nonneg_of_span hspan
      rw [(blockSlot_left ..).1]
      show _ ≤ getNodeMem node
      omega
    · obtain ⟨n, node, rfl⟩ := hidle slot hslot hin
      exact le_rfl
  case scratch_le =>
    intro slot hslot
    by_cases hin : InService cluster.toPlanCluster slot
    · obtain ⟨n, node, hn, -, hup, cell, hcell, rfl⟩ := hserved slot hslot hin
      have htail := h.scratch node (List.mem_of_getElem? hn) hup cell hcell
      rw [(blockSlot_left ..).2]
      show _ ≤ getNodeScratchLocal node
      omega
    · obtain ⟨n, node, rfl⟩ := hidle slot hslot hin
      exact le_rfl

/-- The initial table is filled and well formed exactly if the last node has cores, the jobs can
be entered and their shares fit. -/
theorem initialTable_wellFormed_iff (cluster : RunningCluster) (time : ℤ) :
    (∃ slots, initialTable cluster.toPlanCluster time = .ok slots ∧
      WellFormedTable cluster.toPlanCluster time slots) ↔
    SharesFit cluster.toPlanCluster time := by
  constructor
  · rintro ⟨slots, hrun, hwell⟩
    obtain ⟨⟨hlast, hready⟩, rfl⟩ := (initialTable_run cluster).mp hrun
    exact SharesFit.of_wellFormed hlast hready hwell
  · intro h
    exact ⟨_, (initialTable_run cluster).mpr ⟨⟨h.last_pos, h.ready⟩, rfl⟩, h.wellFormed⟩

/-! ## Requests that fit -/

/-- A job on a CPU of a node requests no negative amount of memory, and CPUs. -/
theorem requested_of_mem_cells {node : NodeInfo} (hnode : node ∈ cluster.nodes)
    {jinfo : JobInfo} (h : some jinfo ∈ node.cells) :
    0 ≤ jinfo.requested "mem" ∧ 1 ≤ jinfo.requested "procs" := by
  unfold NodeInfo.cells at h
  cases hjobs : node.jobsOnCpu with
  | none =>
      rw [hjobs] at h
      exact absurd (List.eq_of_mem_replicate h) (by simp)
  | some jobs =>
      rw [hjobs] at h
      have hjinfo := List.mem_of_mem_take h
      obtain ⟨mem, hmem, hmempos⟩ := cluster.mem_nonneg node hnode jobs hjobs jinfo hjinfo
      obtain ⟨procs, hprocs, hprocspos⟩ := cluster.procs_pos node hnode jobs hjobs jinfo hjinfo
      rw [requested_eq hmem, requested_eq hprocs]
      exact ⟨hmempos, hprocspos⟩

/-- The shares fit if the last node has cores and every job on a CPU requests a walltime, a number
of CPUs that an `int` holds, and an amount of scratch space that is no code. -/
theorem sharesFit_of_amounts
    (hlast : ∀ c ∈ (cluster.nodes.map NodeInfo.coresTotal).getLast?, 0 < c)
    (hjobs : ∀ node ∈ cluster.nodes, ∀ jinfo, some jinfo ∈ node.cells →
      (findResourceReq jinfo.resreq "walltime").isSome = true ∧
        jinfo.requested "procs" < 2 ^ 31 ∧ 0 ≤ jinfo.scratchLocal) :
    SharesFit cluster.toPlanCluster time := by
  have hprocs : ∀ node ∈ cluster.nodes, ∀ jinfo, some jinfo ∈ node.cells →
      1 ≤ toInt (jinfo.requested "procs") := by
    intro node hnode jinfo hjinfo
    have hpos := (requested_of_mem_cells hnode hjinfo).2
    rw [toInt_of_range (by omega) (hjobs node hnode jinfo hjinfo).2.1]
    exact hpos
  have hmem : ∀ node ∈ cluster.nodes, ∀ cell ∈ node.cells, 0 ≤ memShare cell := by
    intro node hnode cell hcell
    cases cell with
    | none => exact le_rfl
    | some jinfo =>
        have hpos := hprocs node hnode jinfo hcell
        exact Int.tdiv_nonneg (requested_of_mem_cells hnode hcell).1 (by omega)
  have hscratch : ∀ node ∈ cluster.nodes, ∀ cell ∈ node.cells, 0 ≤ scratchShare cell := by
    intro node hnode cell hcell
    cases cell with
    | none => exact le_rfl
    | some jinfo =>
        have hpos := hprocs node hnode jinfo hcell
        exact Int.tdiv_nonneg (hjobs node hnode jinfo hcell).2.2 (by omega)
  refine ⟨hlast, ?_, ?_, ?_⟩
  · intro node hnode _ cell hcell jinfo hjinfo
    cases hjinfo
    have hpos := hprocs node hnode jinfo hcell
    exact ⟨(hjobs node hnode jinfo hcell).1, by omega⟩
  · intro node hnode _ cell _ other _
    exact spanSum_nonneg (hmem node hnode) _ _
  · intro node hnode _ cell _
    exact tailSum_nonneg_of_span (fun other _ => spanSum_nonneg (hscratch node hnode) _ _)

/-- The scratch request of a job is read and is a code exactly if its nodespec is not empty and does
not parse or asks for scratch space that is not local. -/
theorem jobGetScratchLocal_neg_iff {parseNodespec : String → Option ParsedNodespec}
    {nodespec : String}
    (hsize : ∀ spec ∈ parseNodespec nodespec, spec.first.scratch < 2 ^ 63) :
    (∃ scratch, jobGetScratchLocal parseNodespec nodespec = .ok scratch ∧ scratch < 0) ↔
      nodespec ≠ "" ∧ ∀ spec ∈ parseNodespec nodespec,
        spec.first.scratchType = .scratchSSD ∨ spec.first.scratchType = .scratchShared := by
  unfold jobGetScratchLocal nodeSpecText freeNodeSpecText
  by_cases hempty : nodespec = ""
  · rw [if_pos hempty, if_pos hempty]
    refine iff_of_false ?_ (fun h => h.1 hempty)
    rintro ⟨scratch, hrun, _⟩
    split at hrun
    · cases hrun
    · cases hrun
  rw [if_neg hempty, if_neg hempty, and_iff_right hempty]
  cases hparse : parseNodespec nodespec with
  | none =>
      refine iff_of_true ⟨-1, rfl, by decide⟩ ?_
      intro spec hspec
      cases hspec
  | some spec =>
      have hlt := hsize spec hparse
      have hamount : Int.bmod (spec.first.scratch : ℤ) (2 ^ 64) = spec.first.scratch := by
        rw [Int.bmod_eq_of_le] <;> omega
      dsimp only
      rw [hamount]
      by_cases hssd : spec.first.scratchType = .scratchSSD
      · rw [if_pos hssd]
        refine iff_of_true ⟨-2, rfl, by decide⟩ ?_
        intro spec' hspec
        cases hspec
        exact Or.inl hssd
      by_cases hshared : spec.first.scratchType = .scratchShared
      · rw [if_neg hssd, if_pos hshared]
        refine iff_of_true ⟨-2, rfl, by decide⟩ ?_
        intro spec' hspec
        cases hspec
        exact Or.inr hshared
      · rw [if_neg hssd, if_neg hshared]
        refine iff_of_false ?_ (fun h => (h spec rfl).elim hssd hshared)
        rintro ⟨scratch, hrun, hneg⟩
        cases hrun
        omega

/-! ### Scratch space on a disk of its own -/

/-- What the parser makes of a text that asks for scratch space of type `ssd`. -/
def ssdNodespec : ParsedNodespec := ⟨⟨1, none, none, 1, 0, 0, 1024, .scratchSSD, []⟩, []⟩

/-- A job with such scratch space that runs on one CPU. -/
def ssdJob : JobInfo where
  jobId := "1"
  account := "zubat"
  group := "zubat"
  queue := 0
  state := .running
  priority := 0
  stime := 0
  isExclusive := false
  scratchLocal := -2
  resreq := [⟨"walltime", 3600⟩, ⟨"mem", 0⟩, ⟨"procs", 1⟩]

example : jobGetScratchLocal (fun _ => some ssdNodespec) "1:ppn=1:scratch_type=ssd"
    = .ok ssdJob.scratchLocal := by decide

/-- A node with two CPUs, on the second of which the job runs. -/
def ssdNode : NodeInfo :=
  { (default : NodeInfo) with
    name := "zubat1"
    coresTotal := 2
    scratchLocal := some 100
    jobsOnCpu := some [none, some ssdJob] }

/-- The job is the only one on the node. -/
theorem eq_ssdJob {node : NodeInfo} (hnode : node ∈ [ssdNode]) {jobs : List (Option JobInfo)}
    (hjobs : jobs ∈ node.jobsOnCpu) {jinfo : JobInfo} (h : some jinfo ∈ jobs) : jinfo = ssdJob := by
  rw [List.mem_singleton.mp hnode] at hjobs
  cases hjobs
  simpa using h

/-- The cluster of this node. -/
def ssdCluster : RunningCluster where
  clusterName := "zubat"
  nodes := [ssdNode]
  numCpus := 2
  numRunningCpus := 2
  numQueuedJobs := 0
  numCpus_eq := rfl
  cells_le := by
    intro node hnode jobs hjobs
    rw [List.mem_singleton.mp hnode] at hjobs ⊢
    cases hjobs
    exact le_rfl
  mem_nonneg := by
    intro node hnode jobs hjobs jinfo hjinfo
    rw [eq_ssdJob hnode hjobs hjinfo]
    exact ⟨⟨"mem", 0⟩, by decide, le_rfl⟩
  procs_pos := by
    intro node hnode jobs hjobs jinfo hjinfo
    rw [eq_ssdJob hnode hjobs hjinfo]
    exact ⟨⟨"procs", 1⟩, by decide, le_rfl⟩

/-- The code `-2` is taken off the node's scratch space, and more is available than there is. -/
theorem ssd_scratch_exceeds :
    ¬ ∃ slots, initialTable ssdCluster.toPlanCluster 0 = .ok slots ∧
      WellFormedTable ssdCluster.toPlanCluster 0 slots := by
  rintro ⟨slots, hrun, hwell⟩
  have heq : (initialTable ssdCluster.toPlanCluster 0).map
      (fun slots => slots.map (fun s => (s.availableScratchLocal, s.scratchLocal))) =
        .ok [(102, 100), (100, 100)] := by decide
  rw [hrun] at heq
  have hslots := Except.ok.inj heq
  cases slots with
  | nil => cases hslots
  | cons slot slots =>
      have hslot := (List.cons.inj hslots).1
      have havail : slot.availableScratchLocal = 102 := congrArg Prod.fst hslot
      have hscratch : slot.scratchLocal = 100 := congrArg Prod.snd hslot
      have hle := hwell.scratch_le slot List.mem_cons_self
      omega

end PlanSched
