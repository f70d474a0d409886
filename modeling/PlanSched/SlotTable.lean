/-
# CountedArray the slot table

Models `first_free_slots_create` and `first_free_slots_initialize`
(`plan_first_free_slot.cpp`) on the arrays as the code has them: one counter runs over the
table while the nodes change, the slots of a node share the array of their indices by pointer,
and the last loop over a node overwrites what is available in place.  Also
`job_get_scratch_local` (`plan_schedule.cpp`), whose answer the second function divides.

* `createTable_eq`: the shared arrays hold what each slot of `first_free_slots_create` lists;
* `initializeTable_eq`: the running counter visits the nodes' slots one node after the other;
* `initialTable_eq`: the table is the one the planner's model starts from.
-/
import PlanSched.RunningCounter
import PlanSched.ClusterSuitable

namespace PlanSched

open CheckedRun RunningCounter

/-! ## Creating the table -/

/-- A `first_free_slot` in memory: `releatedCpus` is the number of an array, if it was set. -/
structure SlotCell where
  time : ℤ
  ninfo : ℕ
  releatedCpus : Option ℕ
  mem : ℤ
  scratchLocal : ℤ
  availableMem : ℤ
  availableScratchLocal : ℤ
  memUsedPerCpu : ℤ
  scratchLocalUsedPerCpu : ℤ
  deriving DecidableEq, Repr, Inhabited

/-- The table, the arrays that were allocated, and the counter. -/
structure TableState where
  slots : List SlotCell
  arrays : List (List ℕ)
  counter : ℕ
  deriving DecidableEq, Repr

/-- What a cell is read as: its pointer is followed. -/
def SlotCell.read (arrays : List (List ℕ)) (cell : SlotCell) : FirstFreeSlot where
  time := cell.time
  ninfo := cell.ninfo
  releatedCpus := (cell.releatedCpus.bind (fun address => arrays[address]?)).getD []
  mem := cell.mem
  scratchLocal := cell.scratchLocal
  availableMem := cell.availableMem
  availableScratchLocal := cell.availableScratchLocal
  memUsedPerCpu := cell.memUsedPerCpu
  scratchLocalUsedPerCpu := cell.scratchLocalUsedPerCpu

/-- A cell as it is allocated: only its time is set. -/
def freshCell (cluster : PlanCluster) : SlotCell where
  time := -1
  ninfo := cluster.nodes.length
  releatedCpus := none
  mem := 0
  scratchLocal := 0
  availableMem := 0
  availableScratchLocal := 0
  memUsedPerCpu := 0
  scratchLocalUsedPerCpu := 0

/-- The array of a slot: all but the first slot of a node take it over from the slot before. -/
def releatedArray (st : TableState) (cell : SlotCell) (j : ℕ) : Run (Option ℕ) :=
  if 0 < j then do
    let before ← getAt st.slots (st.counter - 1)
    return before.releatedCpus
  else return cell.releatedCpus

/-- The body of the loop over the cores of node number `i`. -/
def createCell (i : ℕ) (node : NodeInfo) (st : TableState) (j : ℕ) : Run TableState := do
  let cell ← getAt st.slots st.counter
  let releated ← releatedArray st cell j
  let address ← deref releated
  let array ← getAt st.arrays address
  let array ← setAt array j st.counter
  let arrays ← setAt st.arrays address array
  let slots ← setAt st.slots st.counter { cell with
    ninfo := i
    releatedCpus := releated
    mem := getNodeMem node
    scratchLocal := getNodeScratchLocal node
    availableMem := getNodeMem node
    availableScratchLocal := getNodeScratchLocal node
    memUsedPerCpu := 0
    scratchLocalUsedPerCpu := 0 }
  return ⟨slots, arrays, st.counter + 1⟩

/-- The pass over one node: the slot at the counter gets an array, which the other slots of the
node take over. -/
def createCells (st : TableState) (entry : NodeInfo × ℕ) : Run TableState := do
  let cell ← getAt st.slots st.counter
  let slots ← setAt st.slots st.counter { cell with releatedCpus := some st.arrays.length }
  let arrays := st.arrays ++ [List.replicate entry.1.coresTotal 0]
  (List.range entry.1.coresTotal).foldlM (createCell entry.2 entry.1) ⟨slots, arrays, st.counter⟩

/-- `first_free_slots_create`. -/
def createTable (cluster : PlanCluster) : Run TableState :=
  cluster.nodes.zipIdx.foldlM createCells
    ⟨List.replicate cluster.numCpus (freshCell cluster), [], 0⟩

/-! ## Initial times -/

/-- The loop over the node's slots for slot `slot`: what is left of memory and scratch space
when it becomes free.  `counter` stands behind the node's slots. -/
def leftOver (slots : List FirstFreeSlot) (counter cores : ℕ) (slot : FirstFreeSlot) :
    Run (ℤ × ℤ) :=
  (List.range cores).foldlM (fun left m => do
    let other ← getAt slots (counter - (cores - m))
    if slot.time < other.time then
      return (left.1 - other.memUsedPerCpu, left.2 - other.scratchLocalUsedPerCpu)
    else return left) (slot.mem, slot.scratchLocal)

/-- Pass `m` of the last loop over a node, which counts down from the number of its cores. -/
def settlePass (counter cores : ℕ) (slots : List FirstFreeSlot) (m : ℕ) :
    Run (List FirstFreeSlot) := do
  let slot ← getAt slots (counter - (cores - m))
  let left ← leftOver slots counter cores slot
  setAt slots (counter - (cores - m))
    { slot with availableMem := left.1, availableScratchLocal := left.2 }

/-- The pass of `first_free_slots_initialize` over one node. -/
def initializeFrom (time : ℤ) (st : CountedArray FirstFreeSlot) (node : NodeInfo) :
    Run (CountedArray FirstFreeSlot) :=
  if node.isUnavailable then
    (List.range node.coresTotal).foldlM
      (fun st _ => st.advance (fun slot => .ok (slot.idle (-1)))) st
  else
    match node.jobsOnCpu with
    | none =>
        (List.range node.coresTotal).foldlM
          (fun st _ => st.advance (fun slot => .ok (slot.idle time))) st
    | some jobsOnCpu => do
        let st ← (List.range node.coresTotal).foldlM
          (fun st j => st.advance (fun slot => initializeCpu jobsOnCpu time slot j)) st
        let slots ← (List.range node.coresTotal).foldlM (settlePass st.counter node.coresTotal)
          st.cells
        return ⟨slots, st.counter⟩

/-- `first_free_slots_initialize`, without the count of running CPUs (`runningCpus`). -/
def initializeTable (cluster : PlanCluster) (time : ℤ) (slots : List FirstFreeSlot) :
    Run (List FirstFreeSlot) := do
  let st ← cluster.nodes.foldlM (initializeFrom time) ⟨slots, 0⟩
  return st.cells

/-- `first_free_slots_create` and `first_free_slots_initialize`. -/
def initialTable (cluster : PlanCluster) (time : ℤ) : Run (List FirstFreeSlot) := do
  let created ← createTable cluster
  initializeTable cluster time (created.slots.map (SlotCell.read created.arrays))

/-! ## The scratch request of a job -/

/-- `job_get_scratch_local`, by the parser and the job's nodespec: the codes `-1` for a text
that does not parse and `-2` for scratch space that is not local. -/
def jobGetScratchLocal (parseNodespec : String → Option ParsedNodespec)
    (nodespec : String) : Run ℤ :=
  match parseNodespec (nodeSpecText nodespec) with
  | none => do
      freeNodeSpecText nodespec
      return -1
  | some spec => do
      freeNodeSpecText nodespec
      if spec.first.scratchType = .scratchSSD then return -2
      else if spec.first.scratchType = .scratchShared then return -2
      else return Int.bmod spec.first.scratch (2 ^ 64)

/-! ## The loops over one node -/

/-- What is read of the other slots of a node. -/
def usageKey (slot : FirstFreeSlot) : ℤ × ℤ × ℤ :=
  (slot.time, slot.memUsedPerCpu, slot.scratchLocalUsedPerCpu)

/-- One more slot uses what it uses if it is freed after the time. -/
theorem usedAfter_append (used : FirstFreeSlot → ℤ) (slots : List FirstFreeSlot)
    (other : FirstFreeSlot) (time : ℤ) :
    usedAfter used (slots ++ [other]) time =
      usedAfter used slots time + if time < other.time then used other else 0 := by
  unfold usedAfter
  rw [List.filter_append, List.map_append, List.sum_append, List.filter_singleton]
  by_cases hlater : time < other.time
  · rw [if_pos hlater, decide_eq_true hlater]
    simp
  · rw [if_neg hlater, decide_eq_false hlater]
    simp

/-- What is used after a time depends on the times and the usages only. -/
theorem usedAfter_congr (used : FirstFreeSlot → ℤ) {slots slots' : List FirstFreeSlot}
    (hused : ∀ s s' : FirstFreeSlot, usageKey s = usageKey s' → used s = used s')
    (h : slots.map usageKey = slots'.map usageKey) (time : ℤ) :
    usedAfter used slots time = usedAfter used slots' time := by
  induction slots using List.reverseRecOn generalizing slots' with
  | nil =>
      have hnil : slots' = [] := by simpa using h.symm
      rw [hnil]
  | append_singleton slots slot ih =>
      rcases List.eq_nil_or_concat slots' with rfl | ⟨rest, slot', rfl⟩
      · simp at h
      · rw [List.concat_eq_append, List.map_append, List.map_append, List.map_singleton,
          List.map_singleton] at h
        obtain ⟨hrest, hlast⟩ := List.append_inj' h rfl
        have hkey : usageKey slot = usageKey slot' := by simpa using hlast
        have htime : slot.time = slot'.time := congrArg Prod.fst hkey
        rw [List.concat_eq_append, usedAfter_append, usedAfter_append, ih hrest, htime,
          hused _ _ hkey]

/-- The inner loop takes off what the later slots of the node use. -/
theorem leftOver_eq (pre mid post : List FirstFreeSlot) (slot : FirstFreeSlot) :
    leftOver (pre ++ (mid ++ post)) (pre.length + mid.length) mid.length slot =
      .ok (slot.mem - usedAfter FirstFreeSlot.memUsedPerCpu mid slot.time,
        slot.scratchLocal - usedAfter FirstFreeSlot.scratchLocalUsedPerCpu mid slot.time) := by
  obtain ⟨left, hrun, hleft⟩ := foldlM_range
    (f := fun (left : ℤ × ℤ) m => do
      let other ← getAt (pre ++ (mid ++ post)) (pre.length + mid.length - (mid.length - m))
      if slot.time < other.time then
        return (left.1 - other.memUsedPerCpu, left.2 - other.scratchLocalUsedPerCpu)
      else return left) (s := (slot.mem, slot.scratchLocal))
    (fun m left =>
      left = (slot.mem - usedAfter FirstFreeSlot.memUsedPerCpu (mid.take m) slot.time,
        slot.scratchLocal -
          usedAfter FirstFreeSlot.scratchLocalUsedPerCpu (mid.take m) slot.time)) mid.length (by
        intro m hm left hleft
        have hindex : pre.length + mid.length - (mid.length - m) = pre.length + m := by omega
        have hother : getAt (pre ++ (mid ++ post)) (pre.length + m) = .ok mid[m] := by
          rw [getAt_ok, List.getElem?_append_right (Nat.le_add_right _ _), Nat.add_sub_cancel_left,
            List.getElem?_append_left hm, List.getElem?_eq_getElem hm]
        refine ⟨_, ?_, rfl⟩
        rw [hindex, hother, hleft, List.take_succ_eq_append_getElem hm, usedAfter_append,
          usedAfter_append]
        show (if slot.time < mid[m].time then _ else _ : Run (ℤ × ℤ)) = _
        by_cases hlater : slot.time < mid[m].time
        · rw [if_pos hlater, if_pos hlater, if_pos hlater]
          refine congrArg Except.ok (Prod.ext ?_ ?_)
          · show _ - _ - _ = _ - (_ + _)
            omega
          · show _ - _ - _ = _ - (_ + _)
            omega
        · rw [if_neg hlater, if_neg hlater, if_neg hlater, add_zero, add_zero]
          rfl) (by
        show _ = (slot.mem - 0, slot.scratchLocal - 0)
        rw [sub_zero, sub_zero])
  unfold leftOver
  rw [hrun, hleft, List.take_length]

/-- The last loop over a node enters what is left for each of its slots. -/
theorem settleLoop_eq (pre mid post : List FirstFreeSlot) :
    (List.range mid.length).foldlM (settlePass (pre.length + mid.length) mid.length)
        (pre ++ (mid ++ post)) =
      .ok (pre ++ (mid.map (FirstFreeSlot.settle mid) ++ post)) := by
  refine foldlM_stretch usageKey pre mid post (fun _ _ => rfl) ?_
  intro front slot back hsplit done hdone
  have hlength : mid.length = front.length + (back.length + 1) := by
    rw [hsplit, List.length_append, List.length_cons]
  have hdoneLength : done.length = front.length := by
    have := congrArg List.length hdone
    rwa [List.length_map, List.length_map] at this
  have hindex : pre.length + mid.length - (mid.length - front.length) =
      (pre ++ done).length := by
    rw [List.length_append]
    omega
  have hkeys : (done ++ slot :: back).map usageKey = mid.map usageKey := by
    rw [hsplit, List.map_append, List.map_append, hdone]
  have hmem := usedAfter_congr FirstFreeSlot.memUsedPerCpu
    (fun s s' h => congrArg (fun k : ℤ × ℤ × ℤ => k.2.1) h) hkeys slot.time
  have hscratch := usedAfter_congr FirstFreeSlot.scratchLocalUsedPerCpu
    (fun s s' h => congrArg (fun k : ℤ × ℤ × ℤ => k.2.2) h) hkeys slot.time
  have hleft := leftOver_eq pre (done ++ slot :: back) post slot
  have hmidLength : (done ++ slot :: back).length = mid.length := by
    rw [List.length_append, List.length_cons, hdoneLength, hlength]
  rw [hmidLength, hmem, hscratch, List.append_assoc, List.cons_append] at hleft
  unfold settlePass
  rw [hindex, ← List.append_assoc, getAt_middle]
  rw [← List.append_assoc] at hleft
  refine bind_ok.mpr ⟨slot, rfl, ?_⟩
  refine bind_ok.mpr ⟨_, hleft, ?_⟩
  rw [setAt_middle, List.append_assoc]
  rfl

/-- A loop that makes all slots of a node idle. -/
theorem idleLoop_eq (time : ℤ) (pre mid post : List FirstFreeSlot) :
    (List.range mid.length).foldlM
        (fun (st : CountedArray FirstFreeSlot) _ => st.advance (fun slot => .ok (slot.idle time)))
        ⟨pre ++ (mid ++ post), pre.length⟩ =
      .ok ⟨pre ++ (mid.map (fun slot => slot.idle time) ++ post), pre.length + mid.length⟩ := by
  have hloop := foldlM_advance (fun _ slot => .ok (FirstFreeSlot.idle slot time)) mid 0 pre post
  have hcells : (mid.zipIdx 0).mapM
      (fun e => (.ok (FirstFreeSlot.idle e.1 time) : Run FirstFreeSlot)) =
        .ok (mid.map (fun slot => slot.idle time)) := by
    have hpure := List.mapM_pure (m := Except Fault) (l := mid.zipIdx 0)
      (f := fun e : FirstFreeSlot × ℕ => FirstFreeSlot.idle e.1 time)
    refine hpure.trans (congrArg Except.ok ?_)
    have hfst := congrArg (List.map (fun slot => FirstFreeSlot.idle slot time))
      (List.zipIdx_map_fst 0 mid)
    rwa [List.map_map] at hfst
  rw [hcells] at hloop
  rw [List.range_eq_range']
  exact hloop

/-- The pass over a node changes its slots only, and leaves the counter behind them. -/
theorem initializeFrom_eq (time : ℤ) (node : NodeInfo) (pre mid post : List FirstFreeSlot)
    (hlength : mid.length = node.coresTotal) :
    initializeFrom time ⟨pre ++ (mid ++ post), pre.length⟩ node =
      (initializeNode time node mid).map
        (fun mid' => ⟨pre ++ (mid' ++ post), pre.length + mid.length⟩) := by
  unfold initializeFrom initializeNode
  rw [← hlength]
  split
  · rw [idleLoop_eq]
    rfl
  · cases node.jobsOnCpu with
    | none =>
        show (List.range mid.length).foldlM _ _ = _
        rw [idleLoop_eq]
        rfl
    | some jobsOnCpu =>
        have hloop := foldlM_advance (fun j slot => initializeCpu jobsOnCpu time slot j) mid 0
          pre post
        rw [← List.range_eq_range'] at hloop
        show ((List.range mid.length).foldlM _ _ >>= _ : Run (CountedArray FirstFreeSlot)) =
          ((mid.zipIdx 0).mapM _ >>= _ : Run (List FirstFreeSlot)).map _
        rw [hloop]
        cases hcells : (mid.zipIdx 0).mapM (fun e => initializeCpu jobsOnCpu time e.1 e.2) with
        | error fault => rfl
        | ok busy =>
            have hbusy : busy.length = mid.length := by
              rw [← (forall₂_of_mapM _ busy hcells).length_eq, List.length_zipIdx]
            have hsettle := settleLoop_eq pre busy post
            rw [hbusy] at hsettle
            show ((List.range mid.length).foldlM
              (settlePass (pre.length + mid.length) mid.length) (pre ++ (busy ++ post)) >>= _ :
                Run (CountedArray FirstFreeSlot)) = _
            rw [hsettle]
            rfl

/-- The loop over the nodes visits their slots one node after the other. -/
theorem initializeFrom_all (time : ℤ) (nodes : List NodeInfo) :
    ∀ pre rest : List FirstFreeSlot, (nodes.map NodeInfo.coresTotal).sum ≤ rest.length →
      nodes.foldlM (initializeFrom time) ⟨pre ++ rest, pre.length⟩ =
        (initializeNodes time nodes rest).map
          (fun rest' => ⟨pre ++ rest', pre.length + (nodes.map NodeInfo.coresTotal).sum⟩) := by
  induction nodes with
  | nil =>
      intro pre rest _
      rfl
  | cons node nodes ih =>
      intro pre rest hsum
      rw [List.map_cons, List.sum_cons] at hsum
      have hlength : (rest.take node.coresTotal).length = node.coresTotal := by
        rw [List.length_take]
        omega
      have hpass := initializeFrom_eq time node pre (rest.take node.coresTotal)
        (rest.drop node.coresTotal) hlength
      rw [List.take_append_drop] at hpass
      rw [List.foldlM_cons, hpass, initializeNodes, if_neg (by omega), List.map_cons,
        List.sum_cons]
      -- a fault on the first node is a fault of both loops
      cases hfirst : initializeNode time node (rest.take node.coresTotal) with
      | error fault => rfl
      | ok first =>
          have hfirstLength : first.length = node.coresTotal := by
            rw [initializeNode_length hfirst, hlength]
          have hothers := ih (pre ++ first) (rest.drop node.coresTotal) (by
            rw [List.length_drop]
            omega)
          rw [List.append_assoc, List.length_append, hfirstLength] at hothers
          show nodes.foldlM (initializeFrom time)
              ⟨pre ++ (first ++ rest.drop node.coresTotal),
                pre.length + (rest.take node.coresTotal).length⟩ = _
          rw [hlength, hothers]
          cases hrest : initializeNodes time nodes (rest.drop node.coresTotal) with
          | error fault => rfl
          | ok others =>
              show (Except.ok ⟨pre ++ first ++ others, pre.length + node.coresTotal +
                (nodes.map NodeInfo.coresTotal).sum⟩ : Run (CountedArray FirstFreeSlot)) = .ok
                  ⟨pre ++ (first ++ others), pre.length +
                    (node.coresTotal + (nodes.map NodeInfo.coresTotal).sum)⟩
              rw [List.append_assoc, Nat.add_assoc]

/-- On a table with a slot for each core, `first_free_slots_initialize` is the walk over the
nodes. -/
theorem initializeTable_eq {cluster : PlanCluster} (time : ℤ) {slots : List FirstFreeSlot}
    (h : cluster.coresSum ≤ slots.length) :
    initializeTable cluster time slots = initializeNodes time cluster.nodes slots := by
  unfold initializeTable
  have hall := initializeFrom_all time cluster.nodes [] slots h
  rw [List.nil_append] at hall
  rw [show (⟨slots, 0⟩ : CountedArray FirstFreeSlot)
    = ⟨slots, ([] : List FirstFreeSlot).length⟩ from rfl, hall]
  cases initializeNodes time cluster.nodes slots with
  | error fault => rfl
  | ok rest => rfl

/-! ## The loop that creates the slots -/

/-- A slot of node number `i`, once it was created. -/
def madeCell (i : ℕ) (node : NodeInfo) (address : ℕ) : SlotCell where
  time := -1
  ninfo := i
  releatedCpus := some address
  mem := getNodeMem node
  scratchLocal := getNodeScratchLocal node
  availableMem := getNodeMem node
  availableScratchLocal := getNodeScratchLocal node
  memUsedPerCpu := 0
  scratchLocalUsedPerCpu := 0

/-- What holds after `j` cores of a node: its first slots are made and share the newest array,
which lists them; nothing else was touched. -/
structure Creating (i : ℕ) (node : NodeInfo) (arrays : List (List ℕ)) (pre mid post : List SlotCell)
    (j : ℕ) (st : TableState) : Prop where
  slots : st.slots =
    pre ++ (List.replicate j (madeCell i node arrays.length) ++ (mid.drop j ++ post))
  arrays : st.arrays =
    arrays ++ [List.range' pre.length j ++ List.replicate (node.coresTotal - j) 0]
  counter : st.counter = pre.length + j

/-- One core: the slot takes the array over from the slot before it and enters itself. -/
theorem Creating.pass {i : ℕ} {node : NodeInfo} {arrays : List (List ℕ)}
    {pre mid post : List SlotCell} {j : ℕ} {st : TableState}
    (hst : Creating i node arrays pre mid post j st) (hlength : mid.length = node.coresTotal)
    (hj : j < node.coresTotal) (htime : ∀ cell ∈ mid, cell.time = -1)
    (hfirst : ∀ cell ∈ mid.head?, cell.releatedCpus = some arrays.length) :
    ∃ st', createCell i node st j = .ok st' ∧
      Creating i node arrays pre mid post (j + 1) st' := by
  have hjlt : j < mid.length := by omega
  have hcount : st.counter = (pre ++ List.replicate j (madeCell i node arrays.length)).length := by
    rw [hst.counter, List.length_append, List.length_replicate]
  have hslots : st.slots = (pre ++ List.replicate j (madeCell i node arrays.length)) ++
      mid[j] :: (mid.drop (j + 1) ++ post) := by
    rw [hst.slots, List.drop_eq_getElem_cons hjlt, List.append_assoc, List.cons_append]
  have hcell : getAt st.slots st.counter = .ok mid[j] := by
    rw [hslots, hcount, getAt_middle]
  -- the pointer, which the first slot has from its node and the others from the slot before
  have hreleated : releatedArray st mid[j] j = .ok (some arrays.length) := by
    unfold releatedArray
    by_cases hpos : 0 < j
    · rw [if_pos hpos]
      have hbefore : getAt st.slots (st.counter - 1) = .ok (madeCell i node arrays.length) := by
        rw [getAt_ok, hst.slots, hst.counter, List.getElem?_append_right (by omega),
          List.getElem?_append_left (by rw [List.length_replicate]; omega),
          List.getElem?_replicate_of_lt (by omega)]
      rw [hbefore]
      rfl
    · rw [if_neg hpos]
      have hzero : j = 0 := by omega
      subst hzero
      refine congrArg Except.ok (hfirst mid[0] ?_)
      rw [List.head?_eq_getElem?, List.getElem?_eq_getElem hjlt]
      rfl
  have harray : getAt st.arrays arrays.length =
      .ok (List.range' pre.length j ++ List.replicate (node.coresTotal - j) 0) := by
    rw [hst.arrays, getAt_middle]
  have hentered : setAt (List.range' pre.length j ++ List.replicate (node.coresTotal - j) 0) j
        st.counter =
      .ok (List.range' pre.length (j + 1) ++ List.replicate (node.coresTotal - (j + 1)) 0) := by
    have hrest : List.replicate (node.coresTotal - j) 0 =
        0 :: List.replicate (node.coresTotal - (j + 1)) 0 := by
      rw [← List.replicate_succ]
      congr 1
      omega
    have hset := setAt_middle (List.range' pre.length j)
      (List.replicate (node.coresTotal - (j + 1)) 0) 0 st.counter
    rw [List.length_range'] at hset
    rw [hrest, hset, List.range'_1_concat, hst.counter, List.append_assoc]
    rfl
  have harrays := setAt_middle arrays [] (List.range' pre.length j ++
      List.replicate (node.coresTotal - j) 0)
    (List.range' pre.length (j + 1) ++ List.replicate (node.coresTotal - (j + 1)) 0)
  rw [← hst.arrays] at harrays
  have hwrite : ∀ cell : SlotCell, setAt st.slots st.counter cell =
      .ok ((pre ++ List.replicate j (madeCell i node arrays.length)) ++
        cell :: (mid.drop (j + 1) ++ post)) := by
    intro cell
    rw [hslots, hcount, setAt_middle]
  have hmade : ({ mid[j] with
      ninfo := i
      releatedCpus := some arrays.length
      mem := getNodeMem node
      scratchLocal := getNodeScratchLocal node
      availableMem := getNodeMem node
      availableScratchLocal := getNodeScratchLocal node
      memUsedPerCpu := 0
      scratchLocalUsedPerCpu := 0 } : SlotCell) = madeCell i node arrays.length := by
    have htimej := htime mid[j] (List.getElem_mem hjlt)
    unfold madeCell
    dsimp only
    rw [htimej]
  refine ⟨⟨(pre ++ List.replicate j (madeCell i node arrays.length)) ++
      madeCell i node arrays.length :: (mid.drop (j + 1) ++ post),
    arrays ++ [List.range' pre.length (j + 1) ++ List.replicate (node.coresTotal - (j + 1)) 0],
    st.counter + 1⟩, ?_, ?_, rfl, ?_⟩
  · unfold createCell
    refine bind_ok.mpr ⟨mid[j], hcell, ?_⟩
    refine bind_ok.mpr ⟨some arrays.length, hreleated, ?_⟩
    refine bind_ok.mpr ⟨arrays.length, rfl, ?_⟩
    refine bind_ok.mpr ⟨_, harray, ?_⟩
    refine bind_ok.mpr ⟨_, hentered, ?_⟩
    refine bind_ok.mpr ⟨_, harrays, ?_⟩
    refine bind_ok.mpr ⟨_, hwrite _, ?_⟩
    rw [hmade]
    rfl
  · show _ ++ _ :: _ = _
    rw [List.replicate_succ', List.append_assoc, List.append_assoc]
    rfl
  · show st.counter + 1 = _
    rw [hst.counter, Nat.add_assoc]

/-- The pass over a node makes its slots, and gives them an array that lists them. -/
theorem createCells_eq (node : NodeInfo) (i : ℕ) {st : TableState} {pre : List SlotCell}
    {cell : SlotCell} {rest : List SlotCell} (hslots : st.slots = pre ++ cell :: rest)
    (hcounter : st.counter = pre.length) (hcores : node.coresTotal ≤ rest.length + 1)
    (htime : ∀ c ∈ cell :: rest, c.time = -1) :
    ∃ post : List SlotCell, (∀ c ∈ post, c.time = -1) ∧
      node.coresTotal + post.length = rest.length + 1 ∧
      createCells st (node, i) = .ok
        ⟨pre ++ (List.replicate node.coresTotal (madeCell i node st.arrays.length) ++ post),
          st.arrays ++ [List.range' pre.length node.coresTotal], pre.length + node.coresTotal⟩ := by
  set first : SlotCell := { cell with releatedCpus := some st.arrays.length } with hfirst
  have htime' : ∀ c ∈ first :: rest, c.time = -1 := by
    intro c hc
    rcases List.mem_cons.mp hc with rfl | hc
    · exact htime cell List.mem_cons_self
    · exact htime c (List.mem_cons_of_mem _ hc)
  have hlength : ((first :: rest).take node.coresTotal).length = node.coresTotal := by
    rw [List.length_take, List.length_cons]
    omega
  -- each pass of the inner loop makes one slot; `Creating` says how far it has come
  obtain ⟨st', hrun, hst'⟩ := foldlM_range
    (Creating i node st.arrays pre ((first :: rest).take node.coresTotal)
      ((first :: rest).drop node.coresTotal)) node.coresTotal
    (fun j hj s hs => hs.pass hlength hj
      (fun c hc => htime' c (List.mem_of_mem_take hc)) (by
        intro c hc
        have hmem : c = first := by
          cases hn : node.coresTotal with
          | zero => omega
          | succ n =>
              rw [hn, List.take_succ_cons] at hc
              cases hc
              rfl
        rw [hmem]))
    (s := ⟨pre ++ first :: rest, st.arrays ++ [List.replicate node.coresTotal 0], pre.length⟩)
    ⟨by rw [List.drop_zero, List.take_append_drop]; rfl, rfl, rfl⟩
  refine ⟨(first :: rest).drop node.coresTotal, ?_, ?_, ?_⟩
  · intro c hc
    exact htime' c (List.mem_of_mem_drop hc)
  · rw [List.length_drop, List.length_cons]
    omega
  · have hcell : getAt st.slots st.counter = .ok cell := by
      rw [hslots, hcounter, getAt_middle]
    have hset : setAt st.slots st.counter first = .ok (pre ++ first :: rest) := by
      rw [hslots, hcounter, setAt_middle]
    unfold createCells
    refine bind_ok.mpr ⟨cell, hcell, ?_⟩
    refine bind_ok.mpr ⟨_, hset, ?_⟩
    show (List.range node.coresTotal).foldlM (createCell i node)
      ⟨_, st.arrays ++ [List.replicate node.coresTotal 0], st.counter⟩ = _
    rw [hcounter, hrun]
    have hslots' := hst'.slots
    have harrays' := hst'.arrays
    rw [List.drop_eq_nil_of_le hlength.le, List.nil_append] at hslots'
    rw [Nat.sub_self, List.replicate_zero, List.append_nil] at harrays'
    exact congrArg Except.ok (by
      cases st'
      simp only [TableState.mk.injEq]
      exact ⟨hslots', harrays', hst'.counter⟩)

/-- A pointer to an array is followed to the same array when another one is added. -/
theorem read_append {arrays : List (List ℕ)} {cell : SlotCell} (array : List ℕ)
    (h : ∀ address ∈ cell.releatedCpus, address < arrays.length) :
    cell.read (arrays ++ [array]) = cell.read arrays := by
  unfold SlotCell.read
  cases hreleated : cell.releatedCpus with
  | none => rfl
  | some address =>
      rw [Option.bind_some, Option.bind_some,
        List.getElem?_append_left (h address hreleated)]

/-- The slots of a node, read through their common pointer. -/
theorem read_madeCell (i : ℕ) (node : NodeInfo) (arrays : List (List ℕ)) (counter : ℕ) :
    (List.replicate node.coresTotal (madeCell i node arrays.length)).map
        (SlotCell.read (arrays ++ [List.range' counter node.coresTotal])) =
      createNode i node counter := by
  rw [List.map_replicate]
  unfold createNode SlotCell.read madeCell
  dsimp only
  rw [Option.bind_some, List.getElem?_concat_length]
  rfl

/-- What holds before every pass over a node: the slots in front of the counter are made, and
read as `done`. -/
structure Created (numCpus : ℕ) (done : List FirstFreeSlot) (st : TableState) : Prop where
  split : ∃ pre post, st.slots = pre ++ post ∧ st.counter = pre.length ∧
    pre.map (SlotCell.read st.arrays) = done ∧ (∀ c ∈ post, c.time = -1) ∧
    ∀ c ∈ pre, ∀ address ∈ c.releatedCpus, address < st.arrays.length
  length : st.slots.length = numCpus

/-- The loop over the nodes from number `i` on, on a table with a slot for each core left. -/
theorem createCells_all {numCpus : ℕ} (nodes : List NodeInfo) :
    ∀ (i : ℕ) (st : TableState) (done : List FirstFreeSlot), Created numCpus done st →
      done.length + (nodes.map NodeInfo.coresTotal).sum = numCpus →
      ((nodes.zipIdx i).foldlM createCells st).map
          (fun st => st.slots.map (SlotCell.read st.arrays)) =
        createNodes numCpus i nodes done := by
  induction nodes with
  | nil =>
      intro i st done hst hsum
      obtain ⟨pre, post, hslots, -, hdone, -, -⟩ := hst.split
      have hlength := hst.length
      rw [hslots, List.length_append] at hlength
      have hpre : pre.length = done.length := by rw [← hdone, List.length_map]
      have hpost : post = [] := by
        apply List.eq_nil_of_length_eq_zero
        rw [List.map_nil, List.sum_nil] at hsum
        omega
      show (Except.ok (st.slots.map (SlotCell.read st.arrays)) : Run _) = _
      rw [hslots, hpost, List.append_nil, hdone, createNodes]
  | cons node nodes ih =>
      intro i st done hst hsum
      obtain ⟨pre, post, hslots, hcounter, hdone, htime, hvalid⟩ := hst.split
      have hlength := hst.length
      rw [hslots, List.length_append] at hlength
      have hpre : pre.length = done.length := by rw [← hdone, List.length_map]
      rw [List.map_cons, List.sum_cons] at hsum
      rw [List.zipIdx_cons, List.foldlM_cons, createNodes]
      cases post with
      | nil =>
          -- the first thing a pass touches is the slot at the counter
          rw [List.length_nil] at hlength
          rw [if_pos (by omega)]
          have hout : getAt st.slots st.counter = .error .badIndex := by
            unfold getAt
            rw [List.getElem?_eq_none (by rw [hslots, hcounter, List.append_nil])]
          unfold createCells
          rw [hout]
          rfl
      | cons cell rest =>
          rw [List.length_cons] at hlength
          rw [if_neg (by omega)]
          obtain ⟨post, hpost, hcores, hpass⟩ := createCells_eq node i hslots hcounter
            (by omega) htime
          rw [hpass]
          have hlayout := read_madeCell i node st.arrays pre.length
          have hread : pre.map (SlotCell.read (st.arrays ++
              [List.range' pre.length node.coresTotal])) = done := by
            rw [← hdone]
            exact List.map_congr_left (fun c hc => read_append _ (hvalid c hc))
          have hcreated : Created numCpus (done ++ createNode i node done.length)
              ⟨pre ++ (List.replicate node.coresTotal (madeCell i node st.arrays.length) ++ post),
                st.arrays ++ [List.range' pre.length node.coresTotal],
                pre.length + node.coresTotal⟩ := by
            refine ⟨⟨pre ++ List.replicate node.coresTotal (madeCell i node st.arrays.length),
              post, ?_, ?_, ?_, hpost, ?_⟩, ?_⟩
            · exact (List.append_assoc _ _ _).symm
            · rw [List.length_append, List.length_replicate]
            · rw [List.map_append, hread, hlayout, hpre]
            · intro c hc address haddress
              rw [List.length_append, List.length_singleton]
              rcases List.mem_append.mp hc with hc | hc
              · exact Nat.lt_succ_of_lt (hvalid c hc address haddress)
              · rw [List.eq_of_mem_replicate hc] at haddress
                cases haddress
                exact Nat.lt_succ_self _
            · rw [List.length_append, List.length_append, List.length_replicate]
              omega
          refine ih (i + 1) _ _ hcreated ?_
          rw [List.length_append, createNode, List.length_replicate]
          omega

/-- The nodes' slots that were created. -/
theorem createNodes_length {numCpus : ℕ} (nodes : List NodeInfo) :
    ∀ {i : ℕ} {slots slots' : List FirstFreeSlot}, createNodes numCpus i nodes slots = .ok slots' →
      slots'.length = slots.length + (nodes.map NodeInfo.coresTotal).sum := by
  induction nodes with
  | nil =>
      intro i slots slots' h
      rw [createNodes] at h
      cases h
      rfl
  | cons node nodes ih =>
      intro i slots slots' h
      rw [createNodes] at h
      split at h
      · cases h
      · rw [ih h, List.length_append, createNode, List.length_replicate, List.map_cons,
          List.sum_cons, Nat.add_assoc]

/-- On a cluster whose CPUs are the cores of its nodes, the table that is read through the
shared arrays is the one with its own array for each slot. -/
theorem createTable_eq {cluster : PlanCluster} (h : cluster.numCpus = cluster.coresSum) :
    (createTable cluster).map (fun st => st.slots.map (SlotCell.read st.arrays)) =
      firstFreeSlotsCreate cluster := by
  have hcreated : Created cluster.numCpus []
      ⟨List.replicate cluster.numCpus (freshCell cluster), [], 0⟩ := by
    refine ⟨⟨[], _, rfl, rfl, rfl, ?_, ?_⟩, List.length_replicate⟩
    · intro c hc
      rw [List.eq_of_mem_replicate hc]
      rfl
    · intro c hc
      cases hc
  have hsum : ([] : List FirstFreeSlot).length + (cluster.nodes.map NodeInfo.coresTotal).sum =
      cluster.numCpus := by
    rw [h, List.length_nil, Nat.zero_add]
    rfl
  unfold createTable firstFreeSlotsCreate
  rw [createCells_all cluster.nodes 0 _ [] hcreated hsum]
  cases hnodes : createNodes cluster.numCpus 0 cluster.nodes [] with
  | error fault => rfl
  | ok slots =>
      have hlength := createNodes_length _ hnodes
      show (Except.ok slots : Run _) = .ok (slots ++ List.replicate _ _)
      rw [hlength, hsum, Nat.sub_self, List.replicate_zero, List.append_nil]

/-- The table is the one that the planner's model starts from. -/
theorem initialTable_eq {cluster : PlanCluster} (h : cluster.numCpus = cluster.coresSum)
    (time : ℤ) : initialTable cluster time = initialSlots cluster time := by
  have hcreate := createTable_eq h
  unfold initialTable initialSlots
  rw [← hcreate]
  cases hcreated : createTable cluster with
  | error fault => rfl
  | ok created =>
      have hslots : firstFreeSlotsCreate cluster =
          .ok (created.slots.map (SlotCell.read created.arrays)) := by
        rw [← hcreate, hcreated]
        rfl
      refine initializeTable_eq time ?_
      unfold firstFreeSlotsCreate at hslots
      obtain ⟨slots, hnodes, hslots⟩ := bind_ok.mp hslots
      have hlength := createNodes_length _ hnodes
      rw [← pure_ok.mp hslots, List.length_append, hlength, List.length_nil, Nat.zero_add]
      exact Nat.le_add_right _ _

end PlanSched
