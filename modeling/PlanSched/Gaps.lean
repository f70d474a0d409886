/-
# Gaps of the plan

Models `plan_gaps_memory.cpp` and the construction half of `plan_gaps.cpp`: the
gaps in front of a planned job, those after the last use of a CPU, the final gap
without end, and `insert_new_gap`, which adds a gap to the list of a cluster by
splitting what it overlaps.

A gap knows, for every node with free CPUs in it, how many there are and how much
memory is left.  `adjust_gap_memory` recomputes the memory when a gap reaches past
the start of the job behind it; it never touches the CPU counts.
-/
import PlanSched.FirstFreeSlot

namespace PlanSched

open CheckedRun

/-! ## The nodes of a gap -/

/-- One pass of `gap_memory_create` and `gap_memory_create_last`: count the CPU of a
slot.  A node met before keeps the memory of the slot seen last. -/
def countCpu (nodesMemory : List PlanGapMem) (slot : FirstFreeSlot) : List PlanGapMem :=
  match nodesMemory with
  | [] => [⟨slot.ninfo, 1, slot.availableMem, slot.availableScratchLocal⟩]
  | m :: rest =>
      if m.ninfo = slot.ninfo then
        { m with
          numCpus := m.numCpus + 1
          availableMem := slot.availableMem
          availableScratchLocal := slot.availableScratchLocal } :: rest
      else m :: countCpu rest slot

/-- The gap with the CPUs of the given slots. -/
def PlanGap.withSlots (gap : PlanGap) (slots : List FirstFreeSlot) : PlanGap :=
  { gap with usage := slots.length, nodesMemory := slots.foldl countCpu [] }

/-- `gap_memory_create`: the CPUs of the job that are free before the gap ends. -/
def gapMemoryCreate (gap : PlanGap) (cpuIndexes : List ℕ) (slots : List FirstFreeSlot) :
    Run PlanGap := do
  let own ← cpuIndexes.mapM (fun c => getAt slots c)
  return gap.withSlots (own.filter (fun slot => decide (slot.time < gap.endTime)))

/-- `gap_memory_create_last`: all CPUs that are free before the gap ends, except
those of nodes that are down, offline or not usable. -/
def gapMemoryCreateLast (cluster : PlanCluster) (gap : PlanGap) (slots : List FirstFreeSlot) :
    Run PlanGap := do
  let counted ← (slots.filter (fun slot => decide (slot.time < gap.endTime))).mapM
    (fun slot => do
      let node ← getAt cluster.nodes slot.ninfo
      return if node.isOut then none else some slot)
  return gap.withSlots (counted.filterMap id)

/-- `gap_fillin`. -/
def gapFillin (startTime endTime : ℤ) (followingJob : Option ℕ) : PlanGap where
  startTime := startTime
  endTime := endTime
  duration := endTime - startTime
  usage := 0
  nodesMemory := []
  followingJob := followingJob

/-! ## Gaps in front of a job -/

/-- The gap-creation loop of `update_job` over the CPUs of the job: from `gapStart`
to the time of the next CPU that is free later. -/
def gapsOfJob (job : PlanJob) (slots : List FirstFreeSlot) : List ℕ → ℤ → Run (List PlanGap)
  | [], _ => .ok []
  | c :: cs, gapStart => do
      let slot ← getAt slots c
      let gapStart := if gapStart = -1 then slot.time else gapStart
      if gapStart ≠ slot.time then do
        let gap ← gapMemoryCreate (gapFillin gapStart slot.time (some job.ptr)) job.cpuIndexes slots
        let gaps ← gapsOfJob job slots cs slot.time
        return gap :: gaps
      else gapsOfJob job slots cs gapStart

/-! ## Gaps after the last use of a CPU -/

/-- The loop of `gaps_ith_smallest` from slot `c` on. -/
def gapsSmallestFrom (avail : List Bool) :
    ℕ → List FirstFreeSlot → ℤ → Option ℕ → Option ℕ
  | _, [], _, result => result
  | c, slot :: slots, min, result =>
      if slot.time < min ∧ avail[c]? = some true then
        gapsSmallestFrom avail (c + 1) slots slot.time (some c)
      else gapsSmallestFrom avail (c + 1) slots min result

/-- `gaps_ith_smallest`, without the mark it leaves. -/
def gapsIthSmallest (slots : List FirstFreeSlot) (avail : List Bool) : Option ℕ :=
  gapsSmallestFrom avail 0 slots LONG_MAX none

/-- The second loop of `gap_create_not_the_last`, with the passes left. -/
def gapsBetweenSlots (cluster : PlanCluster) (slots : List FirstFreeSlot)
    (maxCompletionTime : ℤ) : ℕ → List Bool → ℤ → Run (List PlanGap)
  | 0, _, _ => .ok []
  | n + 1, avail, gapStart =>
      match gapsIthSmallest slots avail with
      | none => gapsBetweenSlots cluster slots maxCompletionTime n avail gapStart
      | some c => do
          let avail := avail.set c false
          let time := slotTime slots c
          let gapStart := if gapStart = -1 then time else gapStart
          if gapStart ≠ time then do
            let gapEnd := if maxCompletionTime < time then maxCompletionTime else time
            if gapStart < gapEnd then do
              let gap ← gapMemoryCreateLast cluster (gapFillin gapStart gapEnd none) slots
              let gaps ← gapsBetweenSlots cluster slots maxCompletionTime n avail time
              return gap :: gaps
            else gapsBetweenSlots cluster slots maxCompletionTime n avail time
          else gapsBetweenSlots cluster slots maxCompletionTime n avail gapStart

/-- `gap_create_not_the_last`. -/
def gapCreateNotTheLast (cluster : PlanCluster) (slots : List FirstFreeSlot)
    (maxCompletionTime : ℤ) : Run (List PlanGap) :=
  gapsBetweenSlots cluster slots maxCompletionTime slots.length
    (slots.map (fun slot => decide (slot.time ≠ -1))) (-1)

/-- `gap_create_last`: all CPUs of all nodes that are not down, offline or not
usable, from the end of the plan on. -/
def gapCreateLast (startTime : ℤ) (cluster : PlanCluster) : PlanGap where
  startTime := startTime
  endTime := LONG_MAX
  duration := LONG_MAX
  usage := cluster.numRunningCpus
  nodesMemory := cluster.nodes.zipIdx.filterMap (fun e =>
    if e.1.isOut then none
    else some ⟨e.2, e.1.coresTotal, getNodeMem e.1, getNodeScratchLocal e.1⟩)
  followingJob := none

/-! ## Adding a gap to the list -/

/-- One pass of `add_mem_gap_to_gap`. -/
def addNodeMem (nodesMemory : List PlanGapMem) (source : PlanGapMem) : List PlanGapMem :=
  match nodesMemory with
  | [] => [source]
  | m :: rest =>
      if m.ninfo = source.ninfo then { m with numCpus := m.numCpus + source.numCpus } :: rest
      else m :: addNodeMem rest source

/-- `add_mem_gap_to_gap`. -/
def addMemGapToGap (target source : PlanGap) : PlanGap :=
  { target with
    usage := target.usage + source.usage
    nodesMemory := source.nodesMemory.foldl addNodeMem target.nodesMemory }

/-- The jobs around the one at address `ptr` that start together with it. -/
def jobsStartingWith (jobs : List PlanJob) (ptr : ℕ) : List PlanJob :=
  match jobs.find? (fun job => job.ptr == ptr) with
  | none => []
  | some job =>
      let i := jobs.findIdx (fun j => j.ptr == ptr)
      ((jobs.take i).reverse.takeWhile (fun j => j.startTime == job.startTime)).reverse ++
        (jobs.drop i).takeWhile (fun j => j.startTime == job.startTime)

/-- The memory `adjust_gap_memory` leaves on one node: all of it less what the jobs
on the node need, or what it was when there is none. -/
def adjustNodeMem (cluster : PlanCluster) (neighbours : List PlanJob) (m : PlanGapMem) :
    PlanGapMem :=
  let uses := neighbours.flatMap (fun job =>
    (job.ninfoArr.filter (fun n => n == some m.ninfo)).map (fun _ => job.reqMem))
  match uses, cluster.nodes[m.ninfo]? with
  | _ :: _, some node =>
      { m with
        availableMem := getNodeMem node - uses.sum
        availableScratchLocal := getNodeScratchLocal node }
  | _, _ => m

/-- `adjust_gap_memory`. -/
def adjustGapMemory (cluster : PlanCluster) (jobs : List PlanJob) (gapNew lastGap : PlanGap) :
    PlanGap :=
  match lastGap.followingJob with
  | none => gapNew
  | some ptr =>
      { gapNew with
        nodesMemory := gapNew.nodesMemory.map
          (adjustNodeMem cluster (jobsStartingWith jobs ptr)) }

/-- The gap from `t` on. -/
def PlanGap.from (gap : PlanGap) (t : ℤ) : PlanGap :=
  { gap with startTime := t, duration := gap.endTime - t }

/-- The gap up to `t`. -/
def PlanGap.upTo (gap : PlanGap) (t : ℤ) : PlanGap :=
  { gap with endTime := t, duration := t - gap.startTime }

/-- The loop of `insert_new_gap` towards the front: the first gap from position `i`
backwards whose predecessor ends before the new gap starts. -/
def walkBack (gaps : List PlanGap) (startTime : ℤ) : ℕ → ℕ
  | 0 => 0
  | i + 1 =>
      match gaps[i]? with
      | none => i + 1
      | some previous => if previous.endTime ≤ startTime then i + 1 else walkBack gaps startTime i

/-- The pieces in front of the point where both gaps start: the new gap's own part
before the old one, or the old one's before the new; then the two rests. -/
def alignStarts (lastGap gapNew : PlanGap) : List PlanGap × PlanGap × PlanGap :=
  if gapNew.startTime < lastGap.startTime then
    ([gapNew.upTo lastGap.startTime], lastGap, gapNew.from lastGap.startTime)
  else if lastGap.startTime < gapNew.startTime then
    ([lastGap.upTo gapNew.startTime], lastGap.from gapNew.startTime, gapNew)
  else ([], lastGap, gapNew)

/-- `insert_new_gap`, with a budget of calls; `lastGap` is the position given to the
call, `none` for `NULL`. -/
def insertNewGapAux (cluster : PlanCluster) (jobs : List PlanJob) :
    ℕ → List PlanGap → Option ℕ → PlanGap → Run (List PlanGap)
  | 0, _, _, _ => .error .outOfSteps
  | fuel + 1, gaps, lastGap, gapNew =>
      match gaps[lastGap.getD (gaps.length - 1)]? with
      | none => .ok (gaps ++ [gapNew])
      | some last =>
          if last.endTime ≤ gapNew.startTime then
            let gapNew :=
              if last.endTime = gapNew.startTime then adjustGapMemory cluster jobs gapNew last
              else gapNew
            .ok (gaps ++ [gapNew])
          else
            let i := walkBack gaps gapNew.startTime (lastGap.getD (gaps.length - 1))
            match gaps[i]? with
            | none => .error .badIndex
            | some last =>
                if gapNew.endTime ≤ last.startTime then
                  .ok (gaps.take i ++ gapNew :: gaps.drop i)
                else
                  let (front, last, gapNew) := alignStarts last gapNew
                  if last.endTime = gapNew.endTime then
                    .ok (gaps.take i ++ front ++ addMemGapToGap last gapNew :: gaps.drop (i + 1))
                  else if gapNew.endTime < last.endTime then
                    .ok (gaps.take i ++ front ++
                      addMemGapToGap (last.upTo gapNew.endTime) gapNew ::
                        last.from gapNew.endTime :: gaps.drop (i + 1))
                  else
                    let merged := addMemGapToGap last gapNew
                    let next := i + front.length + 1
                    insertNewGapAux cluster jobs fuel
                      (gaps.take i ++ front ++ merged :: gaps.drop (i + 1))
                      (if i + 1 < gaps.length then some next else none)
                      ((adjustGapMemory cluster jobs gapNew last).from last.endTime)

/-- `insert_new_gap(list, NULL, gap_new)`. -/
def insertNewGap (cluster : PlanCluster) (jobs : List PlanJob) (gaps : List PlanGap)
    (gapNew : PlanGap) : Run (List PlanGap) :=
  insertNewGapAux cluster jobs (gaps.length + 2) gaps none gapNew

end PlanSched
