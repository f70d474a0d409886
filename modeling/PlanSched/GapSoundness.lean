/-
# What the gaps promise

A gap names, for every node, a number of CPUs, and new jobs are accepted on these numbers
alone.  They are to be CPUs that are really free: in service, not held by a job that still
runs, and not planned for a queued job.

The gaps in front of the jobs and those behind the last use of a CPU keep the promise: at
every time they count each CPU at most once, and only while the ledger of the plan leaves it
idle (`Ledger.idle_snoc`).  The gap without end takes every CPU of every node that is not down,
offline or unusable, although `first_free_slots_initialize` sorts out more nodes, and it starts
with the end of the plan, although a running job that is not in the plan may last longer.

* `idleCpus`: the CPUs of a node that are free at a time;
* `gapsOfJob_totalAt`, `gapsBetweenSlots_totalAt`: what the new gaps add;
* `SoundInv`: what the gap list counts is idle, after every pass of `update_sched`;
* `gapList_sound`: when the whole list keeps the promise.
-/
import PlanSched.GapCapacity
import PlanSched.GapShape
import PlanSched.SlotExclusivity
import PlanSched.ChosenCpus

namespace PlanSched

open CheckedRun Bookings KeyedRecords LeastIndex

/-! ## The promise -/

instance (jinfo : JobInfo) (t : ℤ) : Decidable (jinfo.endsBy t) :=
  inferInstanceAs (Decidable (∀ walltime ∈ findResourceReq jinfo.resreq "walltime", _))

/-- CPU `c` is free at time `t`: it is in service, the job running there has ended, and no
queued job of the plan holds it. -/
def CpuIdle (cluster : PlanCluster) (initial : List FirstFreeSlot) (jobs : List PlanJob) (t : ℤ)
    (c : ℕ) : Prop :=
  slotTime initial c ≠ -1 ∧ (∀ running ∈ jobOnCpu cluster.nodes c, running.endsBy t) ∧
    ∀ job ∈ jobs, job.isQueued = true → c ∈ job.cpuIndexes → ¬ job.occupies t

instance (cluster : PlanCluster) (initial : List FirstFreeSlot) (jobs : List PlanJob) (t : ℤ) :
    DecidablePred (CpuIdle cluster initial jobs t) :=
  fun _ => inferInstanceAs (Decidable (_ ∧ _ ∧ _))

/-- The CPUs of node `n` that are free at time `t`. -/
def idleCpus (cluster : PlanCluster) (initial : List FirstFreeSlot) (jobs : List PlanJob) (n : ℕ)
    (t : ℤ) : Finset ℕ :=
  (nodeSlots initial n).filter (CpuIdle cluster initial jobs t)

/-- Every gap names at most as many CPUs of a node as are free throughout the gap. -/
def GapsSound (cluster : PlanCluster) (initial : List FirstFreeSlot) (plan : ClusterPlan) : Prop :=
  ∀ gap ∈ plan.gaps, ∀ m ∈ gap.nodesMemory, ∀ t, gap.covers t →
    m.numCpus ≤ (idleCpus cluster initial plan.jobs m.ninfo t).card

/-! ## The CPUs of a gap -/

/-- Counting a slot adds a CPU to its node. -/
theorem sum_countCpu (n : ℕ) (slot : FirstFreeSlot) (nodesMemory : List PlanGapMem) :
    ((countCpu nodesMemory slot).map (fun m => if m.ninfo = n then (m.numCpus : ℤ) else 0)).sum =
      (nodesMemory.map (fun m => if m.ninfo = n then (m.numCpus : ℤ) else 0)).sum +
        if slot.ninfo = n then 1 else 0 := by
  rw [countCpu_eq]
  refine sum_upsert ?_ ?_ nodesMemory
  · dsimp only
    rw [Nat.zero_add, Nat.cast_one]
  · intro m hm
    dsimp only
    rw [hm]
    split
    · exact Nat.cast_succ _
    · exact (add_zero _).symm

/-- A gap has the CPUs of its slots. -/
theorem cpusOn_withSlots (gap : PlanGap) (slots : List FirstFreeSlot) (n : ℕ) :
    (gap.withSlots slots).cpusOn n = (slots.filter (fun slot => slot.ninfo = n)).length := by
  have hfold : ∀ nodesMemory : List PlanGapMem,
      ((slots.foldl countCpu nodesMemory).map
        (fun m => if m.ninfo = n then (m.numCpus : ℤ) else 0)).sum =
        (nodesMemory.map (fun m => if m.ninfo = n then (m.numCpus : ℤ) else 0)).sum +
          (slots.filter (fun slot => slot.ninfo = n)).length := by
    induction slots with
    | nil =>
        intro nodesMemory
        simp
    | cons slot rest ih =>
        intro nodesMemory
        rw [List.foldl_cons, ih, sum_countCpu, List.filter_cons]
        by_cases hslot : slot.ninfo = n
        · rw [if_pos hslot, if_pos (decide_eq_true hslot), List.length_cons]
          push_cast
          omega
        · rw [if_neg hslot, if_neg (by simpa using hslot)]
          omega
  have hsum := hfold []
  rw [List.map_nil, List.sum_nil, zero_add] at hsum
  exact hsum

/-- An entry of a gap counts no more than the gap has on its node. -/
theorem numCpus_le_cpusOn {gap : PlanGap} {m : PlanGapMem} (hm : m ∈ gap.nodesMemory) :
    (m.numCpus : ℤ) ≤ gap.cpusOn m.ninfo := by
  unfold PlanGap.cpusOn
  have hnonneg : ∀ x ∈ gap.nodesMemory.map
      (fun m' => if m'.ninfo = m.ninfo then (m'.numCpus : ℤ) else 0), 0 ≤ x := by
    intro x hx
    obtain ⟨m', -, rfl⟩ := List.mem_map.mp hx
    split
    · exact Int.natCast_nonneg _
    · exact le_rfl
  refine List.single_le_sum hnonneg _ (List.mem_map.mpr ⟨m, hm, ?_⟩)
  rw [if_pos rfl]

/-- A gap has no negative number of CPUs. -/
theorem cpusOn_nonneg (gap : PlanGap) (n : ℕ) : 0 ≤ gap.cpusOn n := by
  unfold PlanGap.cpusOn
  apply List.sum_nonneg
  intro x hx
  obtain ⟨m', -, rfl⟩ := List.mem_map.mp hx
  split
  · exact Int.natCast_nonneg _
  · exact le_rfl

/-- A gap of the list that covers the time counts no more than the list. -/
theorem cpusOn_le_cpusAt {gaps : List PlanGap} {gap : PlanGap} (hgap : gap ∈ gaps) {t : ℤ}
    (ht : gap.covers t) (n : ℕ) : gap.cpusOn n ≤ cpusAt gaps n t := by
  unfold cpusAt totalAt
  have hnonneg : ∀ x ∈ gaps.map (fun gap => gap.valueAt (PlanGap.cpusOn n) t), 0 ≤ x := by
    intro x hx
    obtain ⟨gap', -, rfl⟩ := List.mem_map.mp hx
    unfold PlanGap.valueAt
    split
    · exact cpusOn_nonneg gap' n
    · exact le_rfl
  refine List.single_le_sum hnonneg _ (List.mem_map.mpr ⟨gap, hgap, ?_⟩)
  exact if_pos ht

/-! ## Gaps in front of a job -/

/-- A slot of a node, seen through its number. -/
theorem mem_nodeSlots_iff {slots : List FirstFreeSlot} {n c : ℕ} :
    c ∈ nodeSlots slots n ↔ slotNode slots c = some n := by
  rw [mem_nodeSlots, slotNode, Option.map_eq_some_iff]

/-- Counting slots is counting their numbers. -/
theorem length_filter_getAt {slots own : List FirstFreeSlot} {cpus : List ℕ}
    (h : List.Forall₂ (fun c slot => getAt slots c = .ok slot) cpus own) (n : ℕ) (bound : ℤ) :
    ((own.filter (fun slot => decide (slot.time < bound))).filter
      (fun slot => slot.ninfo = n)).length =
        (cpus.filter (fun c => slotNode slots c = some n ∧ slotTime slots c < bound)).length := by
  induction h with
  | nil => rfl
  | @cons c slot cpus own hslot _ ih =>
      have hget := getAt_ok.mp hslot
      have hnode : slotNode slots c = some slot.ninfo := by
        rw [slotNode, hget]
        rfl
      rw [List.filter_filter] at ih ⊢
      rw [List.filter_cons, List.filter_cons, hnode, slotTime_of_getElem? hget]
      by_cases hcounted : slot.ninfo = n ∧ slot.time < bound
      · rw [if_pos (by simpa using hcounted), if_pos (by simpa using hcounted), List.length_cons,
          List.length_cons, ih]
      · rw [if_neg (by simpa using hcounted), if_neg (by simpa using hcounted), ih]

/-- The CPUs of a job that `gap_memory_create` counts on node `n`. -/
theorem gapMemoryCreate_cpusOn {gap gap' : PlanGap} {cpus : List ℕ} {slots : List FirstFreeSlot}
    (h : gapMemoryCreate gap cpus slots = .ok gap') (n : ℕ) :
    gap'.cpusOn n = (cpus.filter
      (fun c => slotNode slots c = some n ∧ slotTime slots c < gap.endTime)).length := by
  unfold gapMemoryCreate at h
  obtain ⟨own, hown, h⟩ := bind_ok.mp h
  rw [← pure_ok.mp h, cpusOn_withSlots, length_filter_getAt (forall₂_of_mapM cpus own hown)]

/-- The entries of the array on node `n` that are free by `t`. -/
def readyCount (slots : List FirstFreeSlot) (cpus : List ℕ) (n : ℕ) (t : ℤ) : ℕ :=
  (cpus.filter (fun c => slotNode slots c = some n ∧ slotTime slots c ≤ t)).length

/-- The gaps in front of a job from `gapStart` on, while the CPUs `cpus` are waited for: at
each time they count the entries of the array that are free by then. -/
theorem gapsOfJob_totalAt_from {job : PlanJob} {slots : List FirstFreeSlot} (n : ℕ) (t : ℤ)
    (cpus : List ℕ) : ∀ {before : List ℕ} {gapStart : ℤ} {gaps : List PlanGap},
      job.cpuIndexes = before ++ cpus → ByTime (slotTime slots) cpus → gapStart ≠ -1 →
      (∀ c ∈ cpus, slotTime slots c ≠ -1) →
      (∀ c ∈ before, slotTime slots c ≤ gapStart) → (∀ c ∈ cpus, gapStart ≤ slotTime slots c) →
      gapsOfJob job slots cpus gapStart = .ok gaps →
      totalAt (PlanGap.cpusOn n) gaps t =
        if gapStart ≤ t ∧ ∃ c ∈ cpus, t < slotTime slots c then
          (readyCount slots job.cpuIndexes n t : ℤ) else 0 := by
  induction cpus with
  | nil =>
      intro before gapStart gaps _ _ _ _ _ _ h
      rw [gapsOfJob] at h
      cases h
      simp [totalAt]
  | cons c cpus ih =>
      intro before gapStart gaps hsplit hsorted hset hfree hbefore hstart h
      obtain ⟨hhead, htail⟩ := List.pairwise_cons.mp hsorted
      have hsplit' : job.cpuIndexes = (before ++ [c]) ++ cpus := by
        rw [hsplit]
        simp
      have hfree' : ∀ d ∈ cpus, slotTime slots d ≠ -1 :=
        fun d hd => hfree d (List.mem_cons_of_mem _ hd)
      rw [gapsOfJob] at h
      obtain ⟨slot, hslot, h⟩ := bind_ok.mp h
      have htime := slotTime_of_getElem? (getAt_ok.mp hslot)
      have hle : gapStart ≤ slot.time := by
        rw [← htime]
        exact hstart c List.mem_cons_self
      rw [htime] at hhead
      -- the CPUs in front are free when this one is
      have hbefore' : ∀ d ∈ before ++ [c], slotTime slots d ≤ slot.time := by
        intro d hd
        rcases List.mem_append.mp hd with hd | hd
        · exact (hbefore d hd).trans hle
        · rw [List.mem_singleton.mp hd, htime]
      have hwaits : (∃ d ∈ c :: cpus, t < slotTime slots d) ↔
          t < slot.time ∨ ∃ d ∈ cpus, t < slotTime slots d := by
        rw [List.exists_mem_cons_iff, htime]
      dsimp only at h
      rw [if_neg hset] at h
      rw [if_congr (and_congr_right (fun _ => hwaits)) rfl rfl]
      split at h
      · next hne =>
          obtain ⟨first, hfirst, h⟩ := bind_ok.mp h
          obtain ⟨others, hothers, h⟩ := bind_ok.mp h
          obtain rfl := pure_ok.mp h
          have hrest := ih hsplit' htail (by rw [← htime]; exact hfree c List.mem_cons_self) hfree'
            hbefore' hhead hothers
          obtain ⟨hs, he, -⟩ := gapMemoryCreate_times hfirst
          have hcount : first.cpusOn n = (job.cpuIndexes.filter
              (fun d => slotNode slots d = some n ∧ slotTime slots d < slot.time)).length :=
            gapMemoryCreate_cpusOn hfirst n
          rw [totalAt_cons, valueAt_eq, hs, he, hrest]
          show (if gapStart ≤ t ∧ t < slot.time then first.cpusOn n else 0) + _ = _
          by_cases hearly : t < slot.time
          · rw [if_neg (by omega : ¬ (slot.time ≤ t ∧ _)), add_zero]
            by_cases hcovers : gapStart ≤ t
            · rw [if_pos ⟨hcovers, hearly⟩, if_pos ⟨hcovers, Or.inl hearly⟩, hcount, readyCount]
              -- no CPU becomes free between `t` and the end of the gap
              congr 2
              refine List.filter_congr (fun d hd => ?_)
              rw [decide_eq_decide]
              refine and_congr_right (fun _ => ?_)
              rw [hsplit'] at hd
              rcases List.mem_append.mp hd with hd | hd
              · rcases List.mem_append.mp hd with hd | hd
                · have := hbefore d hd
                  omega
                · rw [List.mem_singleton.mp hd]
                  omega
              · have := hhead d hd
                omega
            · rw [if_neg (by omega), if_neg (by omega)]
          · rw [if_neg (by omega), zero_add]
            have hcond : (slot.time ≤ t ∧ ∃ d ∈ cpus, t < slotTime slots d) ↔
                (gapStart ≤ t ∧ (t < slot.time ∨ ∃ d ∈ cpus, t < slotTime slots d)) := by
              constructor
              · rintro ⟨-, hmore⟩
                exact ⟨by omega, Or.inr hmore⟩
              · rintro ⟨-, hmore⟩
                exact ⟨by omega, hmore.resolve_left hearly⟩
            rw [if_congr hcond rfl rfl]
      · next heq =>
          rw [not_not] at heq
          have hrest := ih hsplit' htail hset hfree' (heq ▸ hbefore') (heq ▸ hhead) h
          have hcond : (gapStart ≤ t ∧ ∃ d ∈ cpus, t < slotTime slots d) ↔
              (gapStart ≤ t ∧ (t < slot.time ∨ ∃ d ∈ cpus, t < slotTime slots d)) := by
            refine and_congr_right (fun hstarted => ?_)
            constructor
            · exact Or.inr
            · intro hmore
              exact hmore.resolve_left (by omega)
          rw [hrest, if_congr hcond rfl rfl]

/-- **The gaps in front of a job count, from the time on at which its first CPU is free until
all of them are, the CPUs of the job that are free, and nothing else.** -/
theorem gapsOfJob_totalAt {job : PlanJob} {slots : List FirstFreeSlot} {gaps : List PlanGap}
    (hsorted : ByTime (slotTime slots) job.cpuIndexes)
    (hfree : ∀ c ∈ job.cpuIndexes, slotTime slots c ≠ -1)
    (h : gapsOfJob job slots job.cpuIndexes (-1) = .ok gaps) (n : ℕ) (t : ℤ) :
    totalAt (PlanGap.cpusOn n) gaps t =
      if (∃ c ∈ job.cpuIndexes, slotTime slots c ≤ t) ∧
          ∃ c ∈ job.cpuIndexes, t < slotTime slots c then
        (readyCount slots job.cpuIndexes n t : ℤ) else 0 := by
  generalize hcpus : job.cpuIndexes = cpus at h hsorted hfree ⊢
  cases cpus with
  | nil =>
      rw [gapsOfJob] at h
      cases h
      simp [totalAt]
  | cons c cpus =>
      obtain ⟨hhead, htail⟩ := List.pairwise_cons.mp hsorted
      rw [gapsOfJob] at h
      obtain ⟨slot, hslot, h⟩ := bind_ok.mp h
      have htime := slotTime_of_getElem? (getAt_ok.mp hslot)
      dsimp only at h
      rw [if_pos rfl, if_neg (not_not.mpr rfl)] at h
      rw [htime] at hhead
      have hset : slot.time ≠ -1 := by
        rw [← htime]
        exact hfree c List.mem_cons_self
      have hfirst := gapsOfJob_totalAt_from n t cpus (show job.cpuIndexes = [c] ++ cpus from hcpus)
        htail hset (fun d hd => hfree d (List.mem_cons_of_mem _ hd))
        (by
          intro d hd
          rw [List.mem_singleton.mp hd, htime]) hhead h
      -- the first CPU is the first one to be free
      have hcond : (slot.time ≤ t ∧ ∃ d ∈ cpus, t < slotTime slots d) ↔
          ((∃ d ∈ c :: cpus, slotTime slots d ≤ t) ∧ ∃ d ∈ c :: cpus, t < slotTime slots d) := by
        rw [List.exists_mem_cons_iff, List.exists_mem_cons_iff, htime]
        constructor
        · rintro ⟨hstarted, hmore⟩
          exact ⟨Or.inl hstarted, Or.inr hmore⟩
        · rintro ⟨hready, hmore⟩
          have hstarted : slot.time ≤ t := by
            rcases hready with hready | ⟨d, hd, hready⟩
            · exact hready
            · exact (hhead d hd).trans hready
          exact ⟨hstarted, hmore.resolve_left (by omega)⟩
      rw [hfirst, hcpus, if_congr hcond rfl rfl]

/-- The CPUs of the array on node `n` that are free by `t`. -/
def readyCpus (slots : List FirstFreeSlot) (cpus : List ℕ) (n : ℕ) (t : ℤ) : Finset ℕ :=
  (nodeSlots slots n).filter (fun c => c ∈ cpus ∧ slotTime slots c ≤ t)

/-- They are the CPUs of these entries. -/
theorem readyCpus_eq (slots : List FirstFreeSlot) (cpus : List ℕ) (n : ℕ) (t : ℤ) :
    readyCpus slots cpus n t
      = (cpus.filter (fun c => slotNode slots c = some n ∧ slotTime slots c ≤ t)).toFinset := by
  ext c
  rw [readyCpus, Finset.mem_filter, mem_nodeSlots_iff, List.mem_toFinset, List.mem_filter,
    decide_eq_true_eq]
  exact and_left_comm

/-- There are as many entries as CPUs exactly if no CPU has two of them. -/
theorem readyCount_eq_card_iff (slots : List FirstFreeSlot) (cpus : List ℕ) (n : ℕ) (t : ℤ) :
    readyCount slots cpus n t = (readyCpus slots cpus n t).card ↔
      (cpus.filter (fun c => slotNode slots c = some n ∧ slotTime slots c ≤ t)).Nodup := by
  rw [readyCpus_eq, readyCount, eq_comm]
  exact Multiset.toFinset_card_eq_card_iff_nodup

/-- Distinct CPUs are counted once. -/
theorem readyCount_le_card (slots : List FirstFreeSlot) {cpus : List ℕ} (hnodup : cpus.Nodup)
    (n : ℕ) (t : ℤ) : readyCount slots cpus n t ≤ (readyCpus slots cpus n t).card :=
  ((readyCount_eq_card_iff slots cpus n t).mpr (hnodup.filter _)).le

/-! ## Gaps behind the last use of a CPU -/

/-- The node is none whose CPUs the gap builders count. -/
def nodeOut (cluster : PlanCluster) (n : ℕ) : Bool :=
  ((cluster.nodes[n]?).map NodeInfo.isOut).getD true

/-- The slots of nodes that are not out. -/
theorem filterMap_countedSlots {cluster : PlanCluster} (slots : List FirstFreeSlot) :
    ∀ {counted : List (Option FirstFreeSlot)}, slots.mapM (fun slot => do
        let node ← getAt cluster.nodes slot.ninfo
        return if node.isOut then none else some slot) = .ok counted →
      counted.filterMap id = slots.filter (fun slot => !nodeOut cluster slot.ninfo) := by
  intro counted hcounted
  have hcells := forall₂_of_mapM slots counted hcounted
  clear hcounted
  induction hcells with
  | nil => rfl
  | @cons slot cell slots cells hcell hcells ih =>
      obtain ⟨node, hnode, hcell⟩ := bind_ok.mp hcell
      have hout : nodeOut cluster slot.ninfo = node.isOut := by
        rw [nodeOut, getAt_ok.mp hnode]
        rfl
      rw [← pure_ok.mp hcell, List.filterMap_cons, List.filter_cons, hout, ih]
      cases node.isOut with
      | true => rfl
      | false => rfl

/-- The CPUs of node `n` that `gap_memory_create_last` counts. -/
theorem gapMemoryCreateLast_cpusOn {cluster : PlanCluster} {gap gap' : PlanGap}
    {slots : List FirstFreeSlot} (h : gapMemoryCreateLast cluster gap slots = .ok gap') (n : ℕ) :
    gap'.cpusOn n = ((nodeSlots slots n).filter
      (fun c => nodeOut cluster n = false ∧ slotTime slots c < gap.endTime)).card := by
  unfold gapMemoryCreateLast at h
  obtain ⟨counted, hcounted, h⟩ := bind_ok.mp h
  rw [← pure_ok.mp h, cpusOn_withSlots, filterMap_countedSlots _ hcounted, List.filter_filter,
    List.filter_filter, length_filter_eq_card]
  congr 2
  unfold nodeSlots
  rw [Finset.filter_filter]
  apply Finset.filter_congr
  intro c hc
  have hget := List.getElem?_eq_getElem (Finset.mem_range.mp hc)
  rw [slotNode, slotTime_of_getElem? hget, hget]
  simp only [Option.any_some, Option.map_some, Option.some.injEq, Bool.and_eq_true,
    decide_eq_true_eq, Bool.not_eq_true']
  constructor
  · rintro ⟨⟨rfl, hout⟩, htime⟩
    exact ⟨rfl, hout, htime⟩
  · rintro ⟨rfl, hout, htime⟩
    exact ⟨⟨rfl, hout⟩, htime⟩

/-- The loop of `gaps_ith_smallest` is the search for the least time among the slots that may be
taken. -/
theorem gapsSmallestFrom_eq (avail : List Bool) (slots : List FirstFreeSlot) :
    ∀ (i : ℕ) (min : ℤ) (result : Option ℕ), gapsSmallestFrom avail i slots min result =
      leastFrom (fun c _ => decide (avail[c]? = some true)) FirstFreeSlot.time i slots min
        result := by
  induction slots with
  | nil =>
      intro i min result
      rfl
  | cons slot slots ih =>
      intro i min result
      rw [gapsSmallestFrom, leastFrom, ih, ih]
      simp only [decide_eq_true_eq]

/-- `gaps_ith_smallest` finds the first slot to be free of those that may be taken. -/
theorem gapsIthSmallest_spec {slots : List FirstFreeSlot} {avail : List Bool} {c : ℕ}
    (h : gapsIthSmallest slots avail = some c) :
    ∃ slot, slots[c]? = some slot ∧ avail[c]? = some true ∧
      ∀ (d : ℕ) (slot' : FirstFreeSlot), slots[d]? = some slot' → avail[d]? = some true →
        slot.time ≤ slot'.time := by
  unfold gapsIthSmallest at h
  rw [gapsSmallestFrom_eq] at h
  have hend := leastFrom_end (fun c _ => decide (avail[c]? = some true)) FirstFreeSlot.time slots
    0 LONG_MAX none
  rw [h] at hend
  cases hend with
  | found j slot hslot hok hlt hleast =>
      rw [Nat.zero_add, decide_eq_true_eq] at hok
      rw [Nat.zero_add]
      refine ⟨slot, hslot, hok, ?_⟩
      intro d slot' hslot' havail'
      rcases hleast d slot' hslot' (by rw [Nat.zero_add]; exact decide_eq_true havail') with
        hlt' | ⟨heq, -⟩
      · exact hlt'.le
      · exact heq.le

/-- The slots that may still be taken are not free before `gapStart`, the others are by then. -/
structure TakenBy (slots : List FirstFreeSlot) (avail : List Bool) (gapStart : ℤ) : Prop where
  left : ∀ (d : ℕ) (slot : FirstFreeSlot), slots[d]? = some slot → avail[d]? = some true →
    gapStart ≤ slot.time
  taken : ∀ (d : ℕ) (slot : FirstFreeSlot), slots[d]? = some slot → avail[d]? ≠ some true →
    slot.time ≤ gapStart

/-- Taking the next slot. -/
theorem TakenBy.take {slots : List FirstFreeSlot} {avail : List Bool} {gapStart : ℤ} {c : ℕ}
    (h : TakenBy slots avail gapStart) (hc : gapsIthSmallest slots avail = some c) :
    gapStart ≤ slotTime slots c ∧ TakenBy slots (avail.set c false) (slotTime slots c) ∧
      ∀ (d : ℕ) (slot : FirstFreeSlot), slots[d]? = some slot → avail[d]? = some true →
        slotTime slots c ≤ slot.time := by
  obtain ⟨slot, hslot, havail, hleast⟩ := gapsIthSmallest_spec hc
  rw [slotTime_of_getElem? hslot]
  have hle := h.left c slot hslot havail
  refine ⟨hle, ⟨?_, ?_⟩, hleast⟩
  · intro d slot' hslot' havail'
    by_cases hd : c = d
    · rw [← hd, List.getElem?_set_self', havail] at havail'
      cases havail'
    · rw [List.getElem?_set_ne hd] at havail'
      exact hleast d slot' hslot' havail'
  · intro d slot' hslot' hnot
    by_cases hd : c = d
    · rw [← hd, hslot] at hslot'
      cases hslot'
      exact le_rfl
    · rw [List.getElem?_set_ne hd] at hnot
      exact (h.taken d slot' hslot' hnot).trans hle

/-- The CPUs of node `n` that are free by `t`; none if the node is out. -/
def freeCpus (cluster : PlanCluster) (slots : List FirstFreeSlot) (n : ℕ) (t : ℤ) : Finset ℕ :=
  (nodeSlots slots n).filter (fun c => nodeOut cluster n = false ∧ slotTime slots c ≤ t)

/-- The CPUs that are free before the next slot to be taken are free by any time of the gap. -/
theorem TakenBy.card_le {cluster : PlanCluster} {slots : List FirstFreeSlot} {avail : List Bool}
    {gapStart bound t : ℤ} (h : TakenBy slots avail gapStart)
    (hbound : ∀ (d : ℕ) (slot : FirstFreeSlot), slots[d]? = some slot → avail[d]? = some true →
      bound ≤ slot.time) (ht : gapStart ≤ t) (n : ℕ) :
    ((nodeSlots slots n).filter
      (fun c => nodeOut cluster n = false ∧ slotTime slots c < bound)).card
        ≤ (freeCpus cluster slots n t).card := by
  apply Finset.card_le_card
  intro d hd
  rw [Finset.mem_filter] at hd
  obtain ⟨hnode, hin, hearly⟩ := hd
  obtain ⟨slot, hslot, -⟩ := mem_nodeSlots.mp hnode
  rw [freeCpus, Finset.mem_filter]
  refine ⟨hnode, hin, ?_⟩
  rw [slotTime_of_getElem? hslot] at hearly ⊢
  by_cases hleft : avail[d]? = some true
  · have := hbound d slot hslot hleft
    omega
  · exact (h.taken d slot hslot hleft).trans ht

/-- What the gaps behind the last use of the CPUs count at a time: of each node that is not out
the CPUs that are free by then, and nothing from the end of the plan on. -/
theorem gapsBetweenSlots_totalAt {cluster : PlanCluster} {slots : List FirstFreeSlot}
    {maxCompletionTime : ℤ} (n : ℕ) (t : ℤ) (passes : ℕ) :
    ∀ {avail : List Bool} {gapStart : ℤ} {gaps : List PlanGap}, TakenBy slots avail gapStart →
      gapsBetweenSlots cluster slots maxCompletionTime passes avail gapStart = .ok gaps →
      totalAt (PlanGap.cpusOn n) gaps t ≤
        if gapStart ≤ t ∧ t < maxCompletionTime then
          ((freeCpus cluster slots n t).card : ℤ) else 0 := by
  induction passes with
  | zero =>
      intro avail gapStart gaps _ h
      rw [gapsBetweenSlots] at h
      cases h
      rw [totalAt_nil]
      split
      · exact Int.natCast_nonneg _
      · exact le_rfl
  | succ passes ih =>
      intro avail gapStart gaps htaken h
      rw [gapsBetweenSlots] at h
      split at h
      · exact ih htaken h
      · next c hc =>
          obtain ⟨hle, htaken', hleast⟩ := htaken.take hc
          generalize slotTime slots c = time at h hle htaken' hleast
          -- a later start only counts for less
          have hgrows : (if time ≤ t ∧ t < maxCompletionTime then
              ((freeCpus cluster slots n t).card : ℤ) else 0) ≤
              if gapStart ≤ t ∧ t < maxCompletionTime then
                ((freeCpus cluster slots n t).card : ℤ) else 0 := by
            split
            · rw [if_pos (by omega)]
            · split
              · exact Int.natCast_nonneg _
              · exact le_rfl
          have hstarts : (if gapStart = -1 then time else gapStart) = time ∨
              (if gapStart = -1 then time else gapStart) = gapStart := by
            split
            · exact Or.inl rfl
            · exact Or.inr rfl
          have hends : (if maxCompletionTime < time then maxCompletionTime else time)
              = min maxCompletionTime time := by
            split
            · omega
            · omega
          dsimp only at h
          rw [hends] at h
          generalize (if gapStart = -1 then time else gapStart) = start at h hstarts
          split at h
          · next hne =>
              rw [hstarts.resolve_left hne] at h
              split at h
              · obtain ⟨first, hfirst, h⟩ := bind_ok.mp h
                obtain ⟨others, hothers, h⟩ := bind_ok.mp h
                obtain rfl := pure_ok.mp h
                have hrest := ih htaken' hothers
                obtain ⟨hs, he, -⟩ := gapMemoryCreateLast_times hfirst
                have hcount := gapMemoryCreateLast_cpusOn hfirst n
                rw [totalAt_cons, valueAt_eq, hs, he]
                show (if gapStart ≤ t ∧ t < min maxCompletionTime time then _ else _) + _ ≤ _
                by_cases hcovers : gapStart ≤ t ∧ t < min maxCompletionTime time
                · have hcard := @TakenBy.card_le cluster slots avail gapStart
                    (min maxCompletionTime time) t htaken
                    (fun d slot hslot hleft => (min_le_right _ _).trans (hleast d slot hslot hleft))
                    hcovers.1 n
                  rw [if_pos hcovers, if_pos ⟨hcovers.1, by omega⟩, hcount]
                  rw [if_neg (by omega)] at hrest
                  show ((Finset.card (Finset.filter
                    (fun c => nodeOut cluster n = false ∧
                      slotTime slots c < min maxCompletionTime time) _) : ℕ) : ℤ) + _ ≤ _
                  omega
                · rw [if_neg hcovers]
                  omega
              · exact (ih htaken' h).trans hgrows
          · next heq =>
              rw [not_not.mp heq] at h
              exact (ih htaken' h).trans hgrows

/-! ## The invariant -/

/-- Inserting gaps adds what they count. -/
theorem foldlM_insertNewGap_totalAt {cluster : PlanCluster} {jobs : List PlanJob}
    {w : PlanGap → ℤ} (hw : GapWeight w) (t : ℤ) (new : List PlanGap) :
    ∀ {gaps gaps' : List PlanGap}, OrderedGaps gaps → (∀ gap ∈ new, gap.Proper) →
      new.foldlM (insertNewGap cluster jobs) gaps = .ok gaps' →
      totalAt w gaps' t = totalAt w gaps t + totalAt w new t := by
  induction new with
  | nil =>
      intro gaps gaps' _ _ h
      rw [List.foldlM_nil, pure_ok] at h
      rw [h, totalAt_nil, add_zero]
  | cons gap new ih =>
      intro gaps gaps' hgaps hnew h
      rw [List.foldlM_cons] at h
      obtain ⟨gaps₁, hgaps₁, h⟩ := bind_ok.mp h
      obtain ⟨hproper, hnew⟩ := List.forall_mem_cons.mp hnew
      have hlengths : ∀ g ∈ gaps, g.startTime < g.endTime := fun g hg => (hgaps.proper g hg).1
      have hordered : OrderedGaps gaps₁ := by
        refine insertNewGapAux_ordered _ hgaps hproper ?_ hgaps₁
        intro p hp
        cases hp
      rw [ih hordered hnew h, insertNewGapAux_totalAt hw t _ hproper.1 hlengths hgaps₁,
        totalAt_cons]
      omega

open scoped Classical in
/-- The CPUs of node `n` that the plan so far leaves idle at time `t`. -/
noncomputable def idleSlots (initial : List FirstFreeSlot) (st : Planning) (n : ℕ) (t : ℤ) :
    Finset ℕ :=
  (nodeSlots initial n).filter
    (fun c => Idle (slotTime initial) (slotTime st.slots) (bookingsOf st.done) c t)

/-- A CPU the plan leaves idle. -/
theorem mem_idleSlots {initial : List FirstFreeSlot} {st : Planning} {n : ℕ} {t : ℤ} {c : ℕ} :
    c ∈ idleSlots initial st n t ↔ c ∈ nodeSlots initial n ∧
      Idle (slotTime initial) (slotTime st.slots) (bookingsOf st.done) c t := by
  simp only [idleSlots, Finset.mem_filter]

/-- What holds after every pass of the second loop: the gaps count idle CPUs only. -/
structure SoundInv (time : ℤ) (initial : List FirstFreeSlot) (st : Planning) : Prop where
  exclusive : ExclusiveInv initial st
  shape : GapInv time time False st
  nodes : ∀ c, slotNode st.slots c = slotNode initial c
  counted : ∀ n t, cpusAt st.gaps n t ≤ (idleSlots initial st n t).card

/-- The table has the slots of the initial one. -/
theorem SoundInv.nodeSlots_eq {time : ℤ} {initial : List FirstFreeSlot} {st : Planning}
    (h : SoundInv time initial st) (n : ℕ) : nodeSlots st.slots n = nodeSlots initial n := by
  ext c
  rw [mem_nodeSlots_iff, mem_nodeSlots_iff, h.nodes]

section Steps

variable {conf : LimitsForClusters} {cluster : PlanCluster} {values : LimitsValues}
variable {time : ℤ} {initial : List FirstFreeSlot} {st st' : Planning}

/-- The CPUs that wait for a job are idle until it starts. -/
theorem SoundInv.idleSlots_planned {rest : List PlanJob} {job : PlanJob} {update : JobUpdate}
    (hinv : SoundInv time initial st) (hjob : job.WholeChunks) (hqueued : job.isQueued = true)
    (h : Planned conf cluster values rest st job update st') {n : ℕ} {t : ℤ}
    (ht : t < update.job.startTime) :
    (idleSlots initial st n t).card + (readyCpus st.slots update.job.cpuIndexes n t).card
      ≤ (idleSlots initial st' n t).card := by
  obtain ⟨-, hbooks, hbookings⟩ := h.books hinv.exclusive.limits hjob hqueued
  have hdisjoint : Disjoint (idleSlots initial st n t)
      (readyCpus st.slots update.job.cpuIndexes n t) := by
    rw [Finset.disjoint_left]
    intro c hidle hready
    have hpassed := (mem_idleSlots.mp hidle).2.2.1
    have hfree := (Finset.mem_filter.mp hready).2.2
    omega
  rw [← Finset.card_union_of_disjoint hdisjoint]
  apply Finset.card_le_card
  intro c hc
  have hsnoc := @Ledger.idle_snoc ℕ _ _ _ _ _ hinv.exclusive.ledger hbooks c t
  rw [mem_idleSlots, hbookings]
  rcases Finset.mem_union.mp hc with hc | hc
  · obtain ⟨hnode, hidle⟩ := mem_idleSlots.mp hc
    exact ⟨hnode, hsnoc (Or.inl hidle)⟩
  · obtain ⟨hnode, hmem, hfree⟩ := Finset.mem_filter.mp hc
    rw [hinv.nodeSlots_eq] at hnode
    exact ⟨hnode, hsnoc (Or.inr ⟨hmem, hfree, ht⟩)⟩

/-- A CPU stays idle when a job is planned. -/
theorem SoundInv.idleSlots_mono {rest : List PlanJob} {job : PlanJob} {update : JobUpdate}
    (hinv : SoundInv time initial st) (hjob : job.WholeChunks) (hqueued : job.isQueued = true)
    (h : Planned conf cluster values rest st job update st') (n : ℕ) (t : ℤ) :
    (idleSlots initial st n t).card ≤ (idleSlots initial st' n t).card := by
  obtain ⟨-, hbooks, hbookings⟩ := h.books hinv.exclusive.limits hjob hqueued
  apply Finset.card_le_card
  intro c hc
  obtain ⟨hnode, hidle⟩ := mem_idleSlots.mp hc
  rw [mem_idleSlots, hbookings]
  exact ⟨hnode, hinv.exclusive.ledger.idle_snoc hbooks (Or.inl hidle)⟩

/-- Planning a queued job keeps the invariant, if its CPUs are distinct. -/
theorem SoundInv.planned {rest : List PlanJob} {job : PlanJob} {update : JobUpdate}
    (hinv : SoundInv time initial st) (hjob : job.WholeChunks) (hqueued : job.isQueued = true)
    (hnodup : update.job.cpuIndexes.Nodup)
    (h : Planned conf cluster values rest st job update st') : SoundInv time initial st' := by
  obtain ⟨hshared, hest, husage⟩ := hjob hqueued
  have hupdate := h.update_ok
  rw [updateJob_shared hshared] at hupdate
  obtain ⟨hplace, hgaps, hslots⟩ := updateSharedJob_spec hinv.exclusive.limits.increasing hupdate
  refine ⟨hinv.exclusive.planned hjob hqueued h, ?_, ?_, ?_⟩
  · exact hinv.shape.planned (fun _ => ⟨hest, Or.inr (Or.inr husage.le)⟩) hqueued h
  · intro c
    rw [h.slots_eq, hslots.node_eq, hinv.nodes]
  · intro n t
    have hnew := gapsOfJob_spec _ hplace.byTime (Or.inl rfl) hgaps
    have htotal := foldlM_insertNewGap_totalAt (gapWeight_cpusOn n) t _ hinv.shape.ordered
      (fun gap hgap => (hnew gap hgap).1) h.gaps_ok
    have hready := readyCount_le_card st.slots hnodup n t
    have hcounted := hinv.counted n t
    unfold cpusAt at hcounted ⊢
    rw [htotal, gapsOfJob_totalAt hplace.byTime hplace.chosen_free hgaps]
    split
    · next hwaits =>
        obtain ⟨-, c, hc, hlt⟩ := hwaits
        have hstart : slotTime st.slots c ≤ update.job.startTime := by
          refine hplace.start_latest ?_ c hc
          rw [hplace.usage_eq, hplace.reqPpn_eq, hplace.reqNumNodes_eq]
          exact husage.le
        have hcard := hinv.idleSlots_planned hjob hqueued h (n := n) (hlt.trans_le hstart)
        omega
    · have hcard := hinv.idleSlots_mono hjob hqueued h n t
      omega

/-- Passing any other job keeps the invariant. -/
theorem SoundInv.passed {job : PlanJob} (hinv : SoundInv time initial st)
    (hqueued : job.isQueued = false) (h : Passed conf cluster st job st') :
    SoundInv time initial st' := by
  refine ⟨hinv.exclusive.passed hqueued h, hinv.shape.passed h, ?_, ?_⟩
  · rw [h.slots_eq]
    exact hinv.nodes
  · intro n t
    have hsame : idleSlots initial st' n t = idleSlots initial st n t := by
      unfold idleSlots
      rw [h.slots_eq, h.done_eq, bookingsOf_append_passed st.done hqueued]
    rw [h.gaps_eq, hsame]
    exact hinv.counted n t

end Steps

/-- The invariant holds before the first job. -/
theorem soundInv_initial (initial : List FirstFreeSlot) (time : ℤ) :
    SoundInv time initial ⟨[], initial, [], [], time, 0⟩ := by
  refine ⟨exclusiveInv_initial initial time, ?_, fun _ => rfl, ?_⟩
  · exact ⟨limitsInv_nil, rfl, ⟨by simp, List.Pairwise.nil⟩, by simp [EndBy], fun h => h.elim⟩
  · intro n t
    exact Int.natCast_nonneg _

/-! ## The whole list -/

/-- The gap builders leave out every node that `first_free_slots_initialize` takes out of
service. -/
def ServiceAgrees (cluster : PlanCluster) : Prop :=
  ∀ node ∈ cluster.nodes, node.isUnavailable = true → node.isOut = true ∨ node.coresTotal = 0

/-- The jobs that run on CPUs in service end by the end of the jobs that are not queued. -/
def RunningEndInTime (time : ℤ) (initial : List FirstFreeSlot) (plan : ClusterPlan) : Prop :=
  ∀ c, slotTime initial c ≠ -1 → ∀ running ∈ jobOnCpu plan.cluster.nodes c,
    running.endsBy (planEnd time (plan.jobs.filter (fun job => !job.isQueued)))

/-- Whenever `update_sched` comes to a queued job, `update_job` abandons nodes cleanly. -/
def CutsCleanly (conf : LimitsForClusters) (time : ℤ) (values : LimitsValues)
    (plan : ClusterPlan) : Prop :=
  ∀ job rest st, Turn conf time values plan job rest st → job.isQueued = true →
    CleanCuts { plan.cluster with numRunningCpus := runningCpus plan.cluster } st.slots
      job.afterMove

/-- A job that has ended by a time has ended later, too. -/
theorem JobInfo.endsBy.mono {jinfo : JobInfo} {t t' : ℤ} (h : jinfo.endsBy t) (ht : t ≤ t') :
    jinfo.endsBy t' :=
  fun walltime hwalltime => (h walltime hwalltime).trans ht

section Closing

variable {cluster : PlanCluster} {time : ℤ} {initial : List FirstFreeSlot} {st : Planning}

/-- No time of the initial table lies before the mark for a CPU out of service. -/
theorem neg_one_le_initial (hinitial : initialSlots cluster time = .ok initial) (htime : 0 ≤ time)
    (c : ℕ) : -1 ≤ slotTime initial c := by
  by_cases hout : slotTime initial c = -1
  · exact hout.ge
  · obtain ⟨slot, hslot, heq⟩ := exists_slot_of_slotTime hout
    rcases initialSlots_freeFrom hinitial hslot with hdown | ⟨hle, -⟩
    · rw [← heq, hdown]
    · omega

/-- A CPU of a node that is not out is in service. -/
theorem inService_of_not_out (hinitial : initialSlots cluster time = .ok initial)
    (htime : 0 ≤ time) (hservice : ServiceAgrees cluster) {n c : ℕ} {node : NodeInfo}
    (hnode : cluster.nodes[n]? = some node) (hin : node.isOut = false)
    (hc : c ∈ nodeSlots initial n) : slotTime initial c ≠ -1 := by
  obtain ⟨slot, hslot, rfl⟩ := mem_nodeSlots.mp hc
  have hserved := initialSlots_served hinitial (List.mem_of_getElem? hslot) hnode
  have havailable : node.isUnavailable = false := by
    by_contra hun
    rcases hservice node (List.mem_of_getElem? hnode) (by simpa using hun) with hout | hcores
    · rw [hout] at hin
      cases hin
    · have hcard := (initialSlots_laid hinitial).card_nodeSlots hnode
      rw [hcores, Finset.card_eq_zero] at hcard
      rw [hcard] at hc
      cases hc
  rw [slotTime_of_getElem? hslot]
  have := hserved.2 havailable
  omega

/-- A CPU that is in service and free by `t` has no running job then. -/
theorem running_ended (hinitial : initialSlots cluster time = .ok initial) {c : ℕ} {t : ℤ}
    (hin : slotTime initial c ≠ -1) (ht : slotTime initial c ≤ t) :
    ∀ running ∈ jobOnCpu cluster.nodes c, running.endsBy t := by
  intro running hrunning
  obtain ⟨slot, hslot, heq⟩ := exists_slot_of_slotTime hin
  rcases initialSlots_freeFrom hinitial hslot with hdown | ⟨-, hends⟩
  · rw [← heq] at hin
    exact absurd hdown hin
  · rw [← heq] at ht
    exact (hends running hrunning).mono ht

/-- What the ledger leaves alone, no queued job holds. -/
theorem not_occupies_of_bookings {c : ℕ} {t : ℤ}
    (h : ∀ b ∈ bookingsOf st.done, ¬ b.HoldsAt c t) :
    ∀ job ∈ st.done, job.isQueued = true → c ∈ job.cpuIndexes → ¬ job.occupies t := by
  intro job hjob hqueued hc hoccupies
  refine h job.booking ?_ ⟨hc, hoccupies⟩
  exact List.mem_map_of_mem (List.mem_filter.mpr ⟨hjob, hqueued⟩)

/-- The gaps before the last one count CPUs that the plan leaves idle, or that are not used any
more. -/
theorem SoundInv.closing (hinv : SoundInv time initial st)
    (hinitial : ∀ c, -1 ≤ slotTime initial c) {gaps : List PlanGap}
    (h : closingGaps cluster st = .ok gaps) :
    ∃ front, gaps = front ++ [gapCreateLast st.maxCompletionTime cluster] ∧
      ∀ n t, cpusAt front n t ≤
        (idleSlots initial st n t).card + (freeCpus cluster st.slots n t).card := by
  unfold closingGaps at h
  dsimp only at h
  split at h
  · obtain ⟨front, hfront, h⟩ := bind_ok.mp h
    rw [← pure_ok.mp hfront] at h
    refine ⟨st.gaps, (pure_ok.mp h).symm, ?_⟩
    intro n t
    have := hinv.counted n t
    omega
  · obtain ⟨new, hnew, h⟩ := bind_ok.mp h
    obtain ⟨front, hfront, h⟩ := bind_ok.mp h
    refine ⟨front, (pure_ok.mp h).symm, ?_⟩
    intro n t
    have hspec := gapsBetweenSlots_spec _ hnew
    have htotal := foldlM_insertNewGap_totalAt (gapWeight_cpusOn n) t _ hinv.shape.ordered
      (fun gap hgap => (hspec gap hgap).1) hfront
    -- at first the slots that may be taken are those in service
    have htaken : TakenBy st.slots (st.slots.map (fun slot => decide (slot.time ≠ -1))) (-1) := by
      constructor
      · intro d slot hslot _
        rw [← slotTime_of_getElem? hslot]
        exact (hinitial d).trans (hinv.exclusive.ledger.free_mono d)
      · intro d slot hslot hnot
        rw [List.getElem?_map, hslot] at hnot
        by_contra hlt
        refine hnot ?_
        rw [Option.map_some, decide_eq_true (by omega)]
    have hbetween := gapsBetweenSlots_totalAt n t _ htaken hnew
    have hcounted := hinv.counted n t
    unfold cpusAt at hcounted ⊢
    rw [htotal]
    split at hbetween
    · omega
    · omega

/-- Both are free. -/
theorem SoundInv.card_le (hinv : SoundInv time initial st)
    (hinitial : initialSlots cluster time = .ok initial) (htime : 0 ≤ time)
    (hservice : ServiceAgrees cluster) (n : ℕ) (t : ℤ) :
    (idleSlots initial st n t).card + (freeCpus cluster st.slots n t).card
      ≤ (idleCpus cluster initial st.done n t).card := by
  have hdisjoint : Disjoint (idleSlots initial st n t) (freeCpus cluster st.slots n t) := by
    rw [Finset.disjoint_left]
    intro c hidle hfree
    have hpassed := (mem_idleSlots.mp hidle).2.2.1
    have hle := (Finset.mem_filter.mp hfree).2.2
    omega
  rw [← Finset.card_union_of_disjoint hdisjoint]
  apply Finset.card_le_card
  intro c hc
  rw [idleCpus, Finset.mem_filter]
  rcases Finset.mem_union.mp hc with hc | hc
  · obtain ⟨hnode, hfirst, hpassed, hunused⟩ := mem_idleSlots.mp hc
    have hin : slotTime initial c ≠ -1 := by
      intro hout
      have hdown := hinv.exclusive.down c hout
      omega
    exact ⟨hnode, hin, running_ended hinitial hin hfirst, not_occupies_of_bookings hunused⟩
  · obtain ⟨hnode, hnotout, hfree⟩ := Finset.mem_filter.mp hc
    rw [hinv.nodeSlots_eq] at hnode
    have hmono := hinv.exclusive.ledger.free_mono c
    unfold nodeOut at hnotout
    cases hget : cluster.nodes[n]? with
    | none =>
        rw [hget] at hnotout
        cases hnotout
    | some node =>
        rw [hget] at hnotout
        have hin := inService_of_not_out hinitial htime hservice hget hnotout hnode
        exact ⟨hnode, hin, running_ended hinitial hin (hmono.trans hfree),
          not_occupies_of_bookings (hinv.exclusive.ledger.not_holdsAt hfree)⟩

/-- The entries of the gap without end. -/
theorem mem_gapCreateLast {startTime : ℤ} {m : PlanGapMem} :
    m ∈ (gapCreateLast startTime cluster).nodesMemory ↔
      ∃ (n : ℕ) (node : NodeInfo), cluster.nodes[n]? = some node ∧ node.isOut = false ∧
        m = ⟨n, node.coresTotal, getNodeMem node, getNodeScratchLocal node⟩ := by
  unfold gapCreateLast
  rw [List.mem_filterMap]
  constructor
  · rintro ⟨⟨node, n⟩, hmem, hentry⟩
    rw [List.mem_zipIdx_iff_getElem?] at hmem
    split at hentry
    · cases hentry
    · next hin =>
        cases hentry
        exact ⟨n, node, hmem, by simpa using hin, rfl⟩
  · rintro ⟨n, node, hnode, hin, rfl⟩
    refine ⟨(node, n), List.mem_zipIdx_iff_getElem?.mpr hnode, ?_⟩
    dsimp only
    rw [if_neg (by simp [hin])]

end Closing

section Sound

variable {conf : LimitsForClusters} {time : ℤ} {values : LimitsValues} {plan : ClusterPlan}
variable {result : SchedUpdate} {initial : List FirstFreeSlot}

/-- The jobs are of the kind the promise is about: those that are queued share their nodes, have
no negative walltime, use whole chunks, and have a cell in `ninfo_arr` for each node. -/
def PlanJob.Plain (job : PlanJob) : Prop :=
  job.WholeChunks ∧ (job.isQueued = true → job.ninfoArr.length = job.reqNumNodes)

/-- If all cuts are clean, the invariant holds at the end of the second loop. -/
theorem CompleteRun.soundInv {values' : LimitsValues} {jobs : List PlanJob} {st : Planning}
    (h : CompleteRun conf time values plan result initial values' jobs st)
    (hjobs : ∀ job ∈ plan.jobs, job.Plain) (hclean : CutsCleanly conf time values plan) :
    SoundInv time initial st := by
  have hpriority : ∀ (job : PlanJob) (priority : ℤ), job.Plain →
      (job.setPriority priority).Plain := fun _ _ hjob => hjob
  have hmoved := movePreferred_forall hpriority _ hjobs h.moved_ok
  refine planJobs_invariant_along jobs ?_ ?_ (soundInv_initial initial time) h.planned_ok
  · intro job rest s update s' hmem hcomes hqueued hs hstep
    obtain ⟨hwhole, hnodes⟩ := afterMove_of hpriority (hmoved job hmem)
    obtain ⟨hshared, -, husage⟩ := hwhole hqueued
    have hqueued₀ : job.isQueued = true := by
      rcases afterMove_eq job with heq | ⟨priority, heq⟩
      · rwa [heq] at hqueued
      · rw [heq] at hqueued
        exact hqueued
    have hturn : Turn conf time values plan job rest s :=
      ⟨initial, values', jobs, h.slots_ok, h.values_ok, h.moved_ok, hcomes⟩
    have hupdate := hstep.update_ok
    rw [updateJob_shared hshared] at hupdate
    have hagree := updateSharedJob_agree husage (hnodes hqueued)
      (hclean job rest s hturn hqueued₀) hupdate
    exact hs.planned hwhole hqueued hagree.nodup hstep
  · intro job s s' _ hqueued hs hstep
    exact hs.passed hqueued hstep

/-- The plan does not end before the jobs that are not queued. -/
theorem CompleteRun.planEnd_passed_le {values' : LimitsValues} {jobs : List PlanJob}
    {st : Planning} (h : CompleteRun conf time values plan result initial values' jobs st) :
    planEnd time (plan.jobs.filter (fun job => !job.isQueued)) ≤ st.maxCompletionTime := by
  obtain ⟨htime, hpassed⟩ := planJobs_maxCompletionTime jobs h.planned_ok
  refine planEnd_le _ htime ?_
  intro job hjob
  obtain ⟨hmem, hnot⟩ := List.mem_filter.mp hjob
  rw [Bool.not_eq_true'] at hnot
  exact hpassed job (mem_movePreferred hnot _ hmem h.moved_ok) hnot

/-- The gap list keeps its promise, if the nodes in service agree, the running jobs end in time
and all cuts are clean. -/
theorem CompleteRun.gapsSound {values' : LimitsValues} {jobs : List PlanJob} {st : Planning}
    (h : CompleteRun conf time values plan result initial values' jobs st) (htime : 0 ≤ time)
    (hjobs : ∀ job ∈ plan.jobs, job.Plain) (hclean : CutsCleanly conf time values plan)
    (hservice : ServiceAgrees plan.cluster) (hrunning : RunningEndInTime time initial plan) :
    GapsSound plan.cluster initial result.plan := by
  have hinv := h.soundInv hjobs hclean
  obtain ⟨front, hfront, hcounts⟩ :=
    hinv.closing (neg_one_le_initial h.slots_ok htime) h.closing_ok
  intro gap hgap m hm t ht
  rw [h.jobs_eq]
  rw [hfront] at hgap
  rcases List.mem_append.mp hgap with hgap | hgap
  · have hentry := numCpus_le_cpusOn hm
    have hlist := cpusOn_le_cpusAt hgap ht m.ninfo
    have hcount := hcounts m.ninfo t
    have hfree := hinv.card_le h.slots_ok htime hservice m.ninfo t
    have hsame : freeCpus { plan.cluster with numRunningCpus := runningCpus plan.cluster }
        st.slots m.ninfo t = freeCpus plan.cluster st.slots m.ninfo t := rfl
    rw [hsame] at hcount
    omega
  · -- the gap without end begins when all jobs of the plan have ended
    rw [List.mem_singleton.mp hgap] at hm ht
    obtain ⟨n, node, hnode, hin, rfl⟩ := mem_gapCreateLast.mp hm
    have hlate : st.maxCompletionTime ≤ t := ht.1
    show node.coresTotal ≤ _
    rw [← (initialSlots_laid h.slots_ok).card_nodeSlots hnode]
    apply Finset.card_le_card
    intro c hc
    rw [idleCpus, Finset.mem_filter]
    have hserved := inService_of_not_out h.slots_ok htime hservice hnode hin hc
    refine ⟨hc, hserved, ?_, ?_⟩
    · intro running hon
      exact (hrunning c hserved running hon).mono (h.planEnd_passed_le.trans hlate)
    · intro job hjob _ _ hoccupies
      have hended := @completionTime_le_planEnd time _ _ hjob
      rw [← hinv.shape.planEnd_eq] at hended
      have hbefore : t < job.completionTime := hoccupies.2
      omega

/-- Without queued jobs the plan ends with its jobs. -/
theorem CompleteRun.maxCompletionTime_eq {values' : LimitsValues} {jobs : List PlanJob}
    {st : Planning} (h : CompleteRun conf time values plan result initial values' jobs st)
    (hpassed : ∀ job ∈ plan.jobs, job.isQueued = false) :
    st.maxCompletionTime = planEnd time plan.jobs := by
  have hpriority : ∀ (job : PlanJob) (priority : ℤ),
      job.isQueued = false ∧ job.completionTime ≤ planEnd time plan.jobs →
      (job.setPriority priority).isQueued = false ∧
        (job.setPriority priority).completionTime ≤ planEnd time plan.jobs := fun _ _ hjob => hjob
  have hmoved := movePreferred_forall hpriority _
    (fun job hjob => ⟨hpassed job hjob, completionTime_le_planEnd hjob⟩) h.moved_ok
  refine le_antisymm ?_ ?_
  · refine @planJobs_invariant_along _ _ _
      (fun s => s.maxCompletionTime ≤ planEnd time plan.jobs) jobs _ _ ?_ ?_
      (le_planEnd time plan.jobs) h.planned_ok
    · intro job rest s update s' hmem _ hqueued _ _
      rw [(afterMove_of hpriority (hmoved job hmem)).1] at hqueued
      cases hqueued
    · intro job s s' hmem _ hs hstep
      rw [hstep.maxCompletionTime_eq]
      exact max_le hs (afterMove_of hpriority (hmoved job hmem)).2
  · have hle := h.planEnd_passed_le
    rwa [List.filter_eq_self.mpr (fun job hjob => by rw [hpassed job hjob]; rfl)] at hle

/-- Without queued jobs, the promise of the gap without end needs both conditions. -/
theorem CompleteRun.conditions_of_gapsSound {values' : LimitsValues} {jobs : List PlanJob}
    {st : Planning} (h : CompleteRun conf time values plan result initial values' jobs st)
    (hpassed : ∀ job ∈ plan.jobs, job.isQueued = false)
    (hlate : planEnd time plan.jobs < LONG_MAX)
    (hsound : GapsSound plan.cluster initial result.plan) :
    ServiceAgrees plan.cluster ∧ RunningEndInTime time initial plan := by
  have hend := h.maxCompletionTime_eq hpassed
  obtain ⟨front, hfront⟩ := closingGaps_eq h.closing_ok
  have hlaid := initialSlots_laid h.slots_ok
  -- the gap without end names all CPUs of a node that is not out
  have hlast : ∀ {n : ℕ} {node : NodeInfo}, plan.cluster.nodes[n]? = some node →
      node.isOut = false → node.coresTotal ≤
        (idleCpus plan.cluster initial result.plan.jobs n (planEnd time plan.jobs)).card := by
    intro n node hnode hin
    refine hsound (gapCreateLast st.maxCompletionTime
      { plan.cluster with numRunningCpus := runningCpus plan.cluster }) ?_
      ⟨n, node.coresTotal, getNodeMem node, getNodeScratchLocal node⟩ ?_ _ ?_
    · rw [hfront]
      simp
    · exact mem_gapCreateLast.mpr ⟨n, node, hnode, hin, rfl⟩
    · exact ⟨hend.le, hlate⟩
  constructor
  · intro node hmem hun
    by_contra hnot
    rw [not_or, Bool.not_eq_true] at hnot
    obtain ⟨n, hnode⟩ := List.getElem?_of_mem hmem
    have hempty : idleCpus plan.cluster initial result.plan.jobs n (planEnd time plan.jobs)
        = ∅ := by
      rw [Finset.eq_empty_iff_forall_notMem]
      intro c hc
      obtain ⟨hslots, hin, -⟩ := Finset.mem_filter.mp hc
      obtain ⟨slot, hslot, rfl⟩ := mem_nodeSlots.mp hslots
      refine hin ?_
      rw [slotTime_of_getElem? hslot]
      exact (initialSlots_served h.slots_ok (List.mem_of_getElem? hslot) hnode).1 hun
    have hcores := hlast hnode hnot.1
    rw [hempty, Finset.card_empty] at hcores
    exact hnot.2 (Nat.le_zero.mp hcores)
  · intro c hin running hrunning
    obtain ⟨slot, node, hslot, hnode⟩ := hlaid.node_of_jobOnCpu hrunning
    have hserved := initialSlots_served h.slots_ok (List.mem_of_getElem? hslot) hnode
    have hnotout : node.isOut = false := by
      by_contra hout
      refine hin ?_
      rw [slotTime_of_getElem? hslot]
      refine hserved.1 ?_
      rw [Bool.not_eq_false] at hout
      unfold NodeInfo.isOut at hout
      unfold NodeInfo.isUnavailable
      rw [hout]
      rfl
    have hall := Finset.eq_of_subset_of_card_le (Finset.filter_subset
      (CpuIdle plan.cluster initial result.plan.jobs (planEnd time plan.jobs)) _)
      (by rw [hlaid.card_nodeSlots hnode]; exact hlast hnode hnotout)
    have hc : c ∈ nodeSlots initial slot.ninfo := mem_nodeSlots.mpr ⟨slot, hslot, rfl⟩
    rw [← hall, Finset.mem_filter] at hc
    rw [List.filter_eq_self.mpr (fun job hjob => by rw [hpassed job hjob]; rfl)]
    exact hc.2.2.1 running hrunning

/-- The gap list of a call that returns 0 keeps its promise if the gap builders agree with
`first_free_slots_initialize` on the nodes, the jobs that run end by the end of the jobs that are
not queued, and no CPU is left behind when a node is abandoned.  The first two are needed already
without any queued job. -/
theorem gapList_sound (h : updateSched conf time values plan = .ok result) (hcode : result.code = 0)
    (hinitial : initialSlots plan.cluster time = .ok initial) (htime : 0 ≤ time) :
    ((∀ job ∈ plan.jobs, job.Plain) → CutsCleanly conf time values plan →
      ServiceAgrees plan.cluster → RunningEndInTime time initial plan →
      GapsSound plan.cluster initial result.plan) ∧
    ((∀ job ∈ plan.jobs, job.isQueued = false) → planEnd time plan.jobs < LONG_MAX →
      GapsSound plan.cluster initial result.plan →
      ServiceAgrees plan.cluster ∧ RunningEndInTime time initial plan) := by
  obtain ⟨slots, values', jobs, st, hrun⟩ := updateSched_run h hcode
  have hslots := hrun.slots_ok
  rw [hinitial] at hslots
  cases hslots
  exact ⟨fun hjobs hclean hservice hrunning => hrun.gapsSound htime hjobs hclean hservice hrunning,
    fun hpassed hlate hsound => hrun.conditions_of_gapsSound hpassed hlate hsound⟩

/-- Jobs of one chunk each never leave a CPU behind. -/
theorem cutsCleanly_of_one_chunk (conf : LimitsForClusters) (time : ℤ) (values : LimitsValues)
    (hjobs : ∀ job ∈ plan.jobs, job.isQueued = true →
      job.usage = job.reqPpn ∧ job.ninfoArr.length = job.reqNumNodes) :
    CutsCleanly conf time values plan := by
  rintro job rest st ⟨slots, values', jobs, -, -, hmoved, hcomes⟩ hqueued
  have hpriority : ∀ (job : PlanJob) (priority : ℤ),
      (job.isQueued = true → job.usage = job.reqPpn ∧ job.ninfoArr.length = job.reqNumNodes) →
      ((job.setPriority priority).isQueued = true →
        (job.setPriority priority).usage = (job.setPriority priority).reqPpn ∧
          (job.setPriority priority).ninfoArr.length = (job.setPriority priority).reqNumNodes) :=
    fun _ _ hjob => hjob
  have hjob := afterMove_of hpriority (movePreferred_forall hpriority _ hjobs hmoved job hcomes.mem)
  have hqueued' : job.afterMove.isQueued = true := by
    rcases afterMove_eq job with heq | ⟨priority, heq⟩ <;> rw [heq]
    · exact hqueued
    · exact hqueued
  obtain ⟨husage, hnodes⟩ := hjob hqueued'
  exact cleanCuts_of_one_chunk husage hnodes

end Sound

/-- The plan of a cluster with a running job, which is in the plan, and a queued one. -/
def sharedPlan : ClusterPlan where
  cluster := busyCluster
  jobs := [PlanJob.filled 1 (runningJob 900 4100) 1 1 Nat.one_pos 0 4100 0 900,
    queuedJob 2 5 1 Nat.one_pos 4 100]
  gaps := []
  limits := []

/-- There the gaps in front of the queued job and behind it keep the promise. -/
theorem gapList_sound_shared :
    ∃ result initial, updateSched oneClass 1000 ⟨[], []⟩ sharedPlan = .ok result ∧
      result.code = 0 ∧ initialSlots sharedPlan.cluster 1000 = .ok initial ∧
      result.plan.gaps.map (fun gap => (gap.startTime, gap.nodesMemory.map PlanGapMem.numCpus))
        = [(1000, [4]), (5100, [5])] ∧
      GapsSound sharedPlan.cluster initial result.plan := by
  have hrun : (updateSched oneClass 1000 ⟨[], []⟩ sharedPlan >>= fun r => pure (r.code,
      r.plan.gaps.map (fun gap => (gap.startTime, gap.nodesMemory.map PlanGapMem.numCpus))))
      = .ok (0, [(1000, [4]), (5100, [5])]) := by
    decide +kernel
  obtain ⟨result, hresult, hvalues⟩ := bind_ok.mp hrun
  obtain ⟨hcode, hgaps⟩ := Prod.mk.inj (pure_ok.mp hvalues)
  obtain ⟨initial, hinitial, -⟩ := bind_ok.mp hresult
  have hplain : ∀ job ∈ sharedPlan.jobs, job.Plain := by
    intro job hjob
    simp only [sharedPlan, List.mem_cons, List.not_mem_nil, or_false] at hjob
    rcases hjob with rfl | rfl
    · exact ⟨fun hqueued => absurd hqueued (by decide), fun _ => rfl⟩
    · exact ⟨fun _ => ⟨rfl, by decide, rfl⟩, fun _ => rfl⟩
  have hclean : CutsCleanly oneClass 1000 ⟨[], []⟩ sharedPlan := by
    apply cutsCleanly_of_one_chunk
    intro job hjob hqueued
    simp only [sharedPlan, List.mem_cons, List.not_mem_nil, or_false] at hjob
    rcases hjob with rfl | rfl
    · exact absurd hqueued (by decide)
    · exact ⟨rfl, rfl⟩
  have hrunning : RunningEndInTime 1000 initial sharedPlan := by
    intro c _ running hon
    have hcells : jobOnCpu sharedPlan.cluster.nodes c = if c < 5 then
        (([none, none, none, none, some (runningJob 900 4100)] : List (Option JobInfo))[c]?).join
        else none := rfl
    rw [hcells] at hon
    split at hon
    · have hcell := List.mem_of_getElem? (Option.join_eq_some_iff.mp hon)
      simp only [List.mem_cons, reduceCtorEq, Option.some.injEq, List.not_mem_nil, or_false,
        false_or] at hcell
      rw [hcell]
      decide
    · cases hon
  have hservice : ServiceAgrees sharedPlan.cluster := by
    unfold ServiceAgrees
    decide
  exact ⟨result, initial, hresult, hcode, hinitial, hgaps,
    (gapList_sound hresult hcode hinitial (by decide)).1 hplain hclean hservice hrunning⟩

/-- A cluster of one node with two CPUs, of unknown state. -/
def unknownCluster : PlanCluster :=
  ⟨"zubat", [{ plainNode "zubat1" 2 8 with isUnknown := true }], 2, 0, 0⟩

/-- `first_free_slots_initialize` takes that node out of service, the gap without end offers both
of its CPUs. -/
theorem gapList_offers_unknown_node :
    ∃ result initial, updateSched oneClass 1000 ⟨[], []⟩ ⟨unknownCluster, [], [], []⟩
        = .ok result ∧ result.code = 0 ∧ initialSlots unknownCluster 1000 = .ok initial ∧
      ¬ GapsSound unknownCluster initial result.plan := by
  have hrun : (do
      let result ← updateSched oneClass 1000 ⟨[], []⟩ ⟨unknownCluster, [], [], []⟩
      let initial ← initialSlots unknownCluster 1000
      return (result.code, result.plan.gaps.map (fun gap =>
          (gap.startTime, gap.endTime, gap.nodesMemory.map (fun m => (m.ninfo, m.numCpus)))),
        (idleCpus unknownCluster initial result.plan.jobs 0 1000).card)
        : Run (ℕ × List (ℤ × ℤ × List (ℕ × ℕ)) × ℕ))
      = .ok (0, [(1000, LONG_MAX, [(0, 2)])], 0) := by
    rfl
  obtain ⟨result, hresult, hrest⟩ := bind_ok.mp hrun
  obtain ⟨initial, hinitial, hvalues⟩ := bind_ok.mp hrest
  obtain ⟨hcode, hrest⟩ := Prod.mk.inj (pure_ok.mp hvalues)
  obtain ⟨hgaps, hidle⟩ := Prod.mk.inj hrest
  refine ⟨result, initial, hresult, hcode, hinitial, ?_⟩
  intro hsound
  obtain ⟨gap, hgap, hparts⟩ := List.map_eq_singleton_iff.mp hgaps
  obtain ⟨hstart, hparts⟩ := Prod.mk.inj hparts
  obtain ⟨hend, hnodes⟩ := Prod.mk.inj hparts
  obtain ⟨m, hm, hentry⟩ := List.map_eq_singleton_iff.mp hnodes
  obtain ⟨hninfo, hcpus⟩ := Prod.mk.inj hentry
  have hle := hsound gap (by rw [hgap]; simp) m (by rw [hm]; simp) 1000
    ⟨hstart.le, by rw [hend]; decide⟩
  rw [hninfo, hcpus, hidle] at hle
  exact absurd hle (by decide)

end PlanSched
