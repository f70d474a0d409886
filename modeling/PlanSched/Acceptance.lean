/-
# Accepted jobs and their places

`find_first_gap` accepts a new job on the strength of the gap list, `job_put_in_gap` enters
it, and the next `update_sched` looks for CPUs in the slot table.  The two decisions read
different data: the gaps offer nodes that the slot table has out of service, scratch space of
`-1` stands for no limit in the one and for too little in the other, and the memory that is
available when a slot becomes free is no concern of the gaps.

* `memoryMark`: what `update_job` can still refuse a slot of an accepted job for;
* `NodesGive`: the nodes the job is fixed to can give its chunks;
* `accepted_job_planned_iff`: under that condition an accepted job is not removed, and without
  it only a job may stay that has a chunk started by a slot short of available memory; it is
  exact where such slots are none, or are settled by what the nodes have (`ShortsSettled`).
-/
import PlanSched.FirstGap
import PlanSched.GapCounts
import PlanSched.EarliestPlacement

namespace PlanSched

open CheckedRun

/-! ## The condition -/

/-- What the service, the memory and the scratch space make of a slot.  A node without a
resource has `-1` of it, less than any job asks for. -/
def memoryMark (job : PlanJob) (slot : FirstFreeSlot) : SlotAvailability :=
  if slot.time = -1 then .nodeDown
  else if slot.mem < job.reqMem ∨ slot.scratchLocal < job.reqScratchLocal then .notEnoughMem
  else if slot.availableMem < job.reqMem ∨ slot.availableScratchLocal < job.reqScratchLocal then
    .notEnoughAvailableMem
  else .free

/-- The chunks the job is fixed to node `n` for. -/
def PlanJob.chunksOn (job : PlanJob) (cluster : PlanCluster) (n : ℕ) : ℕ :=
  job.fixedNnameArr.count ((cluster.nodes[n]?).map NodeInfo.name)

/-- Every node can give the chunks the job is fixed to it for. -/
def NodesGive (cluster : PlanCluster) (job : PlanJob) (slots : List FirstFreeSlot) : Prop :=
  ∀ n < cluster.nodes.length,
    CanGive slots job (slots.map (memoryMark job)) n (job.chunksOn cluster n)

/-- Every node has slots in service for them, with the memory and the scratch space. -/
def NodesHave (cluster : PlanCluster) (job : PlanJob) (slots : List FirstFreeSlot) : Prop :=
  ∀ n < cluster.nodes.length,
    job.chunksOn cluster n * job.reqPpn ≤ (usableSlots slots (slots.map (memoryMark job)) n).card

instance (cluster : PlanCluster) (job : PlanJob) (slots : List FirstFreeSlot) :
    Decidable (NodesGive cluster job slots) :=
  inferInstanceAs (Decidable (∀ n < _, CanGive _ _ _ n _))

/-- No slot of the nodes the job is fixed to is short of available memory. -/
def NoneShort (cluster : PlanCluster) (job : PlanJob) (slots : List FirstFreeSlot) : Prop :=
  ∀ slot ∈ slots, 0 < job.chunksOn cluster slot.ninfo →
    memoryMark job slot ≠ .notEnoughAvailableMem

/-- Every such slot is free earlier than a slot of its node with enough of it. -/
def ShortsCovered (cluster : PlanCluster) (job : PlanJob) (slots : List FirstFreeSlot) : Prop :=
  ∀ slot ∈ slots, 0 < job.chunksOn cluster slot.ninfo →
    memoryMark job slot = .notEnoughAvailableMem →
      ∃ other ∈ slots, other.ninfo = slot.ninfo ∧ memoryMark job other = .free ∧
        slot.time < other.time

/-- Slots short of available memory do not matter: there are none, or the job has one chunk, or
they are covered and its chunks are single CPUs or on different nodes. -/
def ShortsSettled (cluster : PlanCluster) (job : PlanJob) (slots : List FirstFreeSlot) : Prop :=
  NoneShort cluster job slots ∨ (TimesFit slots ∧ (job.reqNumNodes = 1 ∨
    (ShortsCovered cluster job slots ∧
      (job.reqPpn = 1 ∨ ∀ n < cluster.nodes.length, job.chunksOn cluster n ≤ 1))))

/-- It holds of the job with the address `ptr` and of the table whenever `update_sched` comes to
that job. -/
def AtTurn (conf : LimitsForClusters) (time : ℤ) (values : LimitsValues) (plan : ClusterPlan)
    (ptr : ℕ) (P : PlanJob → List FirstFreeSlot → Prop) : Prop :=
  ∀ job rest st, Turn conf time values plan job rest st → job.ptr = ptr → P job.afterMove st.slots

/-! ## Nodes that accept the job -/

/-- What `update_job` asks of a node the job is fixed to, whatever the slot table says. -/
structure NodeAccepts (job : PlanJob) (node : NodeInfo) : Prop where
  window : ¬ (node.availBefore ≠ 0 ∧ node.availBefore < job.completionTime)
  walltimeMin : ¬ (node.walltimeLimitMin ≠ 0 ∧ job.estimatedProcessing < node.walltimeLimitMin)
  walltimeMax : ¬ (node.walltimeLimitMax ≠ 0 ∧ node.walltimeLimitMax < job.estimatedProcessing)
  gpu : ¬ lacksGpu job node = true

section Fits

variable {cluster : PlanCluster} {job : PlanJob} {slots : List FirstFreeSlot}
  {avail : List SlotAvailability}

/-- Only memory and service decide about the slots of a node that accepts the job. -/
theorem slotAvailability_accepted {slot : FirstFreeSlot} {node : NodeInfo}
    (h : NodeAccepts job node) (hnode : cluster.nodes[slot.ninfo]? = some node)
    (hfixed : some node.name ∈ job.fixedNnameArr) (hcores : job.reqPpn ≤ node.coresTotal) :
    slotAvailability cluster job false slot = .ok (memoryMark job slot) := by
  have hget : getAt cluster.nodes slot.ninfo = .ok node := getAt_ok.mpr hnode
  have hpinned : ¬ (job.jinfo.isExclusive = false ∧ (false : Bool) = false ∧
      job.fixedNnameArr.contains (some node.name) = false) := by
    simp [hfixed]
  unfold slotAvailability memoryMark
  by_cases hdown : slot.time = -1
  · rw [if_pos hdown, if_pos hdown]
  · rw [if_neg hdown, if_neg hdown, hget]
    change (if _ then _ else _ : Run SlotAvailability) = _
    rw [if_neg h.window, if_neg h.walltimeMin, if_neg h.walltimeMax, if_neg h.gpu,
      if_neg hpinned, if_neg (not_lt.mpr hcores)]
    split
    · rfl
    split
    · rfl
    · rfl

/-- A slot that may be used is one that service and memory allow. -/
theorem memoryMark_of_usable {wiped : Bool} {slot : FirstFreeSlot} {a : SlotAvailability}
    (h : slotAvailability cluster job wiped slot = .ok a) (husable : a.usable = true) :
    memoryMark job slot = a := by
  have hrefused : ∀ {b : SlotAvailability}, b.usable = false →
      (pure b : Run SlotAvailability) = .ok a → False := by
    intro b hb heq
    rw [← pure_ok.mp heq, hb] at husable
    cases husable
  unfold slotAvailability at h
  unfold memoryMark
  split at h
  · exact (hrefused rfl h).elim
  next hdown =>
    obtain ⟨node, hnode, h⟩ := bind_ok.mp h
    rw [if_neg hdown]
    iterate 6
      split at h
      · exact (hrefused rfl h).elim
    split at h
    · exact (hrefused rfl h).elim
    next htotal =>
      rw [if_neg htotal]
      split at h
      · next hshort =>
          rw [if_pos hshort]
          exact pure_ok.mp h
      · next hample =>
          rw [if_neg hample]
          exact pure_ok.mp h

/-- A slot that service and memory allow is free, or short of available memory. -/
theorem memoryMark_usable {slot : FirstFreeSlot} (h : (memoryMark job slot).usable = true) :
    memoryMark job slot = .free ∨ memoryMark job slot = .notEnoughAvailableMem := by
  unfold memoryMark at h ⊢
  split
  · next hdown =>
      rw [if_pos hdown] at h
      cases h
  · next hdown =>
      rw [if_neg hdown] at h
      split
      · next htotal =>
          rw [if_pos htotal] at h
          cases h
      · split
        · exact Or.inr rfl
        · exact Or.inl rfl

/-- The marks of the loop are those of the memory on a node that accepts the job. -/
theorem avail_accepted {n : ℕ} {node : NodeInfo} (h : NodeAccepts job node)
    (hnode : cluster.nodes[n]? = some node) (hfixed : some node.name ∈ job.fixedNnameArr)
    (hcores : job.reqPpn ≤ node.coresTotal)
    (havail : slots.mapM (slotAvailability cluster job false) = .ok avail) {c : ℕ}
    (hc : c ∈ nodeSlots slots n) : (slots.map (memoryMark job))[c]? = avail[c]? := by
  obtain ⟨slot, hslot, rfl⟩ := mem_nodeSlots.mp hc
  have hlt : c < avail.length := by
    rw [← (forall₂_of_mapM _ _ havail).length_eq]
    exact (List.getElem?_eq_some_iff.mp hslot).1
  have hcell : avail[c]? = some avail[c] := List.getElem?_eq_getElem hlt
  obtain ⟨slot', hslot', heq⟩ := exists_of_mapM_getElem? havail hcell
  rw [hslot] at hslot'
  cases hslot'
  rw [slotAvailability_accepted h hnode hfixed hcores] at heq
  rw [hcell, List.getElem?_map, hslot, Option.map_some, Except.ok.inj heq]

/-- The nodes together are named as often as the job has chunks. -/
theorem length_le_sum_count {ι : Type} [BEq ι] [LawfulBEq ι] (s : Finset ℕ) (name : ℕ → ι)
    (names : List ι) (h : ∀ x ∈ names, ∃ n ∈ s, name n = x) :
    names.length ≤ ∑ n ∈ s, names.count (name n) := by
  induction names with
  | nil => exact Nat.zero_le _
  | cons x rest ih =>
      obtain ⟨n, hn, hx⟩ := h x List.mem_cons_self
      have hrest := ih (fun y hy => h y (List.mem_cons_of_mem x hy))
      have hlt : ∑ m ∈ s, rest.count (name m) < ∑ m ∈ s, (x :: rest).count (name m) := by
        refine Finset.sum_lt_sum (fun m _ => List.count_le_count_cons) ⟨n, hn, ?_⟩
        rw [hx, List.count_cons_self]
        exact Nat.lt_succ_self _
      rw [List.length_cons]
      omega

/-- A job that is fixed to nodes which accept it and can give its chunks finds its CPUs. -/
theorem placeShared_of_nodesGive (husage : job.usage = job.reqPpn * job.reqNumNodes)
    (hfixed : job.fixedNnameArr.length = job.reqNumNodes) (hcomplete : job.Complete)
    (hnames : (cluster.nodes.map NodeInfo.name).Nodup) (hlaid : Laid cluster slots)
    (hknown : ∀ name, some name ∈ job.fixedNnameArr → ∃ (n : ℕ) (node : NodeInfo),
      cluster.nodes[n]? = some node ∧ node.name = name ∧ NodeAccepts job node)
    (hgive : NodesGive cluster job slots) : placeShared cluster job slots ≠ .ok none := by
  intro hrun
  obtain ⟨avail, havail, -⟩ := bind_ok.mp (show (slots.mapM (slotAvailability cluster job
    (wipeFixedNodes job).2) >>= _) = .ok none from hrun)
  refine placeShared_ne_none husage havail (k := job.chunksOn cluster) ?_ ?_ hrun
  · intro n hn
    rw [wipeFixedNodes_of_complete hcomplete] at havail ⊢
    have hnode := List.getElem?_eq_getElem hn
    have hchunks : job.chunksOn cluster n
        = job.fixedNnameArr.count (some cluster.nodes[n].name) := by
      unfold PlanJob.chunksOn
      rw [hnode, Option.map_some]
    refine ⟨?_, ?_⟩
    · rw [hchunks, chunksAllowed_fixed hfixed hnames hnode]
    · rcases Nat.eq_zero_or_pos (job.chunksOn cluster n) with hzero | hpos
      · exact Or.inl hzero
      · -- the marks of the loop are those of the condition
        have hmem : some cluster.nodes[n].name ∈ job.fixedNnameArr := by
          rw [hchunks] at hpos
          exact List.count_pos_iff.mp hpos
        obtain ⟨m, node, hm, hname, haccepts⟩ := hknown _ hmem
        have hsame : m = n := by
          by_contra hne
          exact name_ne_of_ne hnames hnode hm hne hname
        rw [hsame, hnode] at hm
        cases hm
        have hcores := (hgive n hn).cores hpos
        rw [hlaid.card_nodeSlots hnode] at hcores
        refine (hgive n hn).mono ?_
        intro c hc a ha _
        rw [← avail_accepted haccepts hnode hmem hcores havail hc]
        exact ha
  · rw [← hfixed]
    refine length_le_sum_count (Finset.range cluster.nodes.length)
      (fun n => (cluster.nodes[n]?).map NodeInfo.name) job.fixedNnameArr ?_
    intro cell hcell
    cases cell with
    | none => exact absurd hcell hcomplete
    | some name =>
        obtain ⟨n, node, hnode, hname, -⟩ := hknown name hcell
        refine ⟨n, Finset.mem_range.mpr (List.getElem?_eq_some_iff.mp hnode).1, ?_⟩
        rw [hnode, Option.map_some, hname]

/-- So the usable marks of the loop are those of the memory. -/
theorem avail_of_usable {wiped : Bool}
    (havail : slots.mapM (slotAvailability cluster job wiped) = .ok avail) {c : ℕ}
    {a : SlotAvailability} (ha : avail[c]? = some a) (husable : a.usable = true) :
    (slots.map (memoryMark job))[c]? = some a := by
  obtain ⟨slot, hslot, hcell⟩ := exists_of_mapM_getElem? havail ha
  rw [List.getElem?_map, hslot, Option.map_some, memoryMark_of_usable hcell husable]

/-- A placed job had slots in service for its chunks, with the memory and the scratch space; and
its nodes could give them, or a chunk started with a slot short of available memory. -/
theorem nodesGive_of_placeShared {placed : PlanJob} (hshared : job.jinfo.isExclusive = false)
    (husage : job.usage = job.reqPpn * job.reqNumNodes)
    (hninfo : job.ninfoArr.length = job.reqNumNodes)
    (hfixed : job.fixedNnameArr.length = job.reqNumNodes) (hcomplete : job.Complete)
    (hnames : (cluster.nodes.map NodeInfo.name).Nodup)
    (h : placeShared cluster job slots = .ok (some placed)) :
    NodesHave cluster job slots ∧
      (NodesGive cluster job slots ∨ StartsShort cluster slots job) := by
  obtain ⟨avail, -, havail, -⟩ := placeShared_ok h
  refine ⟨?_, ?_⟩
  · intro n hn
    have hnode := List.getElem?_eq_getElem hn
    have hgiven := placeShared_given hshared husage hninfo hfixed hcomplete hnames havail h hnode
    unfold PlanJob.chunksOn
    rw [hnode, Option.map_some]
    refine hgiven.trans (Finset.card_le_card ?_)
    intro c hc
    obtain ⟨hmem, husable⟩ := Finset.mem_filter.mp hc
    refine Finset.mem_filter.mpr ⟨hmem, ?_⟩
    cases ha : avail[c]? with
    | none =>
        rw [ha] at husable
        cases husable
    | some a =>
        rw [ha] at husable
        rw [avail_of_usable havail ha husable]
        exact husable
  · by_cases hstarts : StartsShort cluster slots job
    · exact Or.inr hstarts
    · refine Or.inl ?_
      intro n hn
      have hnode := List.getElem?_eq_getElem hn
      have hearned := placeShared_earned hshared husage hninfo hfixed hcomplete hnames havail
        hstarts h hnode
      unfold PlanJob.chunksOn
      rw [hnode, Option.map_some]
      exact hearned.mono (fun c _ a ha husable => avail_of_usable havail ha husable)

/-- Where the short slots are covered, a node gives single CPUs, or one chunk, if it has the slots
for them. -/
theorem ShortsCovered.canGive (h : ShortsCovered cluster job slots) (hfit : TimesFit slots) {n : ℕ}
    (hhave : job.chunksOn cluster n * job.reqPpn
      ≤ (usableSlots slots (slots.map (memoryMark job)) n).card)
    (hsimple : job.reqPpn = 1 ∨ job.chunksOn cluster n ≤ 1) :
    CanGive slots job (slots.map (memoryMark job)) n (job.chunksOn cluster n) := by
  rcases Nat.eq_zero_or_pos (job.chunksOn cluster n) with hzero | hpos
  · exact Or.inl hzero
  -- a usable slot is free, or free earlier than a free one
  have hcases : ∀ d ∈ usableSlots slots (slots.map (memoryMark job)) n,
      d ∈ freeSlots slots (slots.map (memoryMark job)) n ∨
        ((slots.map (memoryMark job))[d]? = some .notEnoughAvailableMem ∧
          ∃ e ∈ freeSlots slots (slots.map (memoryMark job)) n,
            slotTime slots d < slotTime slots e) := by
    intro d hd
    obtain ⟨hnode, husable⟩ := Finset.mem_filter.mp hd
    obtain ⟨slot, hslot, rfl⟩ := mem_nodeSlots.mp hnode
    have hmark : (slots.map (memoryMark job))[d]? = some (memoryMark job slot) := by
      rw [List.getElem?_map, hslot, Option.map_some]
    rw [hmark, Option.any_some] at husable
    rcases memoryMark_usable husable with hfree | hshort
    · exact Or.inl (Finset.mem_filter.mpr ⟨hnode, by rw [hmark, hfree]⟩)
    · obtain ⟨other, hother, hninfo, hfree, hlt⟩ :=
        h slot (List.mem_of_getElem? hslot) hpos hshort
      obtain ⟨e, he⟩ := List.getElem?_of_mem hother
      refine Or.inr ⟨by rw [hmark, hshort], e, ?_, ?_⟩
      · refine Finset.mem_filter.mpr ⟨mem_nodeSlots.mpr ⟨other, he, hninfo⟩, ?_⟩
        rw [List.getElem?_map, he, Option.map_some, hfree]
      · rwa [slotTime_of_getElem? hslot, slotTime_of_getElem? he]
  obtain ⟨l, hl, hall⟩ :
      ∃ l ∈ freeSlots slots (slots.map (memoryMark job)) n,
        ∀ d ∈ freeSlots slots (slots.map (memoryMark job)) n, UpTo slots l d := by
    refine exists_upTo_all slots ?_
    obtain ⟨d, hd⟩ := Finset.card_pos.mp ((Nat.mul_pos hpos job.reqPpn_pos).trans_le hhave)
    rcases hcases d hd with hfree | ⟨-, e, he, -⟩
    · exact ⟨d, hfree⟩
    · exact ⟨e, he⟩
  -- so all usable slots come before the last free one
  have hroom : job.chunksOn cluster n * job.reqPpn
      ≤ (slotsBefore slots (slots.map (memoryMark job)) l n).card := by
    refine hhave.trans (Finset.card_le_card ?_)
    intro d hd
    have hnode := (Finset.mem_filter.mp hd).1
    rcases hcases d hd with hfree | ⟨hshort, e, he, hlt⟩
    · exact Finset.mem_filter.mpr
        ⟨hnode, hall d hfree, Or.inl (Finset.mem_filter.mp hfree).2⟩
    · exact Finset.mem_filter.mpr ⟨hnode, (hall e he).of_sooner (hfit.sooner hlt),
        Or.inr ⟨hfit, hshort, hlt.trans_le ((hall e he).slotTime_le hfit)⟩⟩
  rcases hsimple with hppn | hone
  · rw [hppn, Nat.mul_one] at hroom
    exact Or.inr (Or.inr ⟨hppn, hfit, l, hl, hroom⟩)
  · have hk : job.chunksOn cluster n = 1 := le_antisymm hone hpos
    rw [hk] at hroom ⊢
    exact Or.inr (Or.inl ⟨l, hl, hl, hroom, Or.inl rfl⟩)

/-- A slot of a node the job is not fixed to is prohibited. -/
theorem fixed_of_usable (hshared : job.jinfo.isExclusive = false) {slot : FirstFreeSlot}
    {a : SlotAvailability} (h : slotAvailability cluster job false slot = .ok a)
    (husable : a.usable = true) : 0 < job.chunksOn cluster slot.ninfo := by
  have hrefused : ∀ {b : SlotAvailability}, b.usable = false →
      (pure b : Run SlotAvailability) = .ok a → False := by
    intro b hb heq
    rw [← pure_ok.mp heq, hb] at husable
    cases husable
  unfold slotAvailability at h
  split at h
  · exact (hrefused rfl h).elim
  obtain ⟨node, hnode, h⟩ := bind_ok.mp h
  iterate 4
    split at h
    · exact (hrefused rfl h).elim
  split at h
  · exact (hrefused rfl h).elim
  next hfixed =>
    rw [getAt_ok] at hnode
    unfold PlanJob.chunksOn
    rw [hnode, Option.map_some, List.count_pos_iff]
    simpa [hshared] using hfixed

/-- If no slot of its nodes is short of available memory, none is for the loop. -/
theorem NoneShort.not_startsShort (h : NoneShort cluster job slots)
    (hshared : job.jinfo.isExclusive = false) (hcomplete : job.Complete) :
    ¬ StartsShort cluster slots job := by
  intro hstarts
  obtain ⟨avail, havail, -⟩ := id hstarts
  refine not_startsShort_of_ample havail ?_ hstarts
  rintro a ha rfl
  obtain ⟨c, hc⟩ := List.getElem?_of_mem ha
  obtain ⟨slot, hslot, hcell⟩ := exists_of_mapM_getElem? havail hc
  rw [wipeFixedNodes_of_complete hcomplete] at hcell
  exact h slot (List.mem_of_getElem? hslot) (fixed_of_usable hshared hcell rfl)
    (memoryMark_of_usable hcell rfl)

/-- Where the short slots do not matter, the nodes can give what they have. -/
theorem ShortsSettled.nodesGive {numRunningCpus : ℤ} (h : ShortsSettled cluster job slots)
    (hshared : job.jinfo.isExclusive = false) (husage : job.usage = job.reqPpn * job.reqNumNodes)
    (hcomplete : job.Complete) (hhave : NodesHave cluster job slots)
    (hgive : NodesGive cluster job slots ∨
      StartsShort { cluster with numRunningCpus := numRunningCpus } slots job) :
    NodesGive cluster job slots := by
  rcases h with hnone | ⟨hfit, hone | ⟨hcovered, hsimple⟩⟩
  · have hnone' : NoneShort { cluster with numRunningCpus := numRunningCpus } job slots := hnone
    exact hgive.resolve_right (hnone'.not_startsShort hshared hcomplete)
  · exact hgive.resolve_right (not_startsShort_of_single husage hone hfit)
  · intro n hn
    exact hcovered.canGive hfit (hhave n hn) (hsimple.imp_right (fun hall => hall n hn))

end Fits

/-! ## From the gap to the slot table -/

/-- The job as it stands in the list after `job_put_in_gap`: fixed to the nodes, starting with
the gap, and with any priority. -/
def PlanJob.entered (job : PlanJob) (names : List String) (gap : PlanGap) (priority : ℤ) :
    PlanJob :=
  ({ job with fixedNnameArr := names.map some }.startAt gap.startTime).setPriority priority

/-- The second loop of `update_sched` changes the priority of an entered job. -/
theorem entered_afterMove (job : PlanJob) (names : List String) (gap : PlanGap) (priority : ℤ) :
    ∃ priority', (job.entered names gap priority).afterMove = job.entered names gap priority' := by
  rcases afterMove_eq (job.entered names gap priority) with heq | ⟨priority', heq⟩
  · exact ⟨priority, heq⟩
  · exact ⟨priority', heq⟩

/-- A job that was promised a place is fixed to nodes that accept it. -/
theorem GapPromise.accepts {cluster : PlanCluster} {job : PlanJob} {gap : PlanGap}
    {names : List String} (h : GapPromise cluster job gap names) (priority : ℤ) (name : String)
    (hname : some name ∈ (job.entered names gap priority).fixedNnameArr) :
    ∃ (n : ℕ) (node : NodeInfo), cluster.nodes[n]? = some node ∧ node.name = name ∧
      NodeAccepts (job.entered names gap priority) node := by
  have hmem : name ∈ names := by simpa [PlanJob.entered, PlanJob.setPriority, PlanJob.startAt]
    using hname
  obtain ⟨m, -, node, hoffers⟩ := h.offered name hmem
  have haccepted := hoffers.accepted
  unfold nodeRefused at haccepted
  simp only [Bool.or_eq_false_iff, Bool.and_eq_false_iff, decide_eq_false_iff_not] at haccepted
  obtain ⟨⟨⟨⟨⟨⟨-, hwindow⟩, -⟩, -⟩, -⟩, hmin⟩, hmax⟩ := haccepted
  refine ⟨m.ninfo, node, hoffers.node_eq, hoffers.name_eq, ?_, ?_, ?_, ?_⟩
  · rintro ⟨hset, hbefore⟩
    exact hwindow.elim (fun hnot => hnot hset) (fun hnot => hnot hbefore)
  · rintro ⟨hset, hshort⟩
    exact hmin.elim (fun hnot => hnot hset) (fun hnot => hnot hshort)
  · rintro ⟨hset, hlong⟩
    exact hmax.elim (fun hnot => hnot hset) (fun hnot => hnot hlong)
  · rw [show lacksGpu (job.entered names gap priority) node = lacksGpu job node from rfl,
      hoffers.gpu]
    exact Bool.false_ne_true

/-! ## The turn of the job -/

section Turns

variable {conf : LimitsForClusters} {cluster : PlanCluster} {values : LimitsValues}

/-- The table has its layout whenever the loop comes to a job. -/
theorem ComesTo.laid {jobs rest : List PlanJob} {job : PlanJob} {st st' : Planning}
    (h : ComesTo conf cluster values jobs st job rest st') (hlaid : Laid cluster st.slots) :
    Laid cluster st'.slots := by
  refine @ComesTo.invariant _ _ _ (fun s => Laid cluster s.slots) ?_ ?_ _ _ _ _ _ h hlaid
  · rintro rest s job update s' ⟨k, place, hlayout, hplace⟩ hplanned
    refine ⟨k, place, ?_, hplace⟩
    rw [hplanned.slots_eq, updateJob_layout hplanned.update_ok, hlayout]
  · intro s job s' hinv hpassed
    rw [hpassed.slots_eq]
    exact hinv

/-- A job the loop has come past is in the list with its address. -/
theorem planJob_done_ptr {rest : List PlanJob} {st st' : Planning} {job : PlanJob}
    (h : planJob conf cluster values rest st job = .ok (some st')) :
    st'.done.map PlanJob.ptr = st.done.map PlanJob.ptr ++ [job.ptr] := by
  have hmove : job.afterMove.ptr = job.ptr := by
    rcases afterMove_eq job with heq | ⟨priority, heq⟩
    · rw [heq]
    · rw [heq]
      rfl
  rcases planJob_cases h with ⟨hqueued, update, hplan⟩ | ⟨-, hpass⟩
  · rw [hplan.done_eq, List.map_append, List.map_singleton,
      (updateJob_keeps hqueued hplan.update_ok).ptr_eq, hmove]
  · rw [hpass.done_eq, List.map_append, List.map_singleton, hmove]

/-- The jobs in the list when the loop ends. -/
def PlanningEnd.jobs : PlanningEnd → List PlanJob
  | .complete st => st.done
  | .failed st behind => st.done ++ behind

/-- A job that is not refused at its turn is in the list at the end. -/
theorem planJobs_mem (jobs : List PlanJob) : ∀ {st : Planning} {ending : PlanningEnd} {ptr : ℕ},
    planJobs conf cluster values jobs st = .ok ending →
    (ptr ∈ st.done.map PlanJob.ptr ∨ ∃ job ∈ jobs, job.ptr = ptr ∧
      ∀ rest st', ComesTo conf cluster values jobs st job rest st' →
        planJob conf cluster values rest st' job ≠ .ok none) →
    ptr ∈ ending.jobs.map PlanJob.ptr := by
  induction jobs with
  | nil =>
      intro st ending ptr h hptr
      rw [planJobs] at h
      cases h
      rcases hptr with hdone | ⟨job, hjob, -⟩
      · exact hdone
      · cases hjob
  | cons first rest ih =>
      intro st ending ptr h hptr
      rw [planJobs] at h
      obtain ⟨next, hnext, h⟩ := bind_ok.mp h
      cases next with
      | none =>
          cases pure_ok.mp h
          show ptr ∈ (st.done ++ rest).map PlanJob.ptr
          rw [List.map_append]
          rcases hptr with hdone | ⟨job, hjob, hjobptr, hnot⟩
          · exact List.mem_append_left _ hdone
          · rcases List.mem_cons.mp hjob with rfl | hjob
            · exact absurd hnext (hnot rest st (ComesTo.here job rest st))
            · exact List.mem_append_right _ (hjobptr ▸ List.mem_map_of_mem hjob)
      | some st₁ =>
          have hdone₁ := planJob_done_ptr hnext
          refine ih h ?_
          rcases hptr with hdone | ⟨job, hjob, hjobptr, hnot⟩
          · exact Or.inl (hdone₁ ▸ List.mem_append_left _ hdone)
          · rcases List.mem_cons.mp hjob with rfl | hjob
            · exact Or.inl (by simp [hdone₁, hjobptr])
            · exact Or.inr ⟨job, hjob, hjobptr, fun rest' st' hcomes =>
                hnot rest' st' (ComesTo.behind hnext hcomes)⟩

/-- A job that is in the list at the end was not refused at its turn. -/
theorem ComesTo.not_refused {jobs rest : List PlanJob} {job : PlanJob} {st s : Planning}
    {ending : PlanningEnd} (hcomes : ComesTo conf cluster values jobs st job rest s)
    (h : planJobs conf cluster values jobs st = .ok ending)
    (hnodup : (st.done.map PlanJob.ptr ++ jobs.map PlanJob.ptr).Nodup)
    (hptr : job.ptr ∈ ending.jobs.map PlanJob.ptr) :
    ∃ s', planJob conf cluster values rest s job = .ok (some s') := by
  induction hcomes with
  | here job rest st =>
      rw [planJobs] at h
      obtain ⟨next, hnext, h⟩ := bind_ok.mp h
      cases next with
      | some st₁ => exact ⟨st₁, hnext⟩
      | none =>
          -- the jobs before and behind it have other addresses
          cases pure_ok.mp h
          have hmem : job.ptr ∈ (st.done ++ rest).map PlanJob.ptr := hptr
          rw [List.map_cons, List.nodup_middle, List.nodup_cons, ← List.map_append] at hnodup
          exact absurd hmem hnodup.1
  | @behind first job jobs rest st st₁ st' hfirst hcomes ih =>
      rw [planJobs, hfirst] at h
      refine ih h ?_ hptr
      rw [planJob_done_ptr hfirst, List.append_assoc]
      exact hnodup

/-- A job that was not refused at its turn had slots for its chunks; and its nodes could give
them, or a chunk started with a slot short of available memory. -/
theorem nodesGive_of_planJob {rest : List PlanJob} {st st' : Planning} {job moved : PlanJob}
    (h : planJob conf cluster values rest st job = .ok (some st')) (hmoved : job.afterMove = moved)
    (hqueued : moved.isQueued = true) (hshared : moved.jinfo.isExclusive = false)
    (husage : moved.usage = moved.reqPpn * moved.reqNumNodes)
    (hninfo : moved.ninfoArr.length = moved.reqNumNodes)
    (hfixed : moved.fixedNnameArr.length = moved.reqNumNodes) (hcomplete : moved.Complete)
    (hnames : (cluster.nodes.map NodeInfo.name).Nodup) : NodesHave cluster moved st.slots ∧
      (NodesGive cluster moved st.slots ∨ StartsShort cluster st.slots moved) := by
  rcases planJob_cases h with ⟨-, update, hplan⟩ | ⟨hnot, -⟩
  · have hupdate := hplan.update_ok
    rw [hmoved, updateJob_shared hshared] at hupdate
    obtain ⟨placed, hplaced, -⟩ := updateSharedJob_call hupdate
    exact nodesGive_of_placeShared hshared husage hninfo hfixed hcomplete hnames hplaced
  · rw [hmoved, hqueued] at hnot
    cases hnot

/-- A job that finds its CPUs is not refused. -/
theorem planJob_ne_none {rest : List PlanJob} {st : Planning} {job : PlanJob}
    (hshared : job.afterMove.jinfo.isExclusive = false)
    (hplace : placeShared cluster job.afterMove st.slots ≠ .ok none) :
    planJob conf cluster values rest st job ≠ .ok none := by
  intro h
  unfold planJob at h
  dsimp only at h
  split at h
  · unfold planQueued at h
    obtain ⟨updated, hupdated, h⟩ := bind_ok.mp h
    cases updated with
    | none =>
        unfold updateJob updateSharedJob at hupdated
        rw [if_neg (by simp [hshared])] at hupdated
        obtain ⟨placed, hplaced, hupdated⟩ := bind_ok.mp hupdated
        cases placed with
        | none => exact hplace hplaced
        | some placed =>
            obtain ⟨job', -, hupdated⟩ := bind_ok.mp hupdated
            obtain ⟨gaps, -, hupdated⟩ := bind_ok.mp hupdated
            obtain ⟨slots, -, hupdated⟩ := bind_ok.mp hupdated
            cases pure_ok.mp hupdated
    | some update =>
        obtain ⟨limits, -, h⟩ := bind_ok.mp h
        obtain ⟨gaps, -, h⟩ := bind_ok.mp h
        cases pure_ok.mp h
  · split at h
    · obtain ⟨limits, -, h⟩ := bind_ok.mp h
      cases pure_ok.mp h
    · cases pure_ok.mp h

end Turns

/-! ## Accepted jobs are planned -/

/-- `list_add_infrontof` enters the job. -/
theorem mem_addInFrontOf {ptr : ℕ} {job : PlanJob} (jobs : List PlanJob) :
    ∀ {jobs' : List PlanJob}, addInFrontOf jobs ptr job = .ok jobs' → job ∈ jobs' := by
  induction jobs with
  | nil =>
      intro jobs' h
      rw [addInFrontOf] at h
      cases h
  | cons first rest ih =>
      intro jobs' h
      rw [addInFrontOf] at h
      split at h
      · cases h
        exact List.mem_cons_self
      · obtain ⟨rest', hrest', h⟩ := bind_ok.mp h
        rw [← pure_ok.mp h]
        exact List.mem_cons_of_mem _ (ih hrest')

/-- `job_put_in_gap` enters a job whose chunks the gap has CPUs for. -/
theorem mem_jobPutInGap {jobs jobs' : List PlanJob} {job : PlanJob} {gap : PlanGap}
    (h : jobPutInGap jobs job gap = .ok jobs') (husage : (job.reqPpn : ℤ) ≤ gap.usage) :
    job.startAt gap.startTime ∈ jobs' := by
  unfold jobPutInGap at h
  rw [if_neg (not_lt.mpr husage)] at h
  split at h
  · cases h
    simp
  · exact mem_addInFrontOf jobs h

/-- A job of the list is in the moved list, with some priority. -/
theorem mem_moved {time : ℤ} {fuel : ℕ} {jobs moved : List PlanJob} {job : PlanJob}
    (hjob : job ∈ jobs) (h : movePreferred time fuel [] jobs = .ok moved) :
    ∃ priority, job.setPriority priority ∈ moved := by
  have hperm := @movePreferred_perm _ (fun job => job.setPriority 0) time (fun _ _ => rfl) fuel
    _ _ _ h
  rw [List.nil_append] at hperm
  obtain ⟨job', hjob', heq⟩ := List.mem_map.mp (hperm.mem_iff.mpr (List.mem_map_of_mem hjob))
  refine ⟨job'.jinfo.priority, ?_⟩
  have hsame : job.setPriority job'.jinfo.priority = job' :=
    (congrArg (fun j => PlanJob.setPriority j job'.jinfo.priority) heq).symm
  rw [hsame]
  exact hjob'

/-- A job of the moved list that has the address of a job of the list is that job, with some
priority. -/
theorem eq_of_mem_moved {time : ℤ} {fuel : ℕ} {jobs moved : List PlanJob} {job job' : PlanJob}
    (hnodup : (jobs.map PlanJob.ptr).Nodup) (hjob : job ∈ jobs)
    (h : movePreferred time fuel [] jobs = .ok moved) (hjob' : job' ∈ moved)
    (hptr : job'.ptr = job.ptr) : ∃ priority, job' = job.setPriority priority := by
  have hperm := @movePreferred_perm _ (fun job => job.setPriority 0) time (fun _ _ => rfl) fuel
    _ _ _ h
  rw [List.nil_append] at hperm
  obtain ⟨other, hother, heq⟩ := List.mem_map.mp (hperm.mem_iff.mp (List.mem_map_of_mem hjob'))
  have hsame : other.ptr = job.ptr := (congrArg PlanJob.ptr heq).trans hptr
  obtain rfl := List.inj_on_of_nodup_map hnodup hother hjob hsame
  exact ⟨job'.jinfo.priority,
    (congrArg (fun j => PlanJob.setPriority j job'.jinfo.priority) heq).symm⟩

/-- A call of `update_sched` up to its last part. -/
theorem updateSched_ending {conf : LimitsForClusters} {time : ℤ} {values : LimitsValues}
    {plan : ClusterPlan} {result : SchedUpdate}
    (h : updateSched conf time values plan = .ok result) :
    ∃ slots values' moved ending, initialSlots plan.cluster time = .ok slots ∧
      updateLimitsValues conf { plan.cluster with numRunningCpus := runningCpus plan.cluster }
        values = .ok values' ∧
      movePreferred time (plan.jobs.length + 1) [] plan.jobs = .ok moved ∧
      planJobs conf { plan.cluster with numRunningCpus := runningCpus plan.cluster } values' moved
        ⟨[], slots, [], [], time, 0⟩ = .ok ending ∧ result.plan.jobs = ending.jobs := by
  unfold updateSched at h
  obtain ⟨slots, hslots, h⟩ := bind_ok.mp h
  obtain ⟨values', hvalues, h⟩ := bind_ok.mp h
  obtain ⟨moved, hmoved, h⟩ := bind_ok.mp h
  obtain ⟨ending, hending, h⟩ := bind_ok.mp h
  refine ⟨slots, values', moved, ending, hslots, hvalues, hmoved, hending, ?_⟩
  cases ending with
  | failed st behind =>
      rw [← pure_ok.mp h]
      rfl
  | complete st =>
      obtain ⟨gaps, -, h⟩ := bind_ok.mp h
      rw [← pure_ok.mp h]
      rfl

/-- A job that was promised a place at the gap, fixed to the nodes `names`, is entered into the
list of the plan. -/
structure EnteredJob (plan : ClusterPlan) (job : PlanJob) (names : List String) (gap : PlanGap) :
    Prop where
  shared : job.jinfo.isExclusive = false
  usage_eq : job.usage = job.reqPpn * job.reqNumNodes
  ninfo_length : job.ninfoArr.length = job.reqNumNodes
  names_nodup : (plan.cluster.nodes.map NodeInfo.name).Nodup
  promise : GapPromise plan.cluster job gap names
  mem : job.entered names gap job.jinfo.priority ∈ plan.jobs

section Call

variable {conf : LimitsForClusters} {time : ℤ} {values : LimitsValues} {plan : ClusterPlan}
  {result : SchedUpdate} {job : PlanJob} {names : List String} {gap : PlanGap}

/-- It has a cell for each chunk. -/
theorem EnteredJob.fixed_length (h : EnteredJob plan job names gap) :
    (names.map some).length = job.reqNumNodes := by
  rw [List.length_map, h.promise.length_eq]

/-- And all of them are filled. -/
theorem EnteredJob.complete (_h : EnteredJob plan job names gap) : none ∉ names.map some := by
  simp

/-- The call keeps it if its nodes can give its chunks. -/
theorem EnteredJob.planned (h : EnteredJob plan job names gap)
    (hnext : updateSched conf time values plan = .ok result)
    (hgive : AtTurn conf time values plan job.ptr (NodesGive plan.cluster)) :
    ∃ job' ∈ result.plan.jobs, job'.ptr = job.ptr := by
  obtain ⟨slots, values', moved, ending, hslots, hvalues, hmoved, hending, hjobs⟩ :=
    updateSched_ending hnext
  obtain ⟨priority, hmem⟩ := mem_moved h.mem hmoved
  have hptr : job.ptr ∈ ending.jobs.map PlanJob.ptr := by
    refine planJobs_mem moved hending (Or.inr ⟨_, hmem, rfl, ?_⟩)
    intro rest st hcomes
    -- at its turn the job is the one that was entered, with some priority
    obtain ⟨priority', hturn⟩ := entered_afterMove job names gap priority
    refine @planJob_ne_none _ _ _ rest st (job.entered names gap priority)
      (by rw [hturn]; exact h.shared) ?_
    have hready := hgive _ rest st ⟨slots, values', moved, hslots, hvalues, hmoved, hcomes⟩ rfl
    replace hready : NodesGive plan.cluster (job.entered names gap priority).afterMove
      st.slots := hready
    rw [hturn] at hready ⊢
    exact placeShared_of_nodesGive h.usage_eq h.fixed_length h.complete h.names_nodup
      (hcomes.laid (initialSlots_laid hslots)) (h.promise.accepts priority') hready
  rw [hjobs]
  exact List.mem_map.mp hptr

/-- The job that the loop comes to with its address is this one, with some priority. -/
theorem EnteredJob.turn_eq (h : EnteredJob plan job names gap)
    (hnodup : (plan.jobs.map PlanJob.ptr).Nodup) {job₂ : PlanJob} {rest : List PlanJob}
    {st : Planning} (hturn : Turn conf time values plan job₂ rest st)
    (hptr : job₂.ptr = job.ptr) : ∃ priority, job₂.afterMove = job.entered names gap priority := by
  obtain ⟨slots, values', moved, hslots, hvalues, hmoved, hcomes⟩ := hturn
  obtain ⟨priority, hjob₂⟩ := eq_of_mem_moved hnodup h.mem hmoved hcomes.mem hptr
  replace hjob₂ : job₂ = job.entered names gap priority := hjob₂
  rw [hjob₂]
  exact entered_afterMove job names gap priority

/-- If the call keeps it, its nodes had slots for its chunks; and they could give them, or a
chunk started with a slot short of available memory. -/
theorem EnteredJob.gave (h : EnteredJob plan job names gap)
    (hnext : updateSched conf time values plan = .ok result) (hqueued : job.isQueued = true)
    (hnodup : (plan.jobs.map PlanJob.ptr).Nodup)
    (hstays : ∃ job' ∈ result.plan.jobs, job'.ptr = job.ptr) :
    AtTurn conf time values plan job.ptr (fun job slots =>
      NodesHave plan.cluster job slots ∧ (NodesGive plan.cluster job slots ∨
        StartsShort { plan.cluster with numRunningCpus := runningCpus plan.cluster } slots
          job)) := by
  intro job₂ rest st hcome hptr
  obtain ⟨priority, hturn⟩ := h.turn_eq hnodup hcome hptr
  obtain ⟨slots, values', moved, ending, hslots, hvalues, hmoved, hending, hjobs⟩ :=
    updateSched_ending hnext
  obtain ⟨slots', values'', moved', hslots', hvalues', hmoved', hcomes⟩ := hcome
  cases hslots.symm.trans hslots'
  cases hvalues.symm.trans hvalues'
  cases hmoved.symm.trans hmoved'
  have hmovedNodup : (moved.map PlanJob.ptr).Nodup :=
    (movePreferred_perm (fun _ _ => rfl) _ hmoved).nodup_iff.mpr hnodup
  obtain ⟨job', hjob', heq⟩ := hstays
  rw [hjobs] at hjob'
  have hmem : job₂.ptr ∈ ending.jobs.map PlanJob.ptr :=
    hptr ▸ heq ▸ List.mem_map_of_mem hjob'
  obtain ⟨st', hstep⟩ := hcomes.not_refused hending hmovedNodup hmem
  rw [hturn]
  exact nodesGive_of_planJob hstep hturn hqueued h.shared h.usage_eq h.ninfo_length h.fixed_length
    h.complete h.names_nodup

end Call

/-- A job that `find_first_gap` accepted on the plan of a call of `update_sched` that returned
0, and that `job_put_in_gap` entered, is still in the list after the next call, if the nodes it
is fixed to can give its chunks when the call comes to it.  If it is, these nodes have the
slots for them, and they can give them unless a chunk of the job starts with a slot short of
available memory.  The condition is exact where such slots do not matter. -/
theorem accepted_job_planned_iff {conf : LimitsForClusters} {time : ℤ}
    {values₀ values₁ : LimitsValues} {plan₀ : ClusterPlan} {result₀ result : SchedUpdate}
    {job job₁ : PlanJob} {gap : PlanGap} {jobs : List PlanJob}
    (hplan₀ : updateSched conf time values₀ plan₀ = .ok result₀) (hcode : result₀.code = 0)
    (hshared : job.jinfo.isExclusive = false) (husage : job.usage = job.reqPpn * job.reqNumNodes)
    (hninfo : job.ninfoArr.length = job.reqNumNodes)
    (hcells : job.fixedNnameArr.length = job.reqNumNodes)
    (hgap : findFirstGap conf result₀.values result₀.plan job true = .ok (some gap, job₁, values₁))
    (hput : jobPutInGap result₀.plan.jobs job₁ gap = .ok jobs)
    (hnames : (result₀.plan.cluster.nodes.map NodeInfo.name).Nodup)
    (hnext : updateSched conf time values₁ { result₀.plan with jobs := jobs } = .ok result) :
    (AtTurn conf time values₁ { result₀.plan with jobs := jobs } job.ptr
        (NodesGive result₀.plan.cluster) →
      ∃ job' ∈ result.plan.jobs, job'.ptr = job.ptr) ∧
    (job.isQueued = true → (jobs.map PlanJob.ptr).Nodup →
      ((∃ job' ∈ result.plan.jobs, job'.ptr = job.ptr) →
        AtTurn conf time values₁ { result₀.plan with jobs := jobs } job.ptr (fun job slots =>
          NodesHave result₀.plan.cluster job slots ∧
            (NodesGive result₀.plan.cluster job slots ∨
              StartsShort { result₀.plan.cluster with
                numRunningCpus := runningCpus result₀.plan.cluster } slots job))) ∧
      (AtTurn conf time values₁ { result₀.plan with jobs := jobs } job.ptr
          (ShortsSettled result₀.plan.cluster) →
        ((∃ job' ∈ result.plan.jobs, job'.ptr = job.ptr) ↔
          AtTurn conf time values₁ { result₀.plan with jobs := jobs } job.ptr
            (NodesGive result₀.plan.cluster)))) := by
  obtain ⟨-, hle, names, rfl, hpromise⟩ :=
    findFirstGap_promise hnames (updateSched_nodesOnce hplan₀ hcode) hcells hgap
  -- the gap has CPUs for a chunk, so the job is entered
  have hppn : (job.reqPpn : ℤ) ≤ gap.usage := by
    have hone := Nat.le_mul_of_pos_right job.reqPpn job.reqNumNodes_pos
    rw [← husage] at hone
    omega
  have hentered : EnteredJob { result₀.plan with jobs := jobs } job names gap :=
    ⟨hshared, husage, hninfo, hnames, hpromise, mem_jobPutInGap hput hppn⟩
  refine ⟨hentered.planned hnext, ?_⟩
  intro hqueued hnodup
  refine ⟨hentered.gave hnext hqueued hnodup, ?_⟩
  intro hsettled
  refine ⟨?_, hentered.planned hnext⟩
  intro hstays job₂ rest st hcome hptr
  obtain ⟨hhave, hgive⟩ := hentered.gave hnext hqueued hnodup hstays job₂ rest st hcome hptr
  have hplain := hsettled job₂ rest st hcome hptr
  obtain ⟨priority, hturn⟩ := hentered.turn_eq hnodup hcome hptr
  rw [hturn] at hplain hhave hgive ⊢
  exact hplain.nodesGive hshared husage hentered.complete hhave hgive

/-- A node with one core that is busy until 5000 and leaves little memory until then, beside a
node with one core. -/
def busyPlan : ClusterPlan where
  cluster := ⟨"zubat", [{ plainNode "zubat1" 2 8 with jobsOnCpu := some [none, some { runningJob
    900 4100 with resreq := [⟨"walltime", 4100⟩, ⟨"mem", 6⟩, ⟨"procs", 1⟩] }] },
    plainNode "zubat2" 1 8], 3, 0, 0⟩
  jobs := [PlanJob.filled 1 (runningJob 900 4100) 1 1 Nat.one_pos 6 4100 0 900]
  gaps := []
  limits := []

/-- A job of two chunks is accepted at 5000 and placed then, although the idle CPU of the first
node is short of memory. -/
theorem accepted_job_planned_busy :
    ∃ result₀ gap job₁ values₁ jobs result,
      updateSched oneClass 1000 ⟨[], []⟩ busyPlan = .ok result₀ ∧
      findFirstGap oneClass result₀.values result₀.plan (queuedJob 2 2 2 Nat.two_pos 10 600) true
        = .ok (some gap, job₁, values₁) ∧
      jobPutInGap result₀.plan.jobs job₁ gap = .ok jobs ∧
      updateSched oneClass 1000 values₁ { result₀.plan with jobs := jobs } = .ok result ∧
      result.plan.jobs.map (fun job => (job.ptr, job.startTime)) = [(1, 900), (2, 5000)] ∧
      ∃ job' ∈ result.plan.jobs, job'.ptr = 2 := by
  have hrun : (do
      let first ← updateSched oneClass 1000 ⟨[], []⟩ busyPlan
      let found ← findFirstGap oneClass first.values first.plan (queuedJob 2 2 2 Nat.two_pos 10 600)
        true
      let gap ← deref found.1
      let jobs ← jobPutInGap first.plan.jobs found.2.1 gap
      let next ← updateSched oneClass 1000 found.2.2 { first.plan with jobs := jobs }
      let tested ← testTurns oneClass 1000 found.2.2 { first.plan with jobs := jobs }
        (fun st job => decide (job.ptr = 2 →
          NodesGive first.plan.cluster job.afterMove st.slots))
      return (first.code, decide (first.plan.cluster.nodes.map NodeInfo.name).Nodup,
        next.plan.jobs.map (fun job => (job.ptr, job.startTime)), tested) : Run _)
      = .ok (0, true, [(1, 900), (2, 5000)], true) := by
    decide +kernel
  obtain ⟨result₀, hresult₀, hrun⟩ := bind_ok.mp hrun
  obtain ⟨⟨found, job₁, values₁⟩, hfound, hrun⟩ := bind_ok.mp hrun
  obtain ⟨gap, hgap, hrun⟩ := bind_ok.mp hrun
  rw [deref_ok] at hgap
  dsimp only at hgap
  subst hgap
  obtain ⟨jobs, hjobs, hrun⟩ := bind_ok.mp hrun
  obtain ⟨result, hresult, hrun⟩ := bind_ok.mp hrun
  obtain ⟨tested, htested, hrun⟩ := bind_ok.mp hrun
  obtain ⟨hcode, hrest⟩ := Prod.mk.inj (pure_ok.mp hrun)
  obtain ⟨hnames, hrest⟩ := Prod.mk.inj hrest
  obtain ⟨hplan, rfl⟩ := Prod.mk.inj hrest
  refine ⟨result₀, gap, job₁, values₁, jobs, result, hresult₀, hfound, hjobs, hresult, hplan, ?_⟩
  refine (accepted_job_planned_iff hresult₀ hcode rfl rfl rfl rfl hfound hjobs
    (of_decide_eq_true hnames) hresult).1 ?_
  intro job rest st hturn hptr
  exact of_decide_eq_true (hturn.tested htested) hptr

/-- A node with one core and no job in the plan. -/
def idlePlan (scratchLocal : Option ℤ) : ClusterPlan where
  cluster := ⟨"zubat", [{ plainNode "zubat1" 1 8 with scratchLocal := scratchLocal }], 1, 0, 0⟩
  jobs := []
  gaps := []
  limits := []

/-- A job that needs one CPU for ten minutes, and no scratch space. -/
def newJob : PlanJob := queuedJob 1 1 1 Nat.one_pos 1 600

/-- On a node without the resource the job is accepted, since `-1` counts as no limit for
the gap, and removed, since `0` is more than `-1` for the slot. -/
theorem accepted_job_removed :
    ∃ result₀ gap job₁ values₁ jobs result,
      updateSched oneClass 1000 ⟨[], []⟩ (idlePlan none) = .ok result₀ ∧ result₀.code = 0 ∧
      newJob.jinfo.isExclusive = false ∧ newJob.usage = newJob.reqPpn * newJob.reqNumNodes ∧
      findFirstGap oneClass result₀.values result₀.plan newJob true
        = .ok (some gap, job₁, values₁) ∧
      jobPutInGap result₀.plan.jobs job₁ gap = .ok jobs ∧
      updateSched oneClass 1000 values₁ { result₀.plan with jobs := jobs } = .ok result ∧
      ¬ ∃ job' ∈ result.plan.jobs, job'.ptr = newJob.ptr := by
  have hrun : (do
      let first ← updateSched oneClass 1000 ⟨[], []⟩ (idlePlan none)
      let found ← findFirstGap oneClass first.values first.plan newJob true
      let gap ← deref found.1
      let jobs ← jobPutInGap first.plan.jobs found.2.1 gap
      let next ← updateSched oneClass 1000 found.2.2 { first.plan with jobs := jobs }
      return (first.code, next.plan.jobs) : Run _) = .ok (0, []) := by
    decide +kernel
  obtain ⟨result₀, hresult₀, hrun⟩ := bind_ok.mp hrun
  obtain ⟨⟨found, job₁, values₁⟩, hfound, hrun⟩ := bind_ok.mp hrun
  obtain ⟨gap, hgap, hrun⟩ := bind_ok.mp hrun
  rw [deref_ok] at hgap
  dsimp only at hgap
  subst hgap
  obtain ⟨jobs, hjobs, hrun⟩ := bind_ok.mp hrun
  obtain ⟨result, hresult, hrun⟩ := bind_ok.mp hrun
  obtain ⟨hcode, hempty⟩ := Prod.mk.inj (pure_ok.mp hrun)
  refine ⟨result₀, gap, job₁, values₁, jobs, result, hresult₀, hcode, rfl, rfl, hfound, hjobs,
    hresult, ?_⟩
  rw [hempty]
  simp

end PlanSched
