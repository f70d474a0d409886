/-
# A job that is fixed to nodes

A job that `find_first_gap` has put into a gap carries the names of its nodes in
`fixed_nname_arr`, a node once for each of its chunks.  `update_job` only offers slots of
these nodes, takes a cell of the name out with every complete chunk and forbids the rest of
the node with the last one.

The invariant is a balance: for every name, the cells that are still free and the complete
chunks on the node of that name are together as many as the cells with the name, and a slot
that may be chosen is one of a node that is still wanted.

* `selectCpus_returns`: the loop stays within its arrays;
* `updateJob_pinned`: the nodes of the job it places are the fixed ones, each as often as it
  is named.
-/
import PlanSched.ChosenCpus
import PlanSched.Rollback

namespace PlanSched

open CheckedRun

/-! ## The loop returns -/

section Loop

variable {cluster : PlanCluster} {slots : List FirstFreeSlot} {job : PlanJob} {wiped : Bool}
  {sel sel' : Selection}

/-- Entering a CPU remembers one for the node. -/
theorem nodeLatest_isSome (slots : List FirstFreeSlot) (job : PlanJob) (sel : Selection)
    (c n : ℕ) : ∃ latest, (enterCpu slots (considerNode job sel c n) c).nodeLatest
      = some latest := by
  rw [(latest_enterCpu slots job sel c n).1]
  unfold laterCpu
  split
  · exact ⟨c, rfl⟩
  · split
    · exact ⟨c, rfl⟩
    · exact ⟨_, rfl⟩

/-- A pass of the loop returns if the chunks hold all CPUs the job uses. -/
theorem takeCpu_returns (hnodes : OnNodes cluster slots) (hinv : SelectionInv slots job sel)
    (hfits : job.usage ≤ job.reqPpn * job.reqNumNodes) (hlt : sel.cpuIndexes.length < job.usage)
    {c : ℕ} (hc : ithSmallest slots sel = some c) :
    ∃ sel', takeCpu cluster slots job wiped sel c = .ok sel' := by
  obtain ⟨slot, hslot, -⟩ := ithSmallest_spec hc
  have hnode := hnodes.node_lt (List.mem_of_getElem? hslot)
  obtain ⟨-, hrange⟩ := writesInRange_of_fits hinv hfits hlt c slot.ninfo
  obtain ⟨latest, hlatest⟩ := nodeLatest_isSome slots job sel c slot.ninfo
  have hlength : (enterCpu slots (considerNode job sel c slot.ninfo) c).cpuIndexes.length
      = (considerNode job sel c slot.ninfo).cpuIndexes.length + 1 := length_insertByTime _ _ _
  have hplan : (enterCpu slots (considerNode job sel c slot.ninfo) c).planNumNodes
      = sel.planNumNodes := (considerNode_keeps job sel c slot.ninfo).1
  rw [takeCpu_eq hslot rfl]
  generalize enterCpu slots (considerNode job sel c slot.ninfo) c = entered
    at hlatest hlength hplan
  split
  · next hfull =>
      obtain ⟨last, hlast⟩ : ∃ last, entered.cpuIndexes.getLast? = some last := by
        cases hcpus : entered.cpuIndexes.getLast? with
        | none =>
            rw [List.getLast?_eq_none_iff] at hcpus
            rw [hcpus, List.length_nil] at hlength
            omega
        | some last => exact ⟨last, rfl⟩
      have hroom : sel.planNumNodes < job.reqNumNodes := by
        apply hrange
        rw [← hlength, hfull, hplan]
      unfold completeChunk
      rw [if_neg (by omega), getAt_ok.mpr (List.getElem?_eq_getElem hnode), hlast, hlatest]
      exact ⟨_, rfl⟩
  · exact ⟨_, rfl⟩

/-- The loop returns, with or without a choice. -/
theorem selectCpus_returns (hnodes : OnNodes cluster slots)
    (hfits : job.usage ≤ job.reqPpn * job.reqNumNodes) (fuel : ℕ) :
    ∀ {sel : Selection}, SelectionInv slots job sel →
      Avoids .outOfSteps (selectCpus cluster slots job wiped fuel sel) →
      ∃ selected, selectCpus cluster slots job wiped fuel sel = .ok selected := by
  induction fuel with
  | zero =>
      intro sel _ hends
      exact absurd rfl hends
  | succ fuel ih =>
      intro sel hinv hends
      rw [selectCpus] at hends ⊢
      split at hends
      · next hlt =>
          rw [if_pos hlt]
          cases hc : ithSmallest slots sel with
          | none => exact ⟨none, rfl⟩
          | some c =>
              obtain ⟨sel₁, h₁⟩ := @takeCpu_returns _ _ _ wiped _ hnodes hinv hfits hlt _ hc
              rw [hc] at hends
              dsimp only at hends ⊢
              rw [h₁] at hends ⊢
              exact ih (takeCpu_inv hinv hc h₁) hends
      · next hge =>
          rw [if_neg hge]
          exact ⟨some sel, rfl⟩

/-- The availability of a slot of a node of the cluster is found. -/
theorem slotAvailability_returns (job : PlanJob) (wiped : Bool) {slot : FirstFreeSlot}
    (hnode : slot.ninfo < cluster.nodes.length) :
    ∃ a, slotAvailability cluster job wiped slot = .ok a := by
  unfold slotAvailability
  split
  · exact ⟨_, rfl⟩
  · rw [getAt_ok.mpr (List.getElem?_eq_getElem hnode)]
    simp only [bind, Except.bind]
    repeat' first | exact ⟨_, rfl⟩ | split

/-- The choice of CPUs returns. -/
theorem placeShared_returns (hnodes : OnNodes cluster slots)
    (hfits : job.usage ≤ job.reqPpn * job.reqNumNodes) :
    ∃ placed, placeShared cluster job slots = .ok placed := by
  have hends := placeShared_ends cluster job slots
  obtain ⟨avail, havail, -⟩ := @mapM_exists _ _ (fun _ _ => True)
    (slotAvailability cluster job (wipeFixedNodes job).2) slots (by
      intro slot hslot
      obtain ⟨a, ha⟩ := slotAvailability_returns job (wipeFixedNodes job).2 (hnodes.node_lt hslot)
      exact ⟨a, ha, trivial⟩)
  unfold placeShared at hends ⊢
  dsimp only at hends ⊢
  rw [havail] at hends ⊢
  have hloop : Avoids .outOfSteps (selectCpus cluster slots job (wipeFixedNodes job).2
      (selectionBudget slots.length) (Selection.initial job (wipeFixedNodes job).1 avail)) := by
    intro h
    apply hends
    show (selectCpus _ _ _ _ _ _ >>= _) = _
    rw [h]
    rfl
  obtain ⟨selected, hselected⟩ := selectCpus_returns hnodes hfits _ (initial_inv havail _) hloop
  show ∃ placed, (selectCpus _ _ _ _ _ _ >>= _) = _
  rw [hselected]
  cases selected with
  | none => exact ⟨none, rfl⟩
  | some sel => exact ⟨_, rfl⟩

end Loop

/-! ## The balance of the names -/

/-- The name of a node of the job; no name for an empty cell. -/
def nodeName (cluster : PlanCluster) (ninfo : Option ℕ) : Option String :=
  (ninfo.bind (fun n => cluster.nodes[n]?)).map NodeInfo.name

/-- The names of the nodes of the complete chunks. -/
def Selection.completeNames (cluster : PlanCluster) (sel : Selection) : List (Option String) :=
  (sel.ninfoArr.take sel.planNumNodes).map (nodeName cluster)

/-- What holds of the variables of the loop when the job is fixed to nodes. -/
structure PinnedInv (cluster : PlanCluster) (slots : List FirstFreeSlot) (job : PlanJob)
    (sel : Selection) : Prop where
  fixed_eq : sel.fixedNnameArr = job.fixedNnameArr
  length_eq : sel.ninfoArr.length = job.reqNumNodes
  cells : ∀ c ∈ sel.tmpCpuArr, c < sel.avail.length
  wanted : ∀ (c : ℕ) (slot : FirstFreeSlot) (node : NodeInfo), sel.usableAt c = true →
    slots[c]? = some slot → cluster.nodes[slot.ninfo]? = some node →
    0 < demand node.name sel.fixedNnameArr sel.nodePpnFree
  named : none ∉ sel.completeNames cluster
  balance : ∀ name, demand name sel.fixedNnameArr sel.nodePpnFree +
    (sel.completeNames cluster).count (some name) = job.fixedNnameArr.count (some name)

section Pinned

variable {cluster : PlanCluster} {slots : List FirstFreeSlot} {job : PlanJob}
  {sel sel' : Selection}

/-- A slot that may be used is one of a node the job is fixed to. -/
theorem usable_slotAvailability {slot : FirstFreeSlot} {a : SlotAvailability}
    (hshared : job.jinfo.isExclusive = false)
    (h : slotAvailability cluster job false slot = .ok a) (husable : a.usable = true) :
    ∃ node, cluster.nodes[slot.ninfo]? = some node ∧ some node.name ∈ job.fixedNnameArr := by
  unfold slotAvailability at h
  split at h
  · cases h
    cases husable
  · obtain ⟨node, hnode, h⟩ := bind_ok.mp h
    rw [getAt_ok] at hnode
    -- every test before the last ones gives a mark that may not be used
    have hrefused : ∀ {b : SlotAvailability}, b.usable = false →
        (pure b : Run SlotAvailability) = .ok a → False := by
      intro b hb heq
      rw [← pure_ok.mp heq, hb] at husable
      cases husable
    split at h
    · exact (hrefused rfl h).elim
    split at h
    · exact (hrefused rfl h).elim
    split at h
    · exact (hrefused rfl h).elim
    split at h
    · exact (hrefused rfl h).elim
    split at h
    · exact (hrefused rfl h).elim
    next hfixed =>
      refine ⟨node, hnode, ?_⟩
      by_contra hnot
      exact hfixed ⟨hshared, rfl, by simpa using hnot⟩

/-- It holds before the loop. -/
theorem pinnedInv_initial {avail : List SlotAvailability}
    (hshared : job.jinfo.isExclusive = false)
    (hninfo : job.ninfoArr.length = job.reqNumNodes)
    (hfixed : job.fixedNnameArr.length = job.reqNumNodes)
    (havail : slots.mapM (slotAvailability cluster job false) = .ok avail) :
    PinnedInv cluster slots job (Selection.initial job job.fixedNnameArr avail) := by
  have hdemand : ∀ name, demand name job.fixedNnameArr (List.replicate job.reqNumNodes true)
      = job.fixedNnameArr.count (some name) := by
    intro name
    rw [← hfixed]
    exact demand_replicate name job.fixedNnameArr
  constructor
  case fixed_eq => rfl
  case length_eq => exact hninfo
  case cells =>
    intro c hc
    cases hc
  case wanted =>
    intro c slot node husable hslot hnode
    obtain ⟨a, ha, husablea⟩ := usableAt_iff_mark.mp husable
    obtain ⟨slot', hslot', heq⟩ := exists_of_mapM_getElem? havail ha
    rw [hslot] at hslot'
    cases hslot'
    obtain ⟨node', hnode', hmem⟩ := usable_slotAvailability hshared heq husablea
    rw [hnode] at hnode'
    cases hnode'
    show 0 < demand node.name job.fixedNnameArr (List.replicate job.reqNumNodes true)
    rw [hdemand]
    exact List.count_pos_iff.mpr hmem
  case named =>
    intro hnone
    cases hnone
  case balance =>
    intro name
    show demand name job.fixedNnameArr (List.replicate job.reqNumNodes true) + 0 = _
    rw [hdemand, Nat.add_zero]

/-- Entering a CPU leaves the names alone. -/
theorem PinnedInv.enter (h : PinnedInv cluster slots job sel) {c n : ℕ}
    (husable : sel.usableAt c = true) (hent : Entered job sel c n sel')
    (hninfo : sel'.ninfoArr = sel.ninfoArr) : PinnedInv cluster slots job sel' := by
  have hnames : sel'.completeNames cluster = sel.completeNames cluster := by
    unfold Selection.completeNames
    rw [hninfo, hent.plan_eq]
  constructor
  case fixed_eq =>
    rw [hent.fixed_eq]
    exact h.fixed_eq
  case length_eq =>
    rw [hninfo]
    exact h.length_eq
  case cells =>
    intro d hd
    rw [hent.cells]
    by_cases hdc : d = c
    · rw [hdc]
      exact lt_of_usableAt husable
    · exact h.cells d (hent.mem_other hdc hd).1
  case wanted =>
    intro d slot node hd hslot hnode
    rw [usableAt_set_tried hent.avail_eq husable] at hd
    rw [hent.fixed_eq, hent.free_eq]
    exact h.wanted d slot node hd hslot hnode
  case named =>
    rw [hnames]
    exact h.named
  case balance =>
    intro name
    rw [hnames, hent.fixed_eq, hent.free_eq]
    exact h.balance name

/-- A complete chunk takes one cell of its node's name out. -/
theorem PinnedInv.complete (h : PinnedInv cluster slots job sel)
    (hnames : (cluster.nodes.map NodeInfo.name).Nodup) {n : ℕ} {node : NodeInfo}
    (hnode : cluster.nodes[n]? = some node) (hplan : sel.planNumNodes < job.reqNumNodes)
    (hninfo : sel'.ninfoArr = sel.ninfoArr.set sel.planNumNodes (some n))
    (hcompleted : Completed slots sel n node sel') : PinnedInv cluster slots job sel' := by
  obtain ⟨hthis, hothers⟩ := hcompleted.demand_eq
  -- the names of the complete chunks grow by that of the node
  have hcomplete : sel'.completeNames cluster
      = sel.completeNames cluster ++ [some node.name] := by
    have htake : sel'.ninfoArr.take sel'.planNumNodes
        = sel.ninfoArr.take sel.planNumNodes ++ [some n] := by
      have hlt : sel.planNumNodes < sel.ninfoArr.length := by
        rw [h.length_eq]
        exact hplan
      rw [hninfo, hcompleted.plan_eq, List.take_add_one, List.take_set_of_le le_rfl,
        List.getElem?_set_self hlt]
      rfl
    unfold Selection.completeNames
    rw [htake, List.map_append, List.map_singleton]
    unfold nodeName
    rw [Option.bind_some, hnode]
    rfl
  constructor
  case fixed_eq =>
    rw [hcompleted.fixed_eq]
    exact h.fixed_eq
  case length_eq =>
    rw [hninfo, List.length_set]
    exact h.length_eq
  case cells =>
    rw [hcompleted.chunk_eq]
    intro d hd
    cases hd
  case wanted =>
    intro d slot node' hd hslot hnode'
    have hbefore := h.wanted d slot node' (hcompleted.usable_before hd).2.1 hslot hnode'
    rw [hcompleted.fixed_eq]
    exact hcompleted.wanted hnames hnode hd (mem_nodeSlots.mpr ⟨slot, hslot, rfl⟩) hnode' hbefore
  case named =>
    rw [hcomplete]
    intro hnone
    rcases List.mem_append.mp hnone with hnone | hnone
    · exact h.named hnone
    · cases List.mem_singleton.mp hnone
  case balance =>
    intro name
    have hbalance := h.balance name
    rw [hcomplete, hcompleted.fixed_eq, List.count_append]
    by_cases hsame : name = node.name
    · subst hsame
      rw [List.count_singleton_self]
      omega
    · have hzero : [some node.name].count (some name) = 0 := by
        rw [List.count_eq_zero, List.mem_singleton]
        intro heq
        exact hsame (Option.some.inj heq)
      rw [hothers name hsame, hzero]
      omega

/-- One pass of the loop keeps the balance. -/
theorem PinnedInv.pass (h : PinnedInv cluster slots job sel)
    (hnames : (cluster.nodes.map NodeInfo.name).Nodup) {c : ℕ}
    (hc : ithSmallest slots sel = some c)
    (hrun : takeCpu cluster slots job false sel c = .ok sel') :
    PinnedInv cluster slots job sel' := by
  obtain ⟨slot, hslot, hok⟩ := ithSmallest_spec hc
  have husable : sel.usableAt c = true := by
    obtain ⟨a, ha, husablea⟩ := usable_of_eligible hok
    unfold Selection.usableAt
    rw [ha]
    exact husablea
  have hent := entered_enterCpu slots job sel c slot.ninfo
  have hentered := h.enter husable hent (considerNode_keeps job sel c slot.ninfo).2.2.2.2
  rw [takeCpu_eq hslot rfl] at hrun
  generalize enterCpu slots (considerNode job sel c slot.ninfo) c = entered at hrun hent hentered
  split at hrun
  · obtain ⟨hplan, -⟩ := completeChunk_spec hrun
    have hwanted : ∀ node, cluster.nodes[slot.ninfo]? = some node →
        0 < demand node.name entered.fixedNnameArr entered.nodePpnFree := by
      intro node hnode
      refine hentered.wanted c slot node ?_ hslot hnode
      rw [usableAt_set_tried hent.avail_eq husable]
      exact husable
    obtain ⟨node, hnode, hcompleted⟩ := completed_completeChunk hentered.cells hwanted hrun
    exact hentered.complete hnames hnode hplan (completeChunk_reset hrun).ninfoArr_eq
      hcompleted
  · cases hrun
    exact hentered

/-- It holds in every state of the loop. -/
theorem LoopReaches.pinnedInv {sel₀ : Selection} (hnames : (cluster.nodes.map NodeInfo.name).Nodup)
    (hstart : PinnedInv cluster slots job sel₀)
    (h : LoopReaches cluster slots job false sel₀ sel) : PinnedInv cluster slots job sel := by
  induction h with
  | start => exact hstart
  | pass _ _ hc hstep ih => exact ih.pass hnames hc hstep

/-! ## The nodes of the job -/

/-- With all chunks complete the names are the fixed ones. -/
theorem PinnedInv.perm (h : PinnedInv cluster slots job sel)
    (hfixed : job.fixedNnameArr.length = job.reqNumNodes)
    (hplan : sel.planNumNodes = job.reqNumNodes) :
    (sel.completeNames cluster).Perm job.fixedNnameArr := by
  have hsubperm : (sel.completeNames cluster).Subperm job.fixedNnameArr := by
    rw [List.subperm_ext_iff]
    intro cell hcell
    cases cell with
    | none => exact absurd hcell h.named
    | some name =>
        have := h.balance name
        omega
  apply hsubperm.perm_of_length_le
  unfold Selection.completeNames
  rw [hfixed, List.length_map, List.length_take, h.length_eq, hplan, min_self]

/-- The choice of CPUs takes the fixed nodes. -/
theorem placeShared_pinned {placed : PlanJob} (hshared : job.jinfo.isExclusive = false)
    (husage : job.usage = job.reqPpn * job.reqNumNodes)
    (hninfo : job.ninfoArr.length = job.reqNumNodes)
    (hfixed : job.fixedNnameArr.length = job.reqNumNodes) (hcomplete : job.Complete)
    (hnames : (cluster.nodes.map NodeInfo.name).Nodup)
    (h : placeShared cluster job slots = .ok (some placed)) :
    ((placed.ninfoArr.take job.reqNumNodes).map (nodeName cluster)).Perm job.fixedNnameArr := by
  obtain ⟨avail, sel, havail, hselected, rfl⟩ := placeShared_ok h
  rw [wipeFixedNodes_of_complete hcomplete] at havail hselected
  have hinit := pinnedInv_initial hshared hninfo hfixed havail
  have hinv := (selectCpus_reaches _ .start hselected).pinnedInv hnames hinit
  obtain ⟨hsel, hlength⟩ := selectCpus_inv _ (initial_inv havail _) (Nat.zero_le _) hselected
  -- as many CPUs as the job uses are all its chunks
  have hplan : sel.planNumNodes = job.reqNumNodes := by
    have hlt := hsel.lt_chunks
    rw [hlength, husage, Nat.mul_comm] at hlt
    have := Nat.lt_of_mul_lt_mul_right hlt
    have := hsel.nodes_le
    omega
  have hperm := hinv.perm hfixed hplan
  unfold Selection.completeNames at hperm
  rwa [hplan] at hperm

/-- **A job that is fixed to nodes keeps them**: the choice of CPUs returns, and if
`update_job` places the job, its nodes are the fixed ones, each as often as it is named. -/
theorem updateJob_pinned {conf : LimitsForClusters} {values : LimitsValues}
    {limits : List PlanLimit} (hshared : job.jinfo.isExclusive = false)
    (husage : job.usage = job.reqPpn * job.reqNumNodes)
    (hninfo : job.ninfoArr.length = job.reqNumNodes)
    (hfixed : job.fixedNnameArr.length = job.reqNumNodes) (hcomplete : none ∉ job.fixedNnameArr)
    (hnames : (cluster.nodes.map NodeInfo.name).Nodup) (hnodes : OnNodes cluster slots) :
    (∃ placed, placeShared cluster job slots = .ok placed) ∧
      ∀ update, updateJob conf cluster values limits slots job = .ok (some update) →
        ((update.job.ninfoArr.take job.reqNumNodes).map (nodeName cluster)).Perm
          job.fixedNnameArr := by
  refine ⟨placeShared_returns hnodes husage.le, ?_⟩
  intro update h
  rw [updateJob_shared hshared] at h
  obtain ⟨placed, hcall⟩ := updateSharedJob_call h
  have hperm := placeShared_pinned hshared husage hninfo hfixed hcomplete hnames hcall.placed_ok
  -- the limits move the start, not the nodes
  rcases adjustJob_cases hcall.adjusted_ok with heq | ⟨t, heq⟩
  · rw [heq]
    exact hperm
  · rw [heq]
    exact hperm

end Pinned

/-- A cluster of three nodes with four CPUs each. -/
def pinnedCluster : PlanCluster :=
  ⟨"", [plainNode "a" 4 0, plainNode "b" 4 0, plainNode "c" 4 0], 0, 0, 0⟩

/-- A job of three chunks with two CPUs each, two fixed to `b` and one to `a`. -/
def pinnedJob : PlanJob :=
  { PlanJob.filled 0 default 6 3 (by decide) 0 100 0 0 with
    fixedNnameArr := [some "b", some "a", some "b"] }

/-- The slots of the three nodes; `c` is free first. -/
def pinnedSlots : List FirstFreeSlot :=
  slotsAt [(0, 1), (0, 20), (0, 30), (0, 40), (1, 2), (1, 3), (1, 4), (1, 5), (2, 0), (2, 0)]

/-- Node `a` is taken up first, given up for `b` twice, and then completed. -/
theorem updateJob_pinned_three :
    ∃ update, updateJob oneClass pinnedCluster ⟨[], []⟩ [] pinnedSlots pinnedJob
        = .ok (some update) ∧
      update.job.ninfoArr = [some 1, some 1, some 0] ∧
      ((update.job.ninfoArr.take 3).map (nodeName pinnedCluster)).Perm
        [some "b", some "a", some "b"] := by
  have hrun : (do
      let update ← updateJob oneClass pinnedCluster ⟨[], []⟩ [] pinnedSlots pinnedJob
      return update.map (fun update => update.job.ninfoArr) : Run (Option (List (Option ℕ))))
      = .ok (some [some 1, some 1, some 0]) := by
    decide +kernel
  obtain ⟨update, hupdate, hresult⟩ := bind_ok.mp hrun
  obtain ⟨update, rfl, hninfo⟩ := Option.map_eq_some_iff.mp (pure_ok.mp hresult)
  refine ⟨update, hupdate, hninfo, ?_⟩
  have hpinned := @updateJob_pinned pinnedCluster pinnedSlots pinnedJob oneClass ⟨[], []⟩ []
    rfl rfl rfl rfl (by decide) (by decide) (by unfold OnNodes; decide)
  exact hpinned.2 update hupdate

end PlanSched
