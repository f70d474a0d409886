/-
# The layout of the slot table

The nodes of a cluster lie in the slot table one after the other, with as many slots as
they have cores and with their memory and scratch space.  Nothing that is done to the table
changes this: only times and what is available do.

* `Laid`: the table has the layout of the cluster;
* `updateJob_layout`: `update_job` keeps the layout;
* `initialSlots_served`: the slots out of service at first are those of the nodes that are
  not available.
-/
import PlanSched.UpdateSched

namespace PlanSched

open CheckedRun

/-! ## The layout -/

/-- What never changes of a slot: its node, and the node's memory and scratch space. -/
def FirstFreeSlot.place (slot : FirstFreeSlot) : ℕ × ℤ × ℤ :=
  (slot.ninfo, slot.mem, slot.scratchLocal)

/-- The layout of a table. -/
def layout (slots : List FirstFreeSlot) : List (ℕ × ℤ × ℤ) := slots.map FirstFreeSlot.place

/-- The layout of the nodes from number `i` on. -/
def nodesLayout : ℕ → List NodeInfo → List (ℕ × ℤ × ℤ)
  | _, [] => []
  | i, node :: nodes =>
      List.replicate node.coresTotal (i, getNodeMem node, getNodeScratchLocal node) ++
        nodesLayout (i + 1) nodes

/-- The table has the layout of the cluster; what follows belongs to no node. -/
def Laid (cluster : PlanCluster) (slots : List FirstFreeSlot) : Prop :=
  ∃ k place, layout slots = nodesLayout 0 cluster.nodes ++ List.replicate k place ∧
    place.1 = cluster.nodes.length

/-! ## Operations that keep the layout -/

/-- A change of cells that keeps the places keeps the layout. -/
theorem layout_mapIdx {f : ℕ → FirstFreeSlot → FirstFreeSlot}
    (hf : ∀ c slot, (f c slot).place = slot.place) (slots : List FirstFreeSlot) :
    layout (slots.mapIdx f) = layout slots := by
  unfold layout
  apply List.ext_getElem?
  intro c
  rw [List.getElem?_map, List.getElem?_mapIdx, List.getElem?_map, Option.map_map]
  congr 1
  funext slot
  exact hf c slot

/-- The same for a change that does not depend on the cell. -/
theorem layout_map {f : FirstFreeSlot → FirstFreeSlot} (hf : ∀ slot, (f slot).place = slot.place)
    (slots : List FirstFreeSlot) : layout (slots.map f) = layout slots := by
  unfold layout
  rw [List.map_map]
  exact List.map_congr_left (fun slot _ => hf slot)

/-- The new memory numbers keep the place. -/
theorem updateSlot_place (job : PlanJob) (own : Bool) (newMem newScratchLocal : ℤ)
    (slot : FirstFreeSlot) :
    (updateSlot job own newMem newScratchLocal slot).place = slot.place := by
  unfold updateSlot
  dsimp only
  split
  · rfl
  · split
    · rfl
    · rfl

/-- The update of one node keeps the layout. -/
theorem updateNode_layout {cluster : PlanCluster} {job : PlanJob} {own : ℕ → Bool}
    {slots slots' : List FirstFreeSlot} {firstCpuNode : ℕ}
    (h : updateNode cluster job own slots firstCpuNode = .ok slots') :
    layout slots' = layout slots := by
  unfold updateNode at h
  obtain ⟨first, -, h⟩ := bind_ok.mp h
  obtain ⟨ninfo, -, h⟩ := bind_ok.mp h
  rw [← pure_ok.mp h, layout_mapIdx]
  · unfold occupySlots
    refine layout_mapIdx ?_ slots
    intro c slot
    split
    · rfl
    · rfl
  · intro c slot
    split
    · exact updateSlot_place _ _ _ _ slot
    · rfl

/-- `first_free_slots_update` keeps the layout. -/
theorem firstFreeSlotsUpdate_layout {cluster : PlanCluster} {job : PlanJob}
    {slots slots' : List FirstFreeSlot} (h : firstFreeSlotsUpdate cluster job slots = .ok slots') :
    layout slots' = layout slots := by
  unfold firstFreeSlotsUpdate at h
  refine foldlM_invariant (fun s => layout s = layout slots) _ _ slots slots' ?_ rfl h
  intro s j s' _ hs hstep
  obtain ⟨cpu, -, hstep⟩ := bind_ok.mp hstep
  rw [updateNode_layout hstep, hs]

/-- `first_free_slots_update_exclusive` keeps the layout. -/
theorem firstFreeSlotsUpdateExclusive_layout {cluster : PlanCluster} {job : PlanJob}
    {slots slots' : List FirstFreeSlot}
    (h : firstFreeSlotsUpdateExclusive cluster job slots = .ok slots') :
    layout slots' = layout slots := by
  unfold firstFreeSlotsUpdateExclusive at h
  obtain ⟨⟨first, slots₁⟩, hfold, h⟩ := bind_ok.mp h
  obtain rfl := pure_ok.mp h
  refine foldlM_invariant (fun s : Option ℕ × List FirstFreeSlot => layout s.2 = layout slots) _ _
    (none, slots) (first, slots₁) ?_ rfl hfold
  intro s j s' _ hs hstep
  obtain ⟨node, -, hstep⟩ := bind_ok.mp hstep
  obtain ⟨cpu, -, hstep⟩ := bind_ok.mp hstep
  obtain ⟨slots₂, hslots₂, hstep⟩ := bind_ok.mp hstep
  rw [← pure_ok.mp hstep, ← hs]
  exact updateNode_layout hslots₂

/-- `update_job` keeps the layout. -/
theorem updateJob_layout {conf : LimitsForClusters} {cluster : PlanCluster} {values : LimitsValues}
    {limits : List PlanLimit} {slots : List FirstFreeSlot} {job : PlanJob} {update : JobUpdate}
    (h : updateJob conf cluster values limits slots job = .ok (some update)) :
    layout update.slots = layout slots := by
  rcases updateJob_cases h with ⟨-, placed, adjusted, claimed, hcall⟩ | ⟨-, placed, hcall⟩
  · rw [firstFreeSlotsUpdateExclusive_layout hcall.slots_ok,
      (placeExclusive_spec hcall.placed_ok).1]
    unfold claimNodes
    refine layout_map ?_ slots
    intro slot
    split
    · rfl
    · rfl
  · exact firstFreeSlotsUpdate_layout hcall.slots_ok

/-! ## The initial table -/

/-- Laying the nodes one after the other gives the layout. -/
theorem createNodes_layout {numCpus : ℕ} (nodes : List NodeInfo) :
    ∀ {i : ℕ} {slots slots' : List FirstFreeSlot},
      createNodes numCpus i nodes slots = .ok slots' →
      layout slots' = layout slots ++ nodesLayout i nodes := by
  induction nodes with
  | nil =>
      intro i slots slots' h
      rw [createNodes] at h
      cases h
      rw [nodesLayout, List.append_nil]
  | cons node nodes ih =>
      intro i slots slots' h
      rw [createNodes] at h
      split at h
      · cases h
      · rw [ih h, nodesLayout, ← List.append_assoc]
        congr 1
        unfold layout createNode
        rw [List.map_append, List.map_replicate]
        rfl

/-- Entering a running job keeps the place. -/
theorem initializeCpu_place {jobsOnCpu : List (Option JobInfo)} {time : ℤ}
    {slot slot' : FirstFreeSlot} {j : ℕ} (h : initializeCpu jobsOnCpu time slot j = .ok slot') :
    slot'.place = slot.place := by
  unfold initializeCpu at h
  obtain ⟨cell, -, h⟩ := bind_ok.mp h
  cases cell with
  | none =>
      rw [← pure_ok.mp h]
      rfl
  | some jinfo =>
      change slot.busy jinfo time = .ok slot' at h
      unfold FirstFreeSlot.busy at h
      obtain ⟨walltime, -, h⟩ := bind_ok.mp h
      obtain ⟨mem, -, h⟩ := bind_ok.mp h
      obtain ⟨procs, -, h⟩ := bind_ok.mp h
      obtain ⟨memPerCpu, -, h⟩ := bind_ok.mp h
      obtain ⟨scratchPerCpu, -, h⟩ := bind_ok.mp h
      rw [← pure_ok.mp h]
      rfl

/-- One pass of `first_free_slots_initialize` keeps the layout. -/
theorem initializeNode_layout {time : ℤ} {node : NodeInfo} {slots slots' : List FirstFreeSlot}
    (h : initializeNode time node slots = .ok slots') : layout slots' = layout slots := by
  unfold initializeNode at h
  have hidle : ∀ t, layout (slots.map (fun slot => slot.idle t)) = layout slots := by
    intro t
    refine layout_map ?_ slots
    intro slot
    rfl
  split at h
  · cases h
    exact hidle (-1)
  · split at h
    · cases h
      exact hidle time
    · obtain ⟨busy, hbusy, h⟩ := bind_ok.mp h
      -- the last pass sets what is available only
      have hsettle : layout (busy.map (FirstFreeSlot.settle busy)) = layout busy := by
        refine layout_map ?_ busy
        intro slot
        rfl
      rw [← pure_ok.mp h, hsettle]
      unfold layout
      apply List.ext_getElem?
      intro c
      rw [List.getElem?_map, List.getElem?_map]
      cases hc : busy[c]? with
      | none =>
          have hlength := (forall₂_of_mapM _ _ hbusy).length_eq
          rw [List.length_zipIdx] at hlength
          rw [List.getElem?_eq_none_iff] at hc
          rw [List.getElem?_eq_none (by omega)]
      | some slot' =>
          obtain ⟨⟨slot, j⟩, hslot, hstep⟩ := exists_of_mapM_getElem? hbusy hc
          have hslot' : slots[c]? = some slot := by
            rw [List.getElem?_zipIdx] at hslot
            cases hget : slots[c]? with
            | none =>
                rw [hget] at hslot
                cases hslot
            | some s =>
                rw [hget] at hslot
                cases hslot
                rfl
          rw [hslot', Option.map_some, Option.map_some, initializeCpu_place hstep]

/-- `first_free_slots_initialize` keeps the layout. -/
theorem initializeNodes_layout {time : ℤ} (nodes : List NodeInfo) :
    ∀ {slots slots' : List FirstFreeSlot}, initializeNodes time nodes slots = .ok slots' →
      layout slots' = layout slots := by
  induction nodes with
  | nil =>
      intro slots slots' h
      rw [initializeNodes] at h
      cases h
      rfl
  | cons node nodes ih =>
      intro slots slots' h
      rw [initializeNodes] at h
      split at h
      · cases h
      · obtain ⟨first, hfirst, h⟩ := bind_ok.mp h
        obtain ⟨rest, hrest, h⟩ := bind_ok.mp h
        rw [← pure_ok.mp h]
        have hsplit : layout (slots.take node.coresTotal) ++ layout (slots.drop node.coresTotal) =
            layout slots := by
          unfold layout
          rw [← List.map_append, List.take_append_drop]
        rw [← hsplit, ← initializeNode_layout hfirst, ← ih hrest]
        unfold layout
        rw [List.map_append]

/-- The initial table is one with the layout of the cluster that was initialized. -/
theorem initialSlots_parts {cluster : PlanCluster} {time : ℤ} {slots : List FirstFreeSlot}
    (h : initialSlots cluster time = .ok slots) :
    ∃ k created, layout created = nodesLayout 0 cluster.nodes ++
        List.replicate k (unusedSlot cluster).place ∧
      initializeNodes time cluster.nodes created = .ok slots := by
  unfold initialSlots firstFreeSlotsCreate at h
  rw [bind_assoc] at h
  obtain ⟨created, hcreated, h⟩ := bind_ok.mp h
  rw [pure_bind] at h
  refine ⟨cluster.numCpus - created.length, _, ?_, h⟩
  unfold layout
  rw [List.map_append, List.map_replicate]
  congr 1
  exact createNodes_layout _ hcreated

/-- The initial table has the layout of the cluster. -/
theorem initialSlots_laid {cluster : PlanCluster} {time : ℤ} {slots : List FirstFreeSlot}
    (h : initialSlots cluster time = .ok slots) : Laid cluster slots := by
  obtain ⟨k, created, hlayout, hinit⟩ := initialSlots_parts h
  refine ⟨k, (unusedSlot cluster).place, ?_, rfl⟩
  rw [initializeNodes_layout _ hinit, hlayout]

/-! ## Reading the layout -/

/-- The places of the nodes. -/
theorem mem_nodesLayout (nodes : List NodeInfo) :
    ∀ {i : ℕ} {place : ℕ × ℤ × ℤ}, place ∈ nodesLayout i nodes →
      ∃ (k : ℕ) (node : NodeInfo), nodes[k]? = some node ∧
        place = (i + k, getNodeMem node, getNodeScratchLocal node) := by
  induction nodes with
  | nil =>
      intro i place h
      cases h
  | cons node nodes ih =>
      intro i place h
      rw [nodesLayout] at h
      rcases List.mem_append.mp h with h | h
      · exact ⟨0, node, rfl, List.eq_of_mem_replicate h⟩
      · obtain ⟨k, node', hnode', rfl⟩ := ih h
        exact ⟨k + 1, node', hnode', by rw [Nat.add_right_comm, Nat.add_assoc]⟩

/-- The memory and scratch space of a slot are those of its node. -/
theorem Laid.capacity {cluster : PlanCluster} {slots : List FirstFreeSlot}
    (h : Laid cluster slots) {c : ℕ} {slot : FirstFreeSlot} {node : NodeInfo}
    (hslot : slots[c]? = some slot) (hnode : cluster.nodes[slot.ninfo]? = some node) :
    slot.mem = getNodeMem node ∧ slot.scratchLocal = getNodeScratchLocal node := by
  obtain ⟨k, place, hlayout, hplace⟩ := h
  have hmem : slot.place ∈ layout slots :=
    List.mem_map_of_mem (List.mem_of_getElem? hslot)
  rw [hlayout] at hmem
  obtain ⟨hlt, -⟩ := List.getElem?_eq_some_iff.mp hnode
  rcases List.mem_append.mp hmem with hmem | hmem
  · obtain ⟨i, node', hnode', heq⟩ := mem_nodesLayout _ hmem
    rw [Nat.zero_add] at heq
    obtain ⟨hninfo, hmemory, hscratch⟩ : slot.ninfo = i ∧ slot.mem = getNodeMem node' ∧
        slot.scratchLocal = getNodeScratchLocal node' := by
      simpa [FirstFreeSlot.place] using heq
    rw [hninfo, hnode'] at hnode
    cases hnode
    exact ⟨hmemory, hscratch⟩
  · -- a slot that belongs to no node
    have heq := List.eq_of_mem_replicate hmem
    have hninfo : slot.ninfo = cluster.nodes.length := by
      rw [← hplace, ← heq]
      rfl
    omega

/-- The slots of a node. -/
def nodeSlots (slots : List FirstFreeSlot) (n : ℕ) : Finset ℕ :=
  (Finset.range slots.length).filter (fun c => slotNode slots c = some n)

/-- A slot of a node. -/
theorem mem_nodeSlots {slots : List FirstFreeSlot} {n c : ℕ} :
    c ∈ nodeSlots slots n ↔ ∃ slot, slots[c]? = some slot ∧ slot.ninfo = n := by
  unfold nodeSlots slotNode
  rw [Finset.mem_filter, Finset.mem_range]
  constructor
  · rintro ⟨hlt, hnode⟩
    rw [List.getElem?_eq_getElem hlt] at hnode ⊢
    exact ⟨_, rfl, Option.some.inj hnode⟩
  · rintro ⟨slot, hslot, rfl⟩
    obtain ⟨hlt, -⟩ := List.getElem?_eq_some_iff.mp hslot
    exact ⟨hlt, by rw [hslot]; rfl⟩

/-- The slots of a table that pass a test, as numbers. -/
theorem length_filter_eq_card (p : FirstFreeSlot → Bool) (slots : List FirstFreeSlot) :
    (slots.filter p).length =
      ((Finset.range slots.length).filter (fun c => (slots[c]?).any p = true)).card := by
  induction slots using List.reverseRecOn with
  | nil => rfl
  | append_singleton slots slot ih =>
      have hold : (Finset.range slots.length).filter
            (fun c => ((slots ++ [slot])[c]?).any p = true) =
          (Finset.range slots.length).filter (fun c => (slots[c]?).any p = true) := by
        apply Finset.filter_congr
        intro c hc
        rw [List.getElem?_append_left (Finset.mem_range.mp hc)]
      rw [List.filter_append, List.length_append, ih, List.length_append, List.length_singleton,
        Finset.range_add_one, Finset.filter_insert, hold, List.getElem?_concat_length,
        List.filter_singleton, Option.any_some]
      cases p slot with
      | true =>
          rw [if_pos rfl, Finset.card_insert_of_notMem (by simp)]
          rfl
      | false => rfl

/-- The places of nodes have their numbers. -/
theorem le_of_mem_nodesLayout {nodes : List NodeInfo} {i : ℕ} {place : ℕ × ℤ × ℤ}
    (h : place ∈ nodesLayout i nodes) : i ≤ place.1 := by
  obtain ⟨k, node, -, rfl⟩ := mem_nodesLayout nodes h
  exact Nat.le_add_right i k

/-- A node has a place for each of its cores. -/
theorem length_filter_nodesLayout (nodes : List NodeInfo) :
    ∀ {i k : ℕ} {node : NodeInfo}, nodes[k]? = some node →
      ((nodesLayout i nodes).filter (fun place => place.1 = i + k)).length = node.coresTotal := by
  induction nodes with
  | nil =>
      intro i k node h
      cases h
  | cons first nodes ih =>
      intro i k node h
      rw [nodesLayout, List.filter_append, List.length_append]
      cases k with
      | zero =>
          cases h
          have hothers : (nodesLayout (i + 1) nodes).filter (fun place => place.1 = i + 0)
              = [] := by
            rw [List.filter_eq_nil_iff]
            intro place hplace
            have := le_of_mem_nodesLayout hplace
            rw [decide_eq_true_eq]
            omega
          rw [hothers, List.filter_replicate_of_pos (by simp), List.length_replicate]
          rfl
      | succ k =>
          have hrest := @ih (i + 1) k node h
          rw [List.filter_replicate_of_neg (by simp), List.length_nil, Nat.zero_add, ← hrest,
            Nat.add_assoc i 1 k, Nat.add_comm 1 k]

/-- A node has a slot for each of its cores. -/
theorem Laid.card_nodeSlots {cluster : PlanCluster} {slots : List FirstFreeSlot}
    (h : Laid cluster slots) {n : ℕ} {node : NodeInfo} (hnode : cluster.nodes[n]? = some node) :
    (nodeSlots slots n).card = node.coresTotal := by
  obtain ⟨k, place, hlayout, hplace⟩ := h
  have hlt := (List.getElem?_eq_some_iff.mp hnode).1
  have hnodes : nodeSlots slots n = (Finset.range slots.length).filter
      (fun c => (slots[c]?).any (fun slot => slot.ninfo = n) = true) := by
    apply Finset.filter_congr
    intro c hc
    rw [slotNode, List.getElem?_eq_getElem (Finset.mem_range.mp hc)]
    simp
  have hcount : (slots.filter (fun slot => slot.ninfo = n)).length =
      ((layout slots).filter (fun place => place.1 = n)).length := by
    unfold layout
    rw [List.filter_map, List.length_map]
    rfl
  rw [hnodes, ← length_filter_eq_card, hcount, hlayout, List.filter_append, List.length_append,
    List.filter_replicate_of_neg (by rw [decide_eq_true_eq]; omega), List.length_nil, Nat.add_zero]
  have hplaces := @length_filter_nodesLayout cluster.nodes 0 n node hnode
  rwa [Nat.zero_add] at hplaces

/-! ## The nodes in service -/

/-- The slot is out of service if its node is not available, and else free from `time` on or
later. -/
def FirstFreeSlot.Served (time : ℤ) (node : NodeInfo) (slot : FirstFreeSlot) : Prop :=
  (node.isUnavailable = true → slot.time = -1) ∧ (node.isUnavailable = false → time ≤ slot.time)

/-- A CPU of a node with jobs is not free before `time`. -/
theorem le_time_of_initializeCpu {jobsOnCpu : List (Option JobInfo)} {time : ℤ}
    {slot slot' : FirstFreeSlot} {j : ℕ} (h : initializeCpu jobsOnCpu time slot j = .ok slot') :
    time ≤ slot'.time := by
  unfold initializeCpu at h
  obtain ⟨cell, -, h⟩ := bind_ok.mp h
  cases cell with
  | none =>
      rw [← pure_ok.mp h]
      exact le_rfl
  | some jinfo =>
      change slot.busy jinfo time = .ok slot' at h
      unfold FirstFreeSlot.busy at h
      simp only [bind_ok, pure_ok] at h
      obtain ⟨walltime, -, -, -, -, -, -, -, -, -, rfl⟩ := h
      show time ≤ if jinfo.stime + walltime.amount ≤ time then _ else _
      split
      · omega
      · omega

/-- One pass of `first_free_slots_initialize`. -/
theorem initializeNode_served {time : ℤ} {node : NodeInfo} {slots slots' : List FirstFreeSlot}
    (h : initializeNode time node slots = .ok slots') : ∀ slot ∈ slots', slot.Served time node := by
  intro slot hslot
  unfold initializeNode at h
  split at h
  · next hout =>
      cases h
      obtain ⟨old, -, rfl⟩ := List.mem_map.mp hslot
      refine ⟨fun _ => rfl, ?_⟩
      intro hin
      rw [hout] at hin
      cases hin
  · next hin =>
      refine ⟨fun hout => absurd hout hin, fun _ => ?_⟩
      split at h
      · cases h
        obtain ⟨old, -, rfl⟩ := List.mem_map.mp hslot
        exact le_rfl
      · obtain ⟨busy, hbusy, h⟩ := bind_ok.mp h
        rw [← pure_ok.mp h] at hslot
        obtain ⟨old, hold, rfl⟩ := List.mem_map.mp hslot
        obtain ⟨c, hlt, rfl⟩ := List.mem_iff_getElem.mp hold
        obtain ⟨e, -, hcell⟩ := exists_of_mapM_getElem? hbusy (List.getElem?_eq_getElem hlt)
        show time ≤ busy[c].time
        exact le_time_of_initializeCpu hcell

/-- The loop of `first_free_slots_initialize` over the nodes from number `i` on. -/
theorem initializeNodes_served {time : ℤ} (nodes : List NodeInfo) :
    ∀ {i : ℕ} {slots slots' : List FirstFreeSlot} {rest : List (ℕ × ℤ × ℤ)},
      layout slots = nodesLayout i nodes ++ rest → (∀ place ∈ rest, i + nodes.length ≤ place.1) →
      initializeNodes time nodes slots = .ok slots' →
      ∀ slot ∈ slots', ∀ (k : ℕ) (node : NodeInfo), slot.ninfo = i + k → nodes[k]? = some node →
        slot.Served time node := by
  induction nodes with
  | nil =>
      intro i slots slots' rest _ _ _ slot _ k node _ hnode
      cases hnode
  | cons first nodes ih =>
      intro i slots slots' rest hlayout hrest h slot hslot k node hninfo hnode
      rw [initializeNodes] at h
      split at h
      · cases h
      · obtain ⟨own, hown, h⟩ := bind_ok.mp h
        obtain ⟨others, hothers, h⟩ := bind_ok.mp h
        rw [← pure_ok.mp h] at hslot
        rw [nodesLayout, List.append_assoc] at hlayout
        have hlayoutOwn : layout (slots.take first.coresTotal) =
            List.replicate first.coresTotal (i, getNodeMem first, getNodeScratchLocal first) := by
          unfold layout at hlayout ⊢
          rw [List.map_take, hlayout, List.take_left' (List.length_replicate ..)]
        have hlayoutOthers : layout (slots.drop first.coresTotal) =
            nodesLayout (i + 1) nodes ++ rest := by
          unfold layout at hlayout ⊢
          rw [List.map_drop, hlayout, List.drop_left' (List.length_replicate ..)]
        -- the slots of the first node, and those of the nodes behind it
        rcases List.mem_append.mp hslot with hslot | hslot
        · have hplace : slot.place ∈ layout own := List.mem_map_of_mem hslot
          rw [initializeNode_layout hown, hlayoutOwn] at hplace
          have hi : slot.ninfo = i := congrArg Prod.fst (List.eq_of_mem_replicate hplace)
          have hk : k = 0 := by omega
          rw [hk] at hnode
          cases hnode
          exact initializeNode_served hown slot hslot
        · have hplace : slot.place ∈ layout others := List.mem_map_of_mem hslot
          rw [initializeNodes_layout _ hothers, hlayoutOthers] at hplace
          have hi : i + 1 ≤ slot.ninfo := by
            rcases List.mem_append.mp hplace with hplace | hplace
            · exact le_of_mem_nodesLayout hplace
            · have := hrest _ hplace
              rw [List.length_cons] at this
              show i + 1 ≤ slot.place.1
              omega
          obtain ⟨k', rfl⟩ : ∃ k', k = k' + 1 := ⟨k - 1, by omega⟩
          refine ih hlayoutOthers ?_ hothers slot hslot k' node (by omega) hnode
          intro place hplace'
          have := hrest place hplace'
          rw [List.length_cons] at this
          omega

/-- A CPU that runs a job belongs to a node. -/
theorem place_of_jobOnCpu (nodes : List NodeInfo) :
    ∀ {i c : ℕ} {running : JobInfo}, jobOnCpu nodes c = some running →
      ∃ place, (nodesLayout i nodes)[c]? = some place := by
  induction nodes with
  | nil =>
      intro i c running h
      cases h
  | cons node nodes ih =>
      intro i c running h
      rw [jobOnCpu] at h
      rw [nodesLayout]
      split at h
      · next hlt =>
          rw [List.getElem?_append_left (by rwa [List.length_replicate]),
            List.getElem?_replicate_of_lt hlt]
          exact ⟨_, rfl⟩
      · next hge =>
          rw [List.getElem?_append_right (by rw [List.length_replicate]; omega),
            List.length_replicate]
          exact ih h

/-- The initial table: the slots of a node are out of service exactly if it is not available. -/
theorem initialSlots_served {cluster : PlanCluster} {time : ℤ} {slots : List FirstFreeSlot}
    (h : initialSlots cluster time = .ok slots) {slot : FirstFreeSlot} (hslot : slot ∈ slots)
    {node : NodeInfo} (hnode : cluster.nodes[slot.ninfo]? = some node) : slot.Served time node := by
  obtain ⟨k, created, hlayout, hinit⟩ := initialSlots_parts h
  refine initializeNodes_served cluster.nodes hlayout ?_ hinit slot hslot slot.ninfo node
    (Nat.zero_add _).symm hnode
  intro place hplace
  rw [List.eq_of_mem_replicate hplace]
  exact (Nat.zero_add _).le

/-- A CPU that runs a job is a slot of a node. -/
theorem Laid.node_of_jobOnCpu {cluster : PlanCluster} {slots : List FirstFreeSlot}
    (h : Laid cluster slots) {c : ℕ} {running : JobInfo}
    (hrunning : jobOnCpu cluster.nodes c = some running) :
    ∃ slot node, slots[c]? = some slot ∧ cluster.nodes[slot.ninfo]? = some node := by
  obtain ⟨k, place, hlayout, -⟩ := h
  obtain ⟨own, hown⟩ := @place_of_jobOnCpu cluster.nodes 0 c running hrunning
  have hcell : (layout slots)[c]? = some own := by
    rw [hlayout, List.getElem?_append_left (List.getElem?_eq_some_iff.mp hown).1]
    exact hown
  unfold layout at hcell
  rw [List.getElem?_map, Option.map_eq_some_iff] at hcell
  obtain ⟨slot, hslot, rfl⟩ := hcell
  obtain ⟨n, node, hnode, heq⟩ := mem_nodesLayout _ (List.mem_of_getElem? hown)
  have hninfo : slot.ninfo = n := by
    rw [Nat.zero_add] at heq
    exact congrArg Prod.fst heq
  rw [← hninfo] at hnode
  exact ⟨slot, node, hslot, hnode⟩

end PlanSched
