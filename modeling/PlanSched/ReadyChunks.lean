/-
# The chunks that the nodes have given

Models nothing new: what the loop of `update_job` (`plan_operations.cpp`) takes, seen from the
slot table.  `ith_smallest` looks at the slots in the order of the times at which they become
free, and every chunk is made up of slots of one node.

* `UpTo`: the slots up to a given one in the order of `ith_smallest`;
* `ScanInv`: of every node the loop has tried less than a chunk that it did not take;
* `ScanInv.given_of_seen`: a node has given the chunks that the slots seen of it make up;
* `LoopReaches.scanned`: what a pass keeps holds in every state of the loop.
-/
import PlanSched.PlacementArrays

namespace PlanSched

open CheckedRun

/-! ## The slots up to one -/

/-- `ith_smallest` does not prefer slot `p` to slot `c`. -/
def UpTo (slots : List FirstFreeSlot) (p c : ℕ) : Prop := c = p ∨ Sooner slots c p

instance (slots : List FirstFreeSlot) (c d : ℕ) : Decidable (Sooner slots c d) :=
  inferInstanceAs (Decidable (_ ∨ _))

instance (slots : List FirstFreeSlot) (p c : ℕ) : Decidable (UpTo slots p c) :=
  inferInstanceAs (Decidable (_ ∨ _))

/-- The slots of node `n` up to `p` that are usable: free, or short of available memory. -/
def usableUpTo (slots : List FirstFreeSlot) (avail : List SlotAvailability) (p n : ℕ) :
    Finset ℕ :=
  (nodeSlots slots n).filter (fun c =>
    UpTo slots p c ∧ (avail[c]?).any SlotAvailability.usable = true)

/-- How many chunks of the job node `n` may take: any number, or as many as the job is fixed
to it.  The code knows the fixed nodes by name, so of two nodes of one name the first that is
used up closes the other one. -/
def chunksAllowed (cluster : PlanCluster) (job : PlanJob) (wiped : Bool) (n : ℕ) : ℕ :=
  match cluster.nodes[n]? with
  | none => 0
  | some node =>
      if wiped then job.reqNumNodes
      else if (cluster.nodes.eraseIdx n).any (fun other => decide (other.name = node.name)) then 1
      else (job.fixedNnameArr.take job.reqNumNodes).count (some node.name)

/-- The slot was usable before the loop. -/
def UsableBefore (avail₀ : List SlotAvailability) (c : ℕ) : Prop :=
  ∃ a, avail₀[c]? = some a ∧ a.usable = true

section Order

variable {slots : List FirstFreeSlot} {avail : List SlotAvailability} {c d p n : ℕ}

/-- The order of `ith_smallest` is transitive. -/
theorem Sooner.trans {e : ℕ} (h : Sooner slots c d) (h' : Sooner slots d e) :
    Sooner slots c e := by
  unfold Sooner at *
  omega

/-- It is total. -/
theorem sooner_of_not_upTo (h : ¬ UpTo slots p c) : Sooner slots p c := by
  unfold UpTo Sooner at *
  omega

/-- What comes before a slot up to `p` is a slot up to `p`. -/
theorem UpTo.of_sooner (hd : UpTo slots p d) (hc : Sooner slots c d) : UpTo slots p c := by
  rcases hd with rfl | hd
  · exact Or.inr hc
  · exact Or.inr (hc.trans hd)

/-- So is a slot up to it. -/
theorem UpTo.trans (hd : UpTo slots p d) (hc : UpTo slots d c) : UpTo slots p c := by
  rcases hc with rfl | hc
  · exact hd
  · exact hd.of_sooner hc

/-- A slot up to one that comes before `p` comes before `p`. -/
theorem UpTo.sooner (hc : UpTo slots d c) (hd : Sooner slots d p) : Sooner slots c p := by
  rcases hc with rfl | hc
  · exact hd
  · exact hc.trans hd

/-- A set of slots has a last one. -/
theorem exists_upTo_all (slots : List FirstFreeSlot) {s : Finset ℕ} (hs : s.Nonempty) :
    ∃ l ∈ s, ∀ d ∈ s, UpTo slots l d := by
  induction hs using Finset.Nonempty.cons_induction with
  | singleton a =>
      refine ⟨a, Finset.mem_singleton_self a, ?_⟩
      intro d hd
      exact Or.inl (Finset.mem_singleton.mp hd)
  | cons a s ha hs ih =>
      obtain ⟨l, hl, hall⟩ := ih
      by_cases hup : UpTo slots l a
      · refine ⟨l, Finset.mem_cons_of_mem hl, ?_⟩
        intro d hd
        rcases Finset.mem_cons.mp hd with rfl | hd
        · exact hup
        · exact hall d hd
      · have hsooner := sooner_of_not_upTo hup
        refine ⟨a, Finset.mem_cons_self a s, ?_⟩
        intro d hd
        rcases Finset.mem_cons.mp hd with rfl | hd
        · exact Or.inl rfl
        · exact Or.inr ((hall d hd).sooner hsooner)

/-- A usable slot up to `p`. -/
theorem mem_usableUpTo : c ∈ usableUpTo slots avail p n ↔
    c ∈ nodeSlots slots n ∧ UpTo slots p c ∧ UsableBefore avail c := by
  unfold UsableBefore
  unfold usableUpTo
  rw [Finset.mem_filter]
  cases avail[c]? with
  | none => simp
  | some a => simp

end Order

/-! ## The cells of the fixed nodes -/

/-- Without a cell for the name the loop over `node_ppn_free` does nothing. -/
theorem useFixedNode_zero (name : String) (ppnFree : List Bool) (rest : List (Option String)) :
    ∀ k, demand name rest (ppnFree.drop k) = 0 →
      useFixedNode name k rest ppnFree false = (false, ppnFree) := by
  induction rest with
  | nil =>
      intro k _
      rw [useFixedNode]
  | cons cell rest ih =>
      intro k h
      rw [demand_cons_drop] at h
      rw [useFixedNode]
      split
      · next hcell =>
          rw [if_pos hcell] at h
          omega
      · exact ih (k + 1) (by omega)

/-- The node closes when its name is wanted once; then, or when it is wanted more often, it is
wanted once less, and other names as often as before. -/
theorem useFixedNode_demand (name : String) (fixed : List (Option String)) (ppnFree : List Bool) :
    ((useFixedNode name 0 fixed ppnFree false).1 = true → demand name fixed ppnFree = 1) ∧
      demand name fixed ppnFree
        ≤ demand name fixed (useFixedNode name 0 fixed ppnFree false).2 + 1 ∧
      ∀ other, other ≠ name → demand other fixed (useFixedNode name 0 fixed ppnFree false).2
        = demand other fixed ppnFree := by
  rcases Nat.eq_zero_or_pos (demand name fixed ppnFree) with hzero | hpos
  · rw [useFixedNode_zero name ppnFree fixed 0 (by rwa [List.drop_zero]), hzero]
    exact ⟨fun h => absurd h Bool.false_ne_true, Nat.zero_le _, fun _ _ => rfl⟩
  · obtain ⟨j, hfree, hname, huse⟩ := useFixedNode_first name ppnFree fixed 0
      (by rwa [List.drop_zero])
    rw [Nat.zero_add] at hfree
    rw [Nat.zero_add, List.drop_zero] at huse
    obtain ⟨hthis, hothers⟩ := demand_set hfree hname
    rw [huse]
    exact ⟨fun h => of_decide_eq_true h, hthis.ge, hothers⟩

/-! ## What the loop has tried -/

/-- The slots of node `n` that are used up. -/
def usedSlots (slots : List FirstFreeSlot) (sel : Selection) (n : ℕ) : Finset ℕ :=
  (nodeSlots slots n).filter (fun c => sel.avail[c]? = some .alreadyUsed)

/-- What holds of the variables of the loop, from the marks `avail₀` before it and the nodes
`chosen` of the complete chunks: every node has been tried by less than a chunk beyond the
current one, its used slots are those of its chunks, and it is closed when it has given all the
chunks it may. -/
structure ScanInv (cluster : PlanCluster) (slots : List FirstFreeSlot) (job : PlanJob)
    (wiped : Bool) (avail₀ : List SlotAvailability) (chosen : List ℕ) (sel : Selection) : Prop
    extends AttemptInv slots job sel where
  chosen_length : chosen.length = sel.planNumNodes
  chosen_lt : ∀ n ∈ chosen, n < cluster.nodes.length
  latest : sel.nodeLatest = none → sel.consideredNode = none
  total : ∀ d, d ∈ sel.tmpCpuArr ∨ sel.avail[d]? = some .alreadyUsed →
    ∃ l, sel.totalLatest = some l ∧ slotTime slots d ≤ slotTime slots l
  usable : ∀ (c : ℕ) (a : SlotAvailability), sel.avail[c]? = some a → a.usable = true →
    ∃ a₀, avail₀[c]? = some a₀ ∧ a₀.usable = true ∧ (a.wasTried = false → a₀ = a)
  used_before : ∀ c : ℕ, sel.avail[c]? = some .alreadyUsed → UsableBefore avail₀ c
  touched : ∀ (c : ℕ) (a : SlotAvailability), avail₀[c]? = some a → a.usable = true →
    sel.avail[c]? = some a ∨ sel.triedAt c = true ∨ sel.avail[c]? = some .alreadyUsed ∨
      sel.avail[c]? = some .prohibitedNode
  tried_lt : ∀ n, (triedSlots slots sel n \ sel.tmpCpuArr.toFinset).card < job.reqPpn
  used_eq : ∀ n, (usedSlots slots sel n).card = job.reqPpn * chosen.count n
  closed : ∀ c n : ℕ, c ∈ nodeSlots slots n → UsableBefore avail₀ c →
    sel.avail[c]? = some .prohibitedNode →
      n ∈ chosen ∧ chunksAllowed cluster job wiped n ≤ chosen.count n
  wanted : wiped = false → ∀ (n : ℕ) (node : NodeInfo), cluster.nodes[n]? = some node →
    chunksAllowed cluster job wiped n
      ≤ max 1 (demand node.name sel.fixedNnameArr sel.nodePpnFree + chosen.count n)
  nodes : ∀ i < sel.planNumNodes, ∀ n, sel.ninfoArr[i]? = some (some n) → n ∈ chosen

section Scan

variable {cluster : PlanCluster} {slots : List FirstFreeSlot} {job : PlanJob} {wiped : Bool}
  {avail₀ : List SlotAvailability} {chosen : List ℕ} {sel sel' : Selection}

/-- Of two nodes of one name each may take one chunk. -/
theorem chunksAllowed_of_twin {n m : ℕ} {node node' : NodeInfo}
    (hnode : cluster.nodes[n]? = some node) (hnode' : cluster.nodes[m]? = some node')
    (hne : n ≠ m) (hname : node.name = node'.name) :
    chunksAllowed cluster job false m = 1 := by
  have htwin : (cluster.nodes.eraseIdx m).any (fun other => decide (other.name = node'.name))
      = true := by
    rw [List.any_eq_true]
    exact ⟨node, List.mem_eraseIdx_iff_getElem?.mpr ⟨n, hne, hnode⟩, decide_eq_true hname⟩
  unfold chunksAllowed
  rw [hnode']
  dsimp only
  rw [if_neg Bool.false_ne_true, if_pos htwin]

/-- A slot is of one node only. -/
theorem node_unique {c n m : ℕ} (hn : c ∈ nodeSlots slots n) (hm : c ∈ nodeSlots slots m) :
    n = m := by
  by_contra hne
  exact notMem_nodeSlots hm hne hn

/-- Before the loop nothing was tried or used. -/
def FreshMarks (avail₀ : List SlotAvailability) : Prop :=
  ∀ a ∈ avail₀, a ≠ .alreadyUsed ∧ a.wasTried = false

/-- A slot is not used then. -/
theorem FreshMarks.not_used (hfresh : FreshMarks avail₀) (c : ℕ) :
    avail₀[c]? ≠ some .alreadyUsed :=
  fun hc => (hfresh _ (List.mem_of_getElem? hc)).1 rfl

/-- Nor is it tried. -/
theorem FreshMarks.not_tried (hfresh : FreshMarks avail₀) (c attempt : ℕ) :
    avail₀[c]? ≠ some (.tried attempt) :=
  fun hc => Bool.noConfusion (hfresh _ (List.mem_of_getElem? hc)).2

/-- It holds before the loop. -/
theorem scanInv_initial {fixed : List (Option String)} (hcells : avail₀.length = slots.length)
    (hfresh : FreshMarks avail₀)
    (hfixed : wiped = false → fixed = job.fixedNnameArr) :
    ScanInv cluster slots job wiped avail₀ [] (Selection.initial job fixed avail₀) where
  toAttemptInv := attemptInv_initial hcells hfresh.not_tried fixed
  chosen_length := rfl
  chosen_lt := by simp
  latest := fun _ => rfl
  total := by
    rintro d (hd | hd)
    · cases hd
    · exact absurd hd (hfresh.not_used d)
  usable := fun c a ha husable => ⟨a, ha, husable, fun _ => rfl⟩
  used_before := fun c hc => absurd hc (hfresh.not_used c)
  touched := fun c a hc _ => Or.inl hc
  tried_lt := by
    intro n
    have hnone : triedSlots slots (Selection.initial job fixed avail₀) n = ∅ := by
      rw [Finset.eq_empty_iff_forall_notMem]
      intro c hc
      obtain ⟨a, ha⟩ := triedAt_iff.mp (Finset.mem_filter.mp hc).2
      exact hfresh.not_tried c a ha
    rw [hnone, Finset.empty_sdiff, Finset.card_empty]
    exact job.reqPpn_pos
  used_eq := by
    intro n
    rw [List.count_nil, Nat.mul_zero, Finset.card_eq_zero, Finset.eq_empty_iff_forall_notMem]
    intro c hc
    exact hfresh.not_used c (Finset.mem_filter.mp hc).2
  closed := by
    rintro c n - ⟨a, ha, husable⟩ hprohibited
    rw [show avail₀[c]? = some .prohibitedNode from hprohibited] at ha
    cases ha
    cases husable
  wanted := by
    intro hwiped n node hnode
    rw [List.count_nil, Nat.add_zero]
    unfold chunksAllowed
    rw [hnode]
    dsimp only
    rw [hwiped, if_neg Bool.false_ne_true]
    split
    · exact le_max_left _ _
    · refine le_trans (le_of_eq ?_) (le_max_right _ _)
      rw [← demand_replicate_take, ← hfixed hwiped]
      rfl
  nodes := by
    intro i hi
    exact absurd hi (Nat.not_lt_zero i)

/-- A slot of another node than the one under consideration was never tried when it is
chosen. -/
theorem ScanInv.free_of_other (h : ScanInv cluster slots job wiped avail₀ chosen sel) {c m : ℕ}
    {slot : FirstFreeSlot} (hok : eligible slots sel c slot = true)
    (hm : sel.consideredNode = some m) (hne : m ≠ slot.ninfo) : sel.avail[c]? = some .free := by
  unfold eligible at hok
  split at hok
  · next ha => exact ha
  · -- the exceptions are for the node under consideration, or for no node
    unfold memoryException at hok
    rw [hm] at hok
    split at hok
    · simp only [Bool.and_eq_true, beq_iff_eq, Option.some.injEq] at hok
      exact absurd hok.1.1.symm hne
    · next hlatest =>
        rw [h.latest hlatest] at hm
        cases hm
  · rw [hm] at hok
    simp only [Bool.and_eq_true, beq_iff_eq, Option.some.injEq] at hok
    exact absurd hok.2.symm hne
  · cases hok

/-- What else entering CPU `c` leaves: it joins the array, and is the latest CPU unless a later
one is remembered. -/
structure EntersCpu (slots : List FirstFreeSlot) (job : PlanJob) (sel : Selection) (c n : ℕ)
    (sel' : Selection) : Prop extends Entered job sel c n sel' where
  mem_cpus : c ∈ sel'.cpuIndexes
  cpus : ∀ d ∈ sel'.cpuIndexes, d = c ∨ d ∈ sel.cpuIndexes
  kept : sel.consideredNode = some n → ∀ d ∈ sel.cpuIndexes, d ∈ sel'.cpuIndexes
  latest : sel'.nodeLatest = laterCpu slots sel.nodeLatest c
  total : sel'.totalLatest = laterCpu slots sel.totalLatest c
  start_eq : sel'.startTime = sel.startTime
  ninfo_eq : sel'.ninfoArr = sel.ninfoArr

/-- The loop body enters the CPU that way. -/
theorem entersCpu_enterCpu (slots : List FirstFreeSlot) (job : PlanJob) (sel : Selection)
    (c n : ℕ) : EntersCpu slots job sel c n (enterCpu slots (considerNode job sel c n) c) := by
  obtain ⟨attempt, kept, -, -, hcpus⟩ := enterCpu_considerNode slots job sel c n
  obtain ⟨-, -, hstart, -, hninfo⟩ := considerNode_keeps job sel c n
  have hmem : ∀ d, d ∈ (enterCpu slots (considerNode job sel c n) c).cpuIndexes ↔
      d = c ∨ d ∈ sel.cpuIndexes.take kept := by
    intro d
    rw [hcpus, (perm_insertByTime _ _ _).mem_iff, List.mem_cons]
  obtain ⟨hlatest, htotal⟩ := latest_enterCpu slots job sel c n
  refine ⟨entered_enterCpu slots job sel c n, (hmem c).mpr (Or.inl rfl), ?_, ?_, hlatest, htotal,
    hstart, hninfo⟩
  · intro d hd
    exact ((hmem d).mp hd).imp_right List.mem_of_mem_take
  · intro hn d hd
    unfold considerNode
    rw [if_neg (fun hother => hother.2 hn)]
    exact (perm_insertByTime _ _ _).mem_iff.mpr (List.mem_cons_of_mem c hd)

/-- The later one of a remembered CPU and a new one is no earlier than either. -/
theorem laterCpu_spec (slots : List FirstFreeSlot) (latest : Option ℕ) (c : ℕ) :
    ∃ l, laterCpu slots latest c = some l ∧ (l = c ∨ latest = some l) ∧
      slotTime slots c ≤ slotTime slots l ∧
      ∀ m, latest = some m → slotTime slots m ≤ slotTime slots l := by
  cases latest with
  | none => exact ⟨c, rfl, Or.inl rfl, le_rfl, fun m hm => by cases hm⟩
  | some l =>
      unfold laterCpu
      dsimp only
      split
      · next hle =>
          refine ⟨c, rfl, Or.inl rfl, le_rfl, ?_⟩
          intro m hm
          cases hm
          exact hle
      · next hlt =>
          refine ⟨l, rfl, Or.inr rfl, (not_le.mp hlt).le, ?_⟩
          intro m hm
          cases hm
          exact le_rfl

/-- Entering a CPU leaves less than a chunk tried beyond the current one. -/
theorem ScanInv.tried_entered (h : ScanInv cluster slots job wiped avail₀ chosen sel)
    (hchunk : sel.tmpCpuArr.length < job.reqPpn) {c : ℕ} {slot : FirstFreeSlot}
    (hc : ithSmallest slots sel = some c) (hok : eligible slots sel c slot = true)
    (hent : Entered job sel c slot.ninfo sel') (n : ℕ) :
    (triedSlots slots sel' n \ sel'.tmpCpuArr.toFinset).card < job.reqPpn := by
  -- what is tried and not in the chunk was tried before
  have hbefore : ∀ d ∈ triedSlots slots sel' n \ sel'.tmpCpuArr.toFinset,
      d ∈ triedSlots slots sel n := by
    intro d hd
    obtain ⟨hmem, hnot⟩ := Finset.mem_sdiff.mp hd
    rw [List.mem_toFinset] at hnot
    have hdc : d ≠ c := by
      rintro rfl
      exact hnot hent.mem_self
    obtain ⟨hnode, htried⟩ := Finset.mem_filter.mp hmem
    refine Finset.mem_filter.mpr ⟨hnode, ?_⟩
    unfold Selection.triedAt at htried ⊢
    rwa [hent.avail_other hdc] at htried
  rcases hent.chunk_cases with ⟨m, hm, hne, -, -, -⟩ | ⟨-, -, htmp, -⟩
  · by_cases hnm : m = n
    · -- the node is abandoned: all of its slots that were tried are in its chunk
      have hfree := h.free_of_other hok hm hne
      have hsub := h.tried_subset hc hfree (hnm ▸ hm)
      have hle := Finset.card_le_card (fun d hd => hsub (hbefore d hd))
      have hle' := List.toFinset_card_le sel.tmpCpuArr
      omega
    · refine lt_of_le_of_lt (Finset.card_le_card ?_) (h.tried_lt n)
      intro d hd
      have hdn := hbefore d hd
      refine Finset.mem_sdiff.mpr ⟨hdn, ?_⟩
      rw [List.mem_toFinset]
      intro hmem
      obtain ⟨-, m', hm', hnode⟩ := h.chunk d hmem
      rw [hm] at hm'
      cases hm'
      exact hnm (node_unique hnode (Finset.mem_filter.mp hdn).1)
  · refine lt_of_le_of_lt (Finset.card_le_card ?_) (h.tried_lt n)
    intro d hd
    refine Finset.mem_sdiff.mpr ⟨hbefore d hd, ?_⟩
    have hnot := (Finset.mem_sdiff.mp hd).2
    rw [List.mem_toFinset, htmp] at hnot
    rw [List.mem_toFinset]
    exact fun hmem => hnot (List.mem_append_left _ hmem)

/-- Entering a CPU keeps the invariant. -/
theorem ScanInv.entered (h : ScanInv cluster slots job wiped avail₀ chosen sel)
    (hchunk : sel.tmpCpuArr.length < job.reqPpn) {c : ℕ} {slot : FirstFreeSlot}
    (hc : ithSmallest slots sel = some c) (hslot : slots[c]? = some slot)
    (hok : eligible slots sel c slot = true)
    (hent : EntersCpu slots job sel c slot.ninfo sel') :
    ScanInv cluster slots job wiped avail₀ chosen sel' where
  toAttemptInv := h.toAttemptInv.entered hc hslot hok hent.toEntered
  chosen_length := by rw [hent.plan_eq, h.chosen_length]
  chosen_lt := h.chosen_lt
  latest := by
    obtain ⟨l, hl, -⟩ := laterCpu_spec slots sel.nodeLatest c
    intro hnone
    rw [hent.latest, hl] at hnone
    cases hnone
  total := by
    obtain ⟨l, hl, -, hself, hothers⟩ := laterCpu_spec slots sel.totalLatest c
    rw [hent.total, hl]
    intro d hd
    refine ⟨l, rfl, ?_⟩
    by_cases hdc : d = c
    · rw [hdc]
      exact hself
    · have hbefore : d ∈ sel.tmpCpuArr ∨ sel.avail[d]? = some .alreadyUsed := by
        rw [hent.avail_other hdc] at hd
        exact hd.imp_left (fun hmem => (hent.mem_other hdc hmem).1)
      obtain ⟨m, hm, hle⟩ := h.total d hbefore
      exact hle.trans (hothers m hm)
  usable := by
    intro d a ha husable
    by_cases hd : d = c
    · rw [hd, hent.avail_self (usableAt_of_eligible hok)] at ha
      cases ha
      obtain ⟨a, ha, husablea⟩ := usable_of_eligible hok
      obtain ⟨a₀, ha₀, husable₀, -⟩ := h.usable c a ha husablea
      rw [hd]
      exact ⟨a₀, ha₀, husable₀, fun huntried => absurd huntried (by simp
        [SlotAvailability.wasTried])⟩
    · rw [hent.avail_other hd] at ha
      exact h.usable d a ha husable
  used_before := by
    intro d hd
    by_cases hdc : d = c
    · rw [hdc, hent.avail_self (usableAt_of_eligible hok)] at hd
      cases hd
    · rw [hent.avail_other hdc] at hd
      exact h.used_before d hd
  touched := by
    intro d a hd husable
    by_cases hdc : d = c
    · rw [hdc]
      exact Or.inr (Or.inl (triedAt_iff.mpr ⟨_, hent.avail_self (usableAt_of_eligible hok)⟩))
    · unfold Selection.triedAt
      rw [hent.avail_other hdc]
      exact h.touched d a hd husable
  tried_lt := h.tried_entered hchunk hc hok hent.toEntered
  used_eq := by
    intro n
    rw [← h.used_eq n]
    congr 1
    refine Finset.filter_congr ?_
    intro d _
    by_cases hdc : d = c
    · -- a slot that is used may not be chosen
      obtain ⟨a, ha, husablea⟩ := usable_of_eligible hok
      rw [hdc, hent.avail_self (usableAt_of_eligible hok), ha]
      refine iff_of_false (by simp) ?_
      intro hused
      cases hused
      cases husablea
    · rw [hent.avail_other hdc]
  closed := by
    intro d n hnode hfree hprohibited
    by_cases hdc : d = c
    · rw [hdc, hent.avail_self (usableAt_of_eligible hok)] at hprohibited
      cases hprohibited
    · rw [hent.avail_other hdc] at hprohibited
      exact h.closed d n hnode hfree hprohibited
  wanted := by
    rw [hent.fixed_eq, hent.free_eq]
    exact h.wanted
  nodes := by
    rw [hent.plan_eq, hent.ninfo_eq]
    exact h.nodes

/-- A cell behind a complete chunk: it is of the chunk and used, or as before, or the node has
closed and it is prohibited. -/
theorem ChunkDone.cell {n : ℕ} {closes : Bool} (hdone : ChunkDone slots sel n closes sel')
    (d : ℕ) :
    (d ∈ sel.tmpCpuArr ∧ sel'.avail[d]? = some .alreadyUsed) ∨
      (d ∉ sel.tmpCpuArr ∧ sel'.avail[d]? = sel.avail[d]?) ∨
      (closes = true ∧ d ∈ nodeSlots slots n ∧ d ∉ sel.tmpCpuArr ∧
        sel'.avail[d]? = some .prohibitedNode ∧ sel.avail[d]? ≠ some .alreadyUsed) := by
  by_cases hd : d ∈ sel.tmpCpuArr
  · exact Or.inl ⟨hd, hdone.used d hd⟩
  · right
    by_cases hclosed : closes = true ∧ d ∈ nodeSlots slots n
    · cases hcell : sel'.avail[d]? with
      | none =>
          refine Or.inl ⟨hd, ?_⟩
          rw [List.getElem?_eq_none_iff, hdone.cells, ← List.getElem?_eq_none_iff] at hcell
          exact hcell.symm
      | some a =>
          rcases hdone.closed hclosed.1 d hd hclosed.2 a hcell with ⟨rfl, hnot⟩ | ⟨rfl, hbefore⟩
          · exact Or.inr ⟨hclosed.1, hclosed.2, hd, rfl, hnot⟩
          · exact Or.inl ⟨hd, hbefore.symm⟩
    · refine Or.inl ⟨hd, hdone.kept d hd ?_⟩
      cases closes with
      | false => exact Or.inl rfl
      | true => exact Or.inr (fun hmem => hclosed ⟨rfl, hmem⟩)

/-- What is used behind a complete chunk was used before, or is in the chunk. -/
theorem ChunkDone.used_iff {n : ℕ} {closes : Bool} (hdone : ChunkDone slots sel n closes sel')
    {d : ℕ} : sel'.avail[d]? = some .alreadyUsed ↔
      d ∈ sel.tmpCpuArr ∨ sel.avail[d]? = some .alreadyUsed := by
  rcases hdone.cell d with ⟨hd, hnow⟩ | ⟨hd, hnow⟩ | ⟨-, -, hd, hnow, hnot⟩
  · exact iff_of_true hnow (Or.inl hd)
  · rw [hnow, or_iff_right hd]
  · rw [hnow, or_iff_right hd]
    exact iff_of_false (by simp) hnot

/-- The used slots of a node behind a complete chunk. -/
theorem ScanInv.used_completed (h : ScanInv cluster slots job wiped avail₀ chosen sel)
    (hfull : sel.tmpCpuArr.length = job.reqPpn) {n : ℕ} {closes : Bool}
    (hn : sel.consideredNode = some n) (hdone : ChunkDone slots sel n closes sel') (m : ℕ) :
    (usedSlots slots sel' m).card = job.reqPpn * (chosen ++ [n]).count m := by
  have hnode : ∀ d ∈ sel.tmpCpuArr, d ∈ nodeSlots slots n := by
    intro d hd
    obtain ⟨-, n', hn', hmem⟩ := h.chunk d hd
    rw [hn] at hn'
    cases hn'
    exact hmem
  rw [List.count_append, Nat.mul_add, ← h.used_eq m]
  by_cases hnm : n = m
  · subst hnm
    have hunion : usedSlots slots sel' n = usedSlots slots sel n ∪ sel.tmpCpuArr.toFinset := by
      ext d
      unfold usedSlots
      rw [Finset.mem_union, Finset.mem_filter, Finset.mem_filter, List.mem_toFinset,
        hdone.used_iff]
      constructor
      · rintro ⟨hmem, hd | hd⟩
        · exact Or.inr hd
        · exact Or.inl ⟨hmem, hd⟩
      · rintro (⟨hmem, hd⟩ | hd)
        · exact ⟨hmem, Or.inr hd⟩
        · exact ⟨hnode d hd, Or.inl hd⟩
    have hdisjoint : Disjoint (usedSlots slots sel n) sel.tmpCpuArr.toFinset := by
      rw [Finset.disjoint_left]
      intro d hd hmem
      have hused := (Finset.mem_filter.mp hd).2
      rw [(h.chunk d (List.mem_toFinset.mp hmem)).1] at hused
      cases hused
    rw [hunion, Finset.card_union_of_disjoint hdisjoint, List.toFinset_card_of_nodup h.nodup,
      hfull, List.count_singleton_self, Nat.mul_one]
  · have hsame : usedSlots slots sel' m = usedSlots slots sel m := by
      refine Finset.filter_congr ?_
      intro d hd
      rw [hdone.used_iff, or_iff_right]
      intro hmem
      exact hnm (node_unique (hnode d hmem) hd)
    have hcount : [n].count m = 0 := by
      rw [List.count_eq_zero, List.mem_singleton]
      exact Ne.symm hnm
    rw [hsame, hcount, Nat.mul_zero, Nat.add_zero]

/-- No node has given fewer chunks behind one. -/
theorem count_le_append (chosen : List ℕ) (n m : ℕ) :
    chosen.count m ≤ (chosen ++ [n]).count m := by
  rw [List.count_append]
  exact Nat.le_add_right _ _

/-- The node of the chunk has given one more. -/
theorem count_append_self (chosen : List ℕ) (n : ℕ) :
    (chosen ++ [n]).count n = chosen.count n + 1 := by
  rw [List.count_append, List.count_singleton_self]

/-- Behind a complete chunk less than one is tried, since nothing is chosen. -/
theorem ScanInv.tried_completed (h : ScanInv cluster slots job wiped avail₀ chosen sel) {n : ℕ}
    {closes : Bool} (hdone : ChunkDone slots sel n closes sel') (m : ℕ) :
    (triedSlots slots sel' m \ sel'.tmpCpuArr.toFinset).card < job.reqPpn := by
  rw [hdone.chunk_eq, List.toFinset_nil, Finset.sdiff_empty]
  refine lt_of_le_of_lt (Finset.card_le_card ?_) (h.tried_lt m)
  intro d hd
  obtain ⟨hmem, htried⟩ := Finset.mem_filter.mp hd
  obtain ⟨a, ha⟩ := triedAt_iff.mp htried
  obtain ⟨hnot, havail, -⟩ := hdone.usable ha rfl
  refine Finset.mem_sdiff.mpr ⟨Finset.mem_filter.mpr ⟨hmem, triedAt_iff.mpr ⟨a, havail⟩⟩, ?_⟩
  rwa [List.mem_toFinset]

/-- A usable slot that is touched stays so behind a complete chunk. -/
theorem ScanInv.touched_completed (h : ScanInv cluster slots job wiped avail₀ chosen sel) {n : ℕ}
    {closes : Bool} (hdone : ChunkDone slots sel n closes sel') {d : ℕ} {a : SlotAvailability}
    (ha : avail₀[d]? = some a) (husable : a.usable = true) :
    sel'.avail[d]? = some a ∨ sel'.triedAt d = true ∨ sel'.avail[d]? = some .alreadyUsed ∨
      sel'.avail[d]? = some .prohibitedNode := by
  rcases hdone.cell d with ⟨-, hnow⟩ | ⟨-, hnow⟩ | ⟨-, -, -, hnow, -⟩
  · exact Or.inr (Or.inr (Or.inl hnow))
  · unfold Selection.triedAt
    rw [hnow]
    exact h.touched d a ha husable
  · exact Or.inr (Or.inr (Or.inr hnow))

/-- A complete chunk closes its node only if that one has given all the chunks it may. -/
theorem ScanInv.closed_completed (h : ScanInv cluster slots job wiped avail₀ chosen sel) {n : ℕ}
    {closes : Bool} (hdone : ChunkDone slots sel n closes sel')
    (hall : closes = true → chunksAllowed cluster job wiped n ≤ chosen.count n + 1) {d m : ℕ}
    (hdm : d ∈ nodeSlots slots m) (hbefore : UsableBefore avail₀ d)
    (hprohibited : sel'.avail[d]? = some .prohibitedNode) :
    m ∈ chosen ++ [n] ∧ chunksAllowed cluster job wiped m ≤ (chosen ++ [n]).count m := by
  rcases hdone.cell d with ⟨-, hnow⟩ | ⟨-, hnow⟩ | ⟨hcloses, hnode, -, -, -⟩
  · rw [hnow] at hprohibited
    cases hprohibited
  · rw [hnow] at hprohibited
    obtain ⟨hchosen, hle⟩ := h.closed d m hdm hbefore hprohibited
    exact ⟨List.mem_append_left _ hchosen, hle.trans (count_le_append chosen n m)⟩
  · -- the node closes now
    obtain rfl := node_unique hdm hnode
    refine ⟨List.mem_append_right _ (List.mem_singleton_self m), ?_⟩
    rw [count_append_self]
    exact hall hcloses

/-- A complete chunk uses one of the cells its node is fixed to. -/
theorem ScanInv.wanted_completed (h : ScanInv cluster slots job wiped avail₀ chosen sel) {n : ℕ}
    {node : NodeInfo} (hnode : cluster.nodes[n]? = some node) (hwiped : wiped = false)
    (hcells : sel'.fixedNnameArr = sel.fixedNnameArr ∧ sel'.nodePpnFree =
      (useFixedNode node.name 0 sel.fixedNnameArr sel.nodePpnFree false).2)
    {m : ℕ} {node' : NodeInfo} (hnode' : cluster.nodes[m]? = some node') :
    chunksAllowed cluster job wiped m ≤
      max 1 (demand node'.name sel'.fixedNnameArr sel'.nodePpnFree
        + (chosen ++ [n]).count m) := by
  obtain ⟨-, hthis, hothers⟩ :=
    useFixedNode_demand node.name sel.fixedNnameArr sel.nodePpnFree
  have hwanted := h.wanted hwiped m node' hnode'
  rw [hcells.1, hcells.2]
  by_cases hnm : n = m
  · subst hnm
    rw [hnode] at hnode'
    cases hnode'
    rw [count_append_self]
    omega
  · by_cases hname : node.name = node'.name
    · rw [hwiped, chunksAllowed_of_twin hnode hnode' hnm hname]
      exact le_max_left _ _
    · rw [hothers node'.name (fun heq => hname heq.symm)]
      have := count_le_append chosen n m
      omega

/-- A complete chunk keeps the invariant: its node has given one chunk more. -/
theorem ScanInv.completed (h : ScanInv cluster slots job wiped avail₀ chosen sel)
    (hfull : sel.tmpCpuArr.length = job.reqPpn) {n : ℕ} (hn : sel.consideredNode = some n)
    (hrun : completeChunk cluster slots job wiped sel n = .ok sel') :
    ∃ closes, ChunkDone slots sel n closes sel' ∧
      ScanInv cluster slots job wiped avail₀ (chosen ++ [n]) sel' := by
  have hlt : ∀ d ∈ sel.tmpCpuArr, d < sel.avail.length :=
    fun d hd => (List.getElem?_eq_some_iff.mp (h.chunk d hd).1).1
  obtain ⟨node, hnode, hdone, hcells⟩ := completeChunk_done hlt hrun
  refine ⟨_, hdone, ?_⟩
  constructor
  case toAttemptInv => exact h.toAttemptInv.completed hfull hdone
  case chosen_length =>
    rw [List.length_append, h.chosen_length, hdone.plan_eq, List.length_singleton]
  case chosen_lt =>
    intro m hm
    rcases List.mem_append.mp hm with hm | hm
    · exact h.chosen_lt m hm
    · rw [List.mem_singleton.mp hm]
      exact (List.getElem?_eq_some_iff.mp hnode).1
  case latest => exact fun _ => hdone.considered_eq
  case total =>
    intro d hd
    rw [hdone.chunk_eq, hdone.used_iff] at hd
    rw [hdone.total_eq]
    exact h.total d (hd.resolve_left List.not_mem_nil)
  case usable =>
    intro d a ha husable
    exact h.usable d a (hdone.usable ha husable).2.1 husable
  case used_before =>
    intro d hd
    rcases hdone.used_iff.mp hd with hmem | hused
    · obtain ⟨a₀, ha₀, husable, -⟩ := h.usable d _ (h.chunk d hmem).1 rfl
      exact ⟨a₀, ha₀, husable⟩
    · exact h.used_before d hused
  case touched => exact fun d a ha husable => h.touched_completed hdone ha husable
  case tried_lt => exact h.tried_completed hdone
  case used_eq => exact h.used_completed hfull hn hdone
  case closed =>
    intro d m hdm hbefore hprohibited
    refine h.closed_completed hdone ?_ hdm hbefore hprohibited
    intro hcloses
    obtain ⟨hwiped, huse⟩ := (Bool.and_eq_true _ _).mp hcloses
    have hwanted := h.wanted (by simpa using hwiped) n node hnode
    rw [(useFixedNode_demand node.name sel.fixedNnameArr sel.nodePpnFree).1 huse] at hwanted
    omega
  case wanted =>
    intro hwiped m node' hnode'
    exact h.wanted_completed hnode hwiped (hcells hwiped) hnode'
  case nodes =>
    intro i hi m hm
    rw [hdone.ninfo_eq, List.getElem?_set] at hm
    split at hm
    · split at hm
      · cases hm
        exact List.mem_append_right _ (List.mem_singleton_self n)
      · cases hm
    · refine List.mem_append_left _ (h.nodes i ?_ m hm)
      rw [hdone.plan_eq] at hi
      omega

/-! ## While chunks are missing -/

/-- Every chunk counts for one node. -/
theorem ScanInv.sum_count (h : ScanInv cluster slots job wiped avail₀ chosen sel) :
    ∑ n ∈ Finset.range cluster.nodes.length, chosen.count n = sel.planNumNodes := by
  have hsum := Multiset.sum_count_eq_card (s := Finset.range cluster.nodes.length)
    (m := (chosen : Multiset ℕ)) (fun n hn => Finset.mem_range.mpr (h.chosen_lt n hn))
  simp only [Multiset.coe_count, Multiset.coe_card] at hsum
  rw [← h.chosen_length, ← hsum]

/-- A node has given all the chunks that some of its slots make up, if these were usable, have
all been seen, and none of them may be chosen now. -/
theorem ScanInv.given_of_seen (h : ScanInv cluster slots job wiped avail₀ chosen sel)
    (hchunk : sel.tmpCpuArr.length < job.reqPpn) {n : ℕ} {seen : Finset ℕ}
    (hseen : ∀ d ∈ seen, d ∈ nodeSlots slots n ∧ ∃ a, avail₀[d]? = some a ∧ a.usable = true ∧
      sel.avail[d]? ≠ some a)
    (hstuck : ∀ d ∈ seen, ∀ slot, slots[d]? = some slot → ¬ eligible slots sel d slot = true) :
    min (chunksAllowed cluster job wiped n) (seen.card / job.reqPpn) ≤ chosen.count n := by
  by_cases hclosed : ∃ d ∈ seen, sel.avail[d]? = some .prohibitedNode
  · obtain ⟨d, hd, hprohibited⟩ := hclosed
    obtain ⟨hnode, a, ha, husable, -⟩ := hseen d hd
    exact (min_le_left _ _).trans (h.closed d n hnode ⟨a, ha, husable⟩ hprohibited).2
  · refine (min_le_right _ _).trans (Nat.lt_succ_iff.mp ?_)
    rw [Nat.div_lt_iff_lt_mul job.reqPpn_pos]
    -- a slot that is not used was tried: in the current chunk, or by less than a chunk
    obtain ⟨tried, hsub, hcard⟩ : ∃ tried : Finset ℕ,
        seen ⊆ usedSlots slots sel n ∪ tried ∧ tried.card < job.reqPpn := by
      have hcases : ∀ d ∈ seen, d ∈ usedSlots slots sel n ∨ d ∈ triedSlots slots sel n := by
        intro d hd
        obtain ⟨hnode, a, ha, husable, hnot⟩ := hseen d hd
        rcases h.touched d a ha husable with hnow | htried | hused | hprohibited
        · exact absurd hnow hnot
        · exact Or.inr (Finset.mem_filter.mpr ⟨hnode, htried⟩)
        · exact Or.inl (Finset.mem_filter.mpr ⟨hnode, hused⟩)
        · exact absurd ⟨d, hd, hprohibited⟩ hclosed
      by_cases hn : sel.consideredNode = some n
      · refine ⟨sel.tmpCpuArr.toFinset, ?_, (List.toFinset_card_le _).trans_lt hchunk⟩
        intro d hd
        rcases hcases d hd with hused | htried
        · exact Finset.mem_union_left _ hused
        · refine Finset.mem_union_right _ (List.mem_toFinset.mpr ?_)
          by_contra hnot
          obtain ⟨hnode, htriedd⟩ := Finset.mem_filter.mp htried
          obtain ⟨a, ha⟩ := triedAt_iff.mp htriedd
          obtain ⟨slot, hslot, rfl⟩ := mem_nodeSlots.mp hnode
          exact hstuck d hd slot hslot (h.eligible_again hn ha hnot)
      · refine ⟨triedSlots slots sel n \ sel.tmpCpuArr.toFinset, ?_, h.tried_lt n⟩
        intro d hd
        rcases hcases d hd with hused | htried
        · exact Finset.mem_union_left _ hused
        · refine Finset.mem_union_right _ (Finset.mem_sdiff.mpr ⟨htried, ?_⟩)
          rw [List.mem_toFinset]
          intro hmem
          obtain ⟨-, m, hm, hnode⟩ := h.chunk d hmem
          rw [node_unique hnode (Finset.mem_filter.mp htried).1] at hm
          exact hn hm
    have hle := (Finset.card_le_card hsub).trans (Finset.card_union_le _ _)
    rw [h.used_eq n, Nat.mul_comm] at hle
    rw [Nat.succ_mul]
    omega

/-- A slot that is free may be chosen. -/
theorem eligible_of_free {c : ℕ} {slot : FirstFreeSlot} (hfree : sel.avail[c]? = some .free) :
    eligible slots sel c slot = true := by
  unfold eligible
  rw [hfree]

/-! ## A pass and a run of the loop -/

/-- What one pass of the loop leaves: CPU `c` is entered, and if that completes the chunk its
node has given one chunk more and the job starts with the latest CPU. -/
inductive ScanPass (cluster : PlanCluster) (slots : List FirstFreeSlot) (job : PlanJob)
    (wiped : Bool) (avail₀ : List SlotAvailability) (chosen : List ℕ) (sel : Selection) (c : ℕ) :
    List ℕ → Selection → Prop
  | incomplete {slot : FirstFreeSlot} {sel' : Selection} (hslot : slots[c]? = some slot)
      (hent : EntersCpu slots job sel c slot.ninfo sel') :
      ScanPass cluster slots job wiped avail₀ chosen sel c chosen sel'
  | complete {slot : FirstFreeSlot} {entered sel' : Selection} {closes : Bool} {last : ℕ}
      (hslot : slots[c]? = some slot) (hent : EntersCpu slots job sel c slot.ninfo entered)
      (hinv : ScanInv cluster slots job wiped avail₀ chosen entered)
      (hfull : entered.tmpCpuArr.length = job.reqPpn)
      (hplan : entered.planNumNodes < job.reqNumNodes)
      (hdone : ChunkDone slots entered slot.ninfo closes sel')
      (hlast : entered.cpuIndexes.getLast? = some last)
      (hstart : sel'.startTime = slotTime slots last) :
      ScanPass cluster slots job wiped avail₀ chosen sel c (chosen ++ [slot.ninfo]) sel'

/-- One pass keeps the invariant. -/
theorem ScanInv.pass (h : ScanInv cluster slots job wiped avail₀ chosen sel)
    (hchunk : sel.tmpCpuArr.length < job.reqPpn) {c : ℕ} (hc : ithSmallest slots sel = some c)
    (hrun : takeCpu cluster slots job wiped sel c = .ok sel') :
    ∃ chosen', ScanPass cluster slots job wiped avail₀ chosen sel c chosen' sel' ∧
      ScanInv cluster slots job wiped avail₀ chosen' sel' ∧ sel'.tmpCpuArr.length < job.reqPpn := by
  obtain ⟨slot, hslot, hok⟩ := ithSmallest_spec hc
  have hent := entersCpu_enterCpu slots job sel c slot.ninfo
  rw [takeCpu_eq hslot rfl] at hrun
  generalize enterCpu slots (considerNode job sel c slot.ninfo) c = entered at hrun hent
  have hinv := h.entered hchunk hc hslot hok hent
  have hle : entered.tmpCpuArr.length ≤ job.reqPpn := hent.length_le.trans hchunk
  have hlength := hinv.length_eq
  split at hrun
  · next hcomplete =>
      rw [Nat.add_mul, one_mul] at hcomplete
      have hfull : entered.tmpCpuArr.length = job.reqPpn := by omega
      obtain ⟨closes, hdone, hinv'⟩ := hinv.completed hfull hent.considered_eq hrun
      obtain ⟨hplan, -, -, ⟨last, hlast, hstart⟩, -⟩ := completeChunk_spec hrun
      refine ⟨_, .complete hslot hent hinv hfull hplan hdone hlast hstart, hinv', ?_⟩
      rw [hdone.chunk_eq]
      exact job.reqPpn_pos
  · next hincomplete =>
      rw [Nat.add_mul, one_mul] at hincomplete
      obtain rfl := Except.ok.inj hrun
      exact ⟨chosen, .incomplete hslot hent, hinv, by omega⟩

/-- What holds before the loop and is kept by every pass holds in every state of the loop, with
the nodes of the complete chunks. -/
theorem LoopReaches.scanned {P : List ℕ → Selection → Prop} {sel₀ : Selection}
    (h : LoopReaches cluster slots job wiped sel₀ sel)
    (hstart : ScanInv cluster slots job wiped avail₀ [] sel₀)
    (hempty : sel₀.tmpCpuArr.length < job.reqPpn) (hP₀ : P [] sel₀)
    (hpass : ∀ {chosen chosen' : List ℕ} {sel sel' : Selection} {c : ℕ},
      LoopReaches cluster slots job wiped sel₀ sel → sel.cpuIndexes.length < job.usage →
      ithSmallest slots sel = some c → ScanInv cluster slots job wiped avail₀ chosen sel →
      sel.tmpCpuArr.length < job.reqPpn →
      ScanPass cluster slots job wiped avail₀ chosen sel c chosen' sel' →
      ScanInv cluster slots job wiped avail₀ chosen' sel' → P chosen sel → P chosen' sel') :
    ∃ chosen, ScanInv cluster slots job wiped avail₀ chosen sel ∧
      sel.tmpCpuArr.length < job.reqPpn ∧ P chosen sel := by
  induction h with
  | start => exact ⟨[], hstart, hempty, hP₀⟩
  | pass hreach hlt hc hstep ih =>
      obtain ⟨chosen, hinv, hchunk, hP⟩ := ih
      obtain ⟨chosen', hscan, hinv', hchunk'⟩ := hinv.pass hchunk hc hstep
      exact ⟨chosen', hinv', hchunk', hpass hreach hlt hc hinv hchunk hscan hinv' hP⟩

end Scan

end PlanSched
