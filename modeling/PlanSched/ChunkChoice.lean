/-
# The attempts of the choice of CPUs

Models nothing new: what the loop of `update_job` (`plan_operations.cpp`) leaves of its
variables.  It may abandon a node and come back to it, and then only a CPU that was never
tried leads back.

* `Sooner`: the order in which `ith_smallest` chooses;
* `AttemptInv`: the chunk holds what was tried in the attempt under way, and what was tried
  comes before what was not;
* `Entered`, `ChunkDone`: what entering a CPU and completing a chunk leave.
-/
import PlanSched.SlotLayout

namespace PlanSched

open CheckedRun

/-! ## The order of `ith_smallest` -/

/-- `ith_smallest` prefers slot `c` to slot `d`. -/
def Sooner (slots : List FirstFreeSlot) (c d : ℕ) : Prop :=
  toInt (slotTime slots c) < toInt (slotTime slots d) ∨
    (toInt (slotTime slots c) = toInt (slotTime slots d) ∧ c < d)

/-- No slot comes before itself, nor two before each other. -/
theorem Sooner.asymm {slots : List FirstFreeSlot} {c d : ℕ} (h : Sooner slots c d) :
    ¬ Sooner slots d c := by
  unfold Sooner at h ⊢
  omega

/-- `ith_smallest` returns the slot it prefers to all others that may be chosen. -/
theorem ithSmallest_sooner {slots : List FirstFreeSlot} {sel : Selection} {c d : ℕ}
    {slot : FirstFreeSlot} (h : ithSmallest slots sel = some c) (hd : slots[d]? = some slot)
    (hok : eligible slots sel d slot = true) : d = c ∨ Sooner slots c d := by
  have hend := ithSmallest_end slots sel
  rw [h] at hend
  cases hend with
  | found j first hfirst hokFirst hlt hleast =>
      have hbest := hleast d slot hd (by rwa [Nat.zero_add])
      rw [Nat.zero_add]
      unfold Sooner
      rw [slotTime_of_getElem? hfirst, slotTime_of_getElem? hd]
      omega

/-- An `int` is smaller than `LONG_MAX`. -/
theorem toInt_lt_LONG_MAX (x : ℤ) : toInt x < LONG_MAX := by
  have := Int.bmod_lt (x := x) (m := 2 ^ 32) (by norm_num)
  unfold toInt LONG_MAX
  omega

/-- `ith_smallest` finds a slot if one may be chosen. -/
theorem ithSmallest_ne_none {slots : List FirstFreeSlot} {sel : Selection} {d : ℕ}
    {slot : FirstFreeSlot} (hd : slots[d]? = some slot) (hok : eligible slots sel d slot = true) :
    ithSmallest slots sel ≠ none := by
  intro h
  have hend := ithSmallest_end slots sel
  rw [h] at hend
  cases hend with
  | kept hnone =>
      have hle := hnone d slot hd (by rwa [Nat.zero_add])
      exact absurd (toInt_lt_LONG_MAX slot.time) (not_lt.mpr hle)

/-! ## How often a node is wanted -/

/-- The chunks a node is still wanted for: the cells with its name that are not used. -/
def demand (name : String) : List (Option String) → List Bool → ℕ
  | fixed :: rest, free :: ppnFree =>
      (if free = true ∧ fixed = some name then 1 else 0) + demand name rest ppnFree
  | _, _ => 0

/-- Nothing is wanted without cells. -/
@[simp] theorem demand_nil (name : String) (fixed : List (Option String)) :
    demand name fixed [] = 0 := by
  cases fixed <;> rfl

/-- The demand from cell `k` on. -/
theorem demand_cons_drop (name : String) (cell : Option String) (rest : List (Option String))
    (k : ℕ) (ppnFree : List Bool) :
    demand name (cell :: rest) (ppnFree.drop k) =
      (if ppnFree[k]? = some true ∧ cell = some name then 1 else 0) +
        demand name rest (ppnFree.drop (k + 1)) := by
  rcases Nat.lt_or_ge k ppnFree.length with hk | hk
  · rw [List.drop_eq_getElem_cons hk, demand, List.getElem?_eq_getElem hk]
    simp
  · rw [List.drop_of_length_le hk, List.drop_of_length_le (by omega),
      List.getElem?_eq_none hk]
    simp

/-- After the first cell with the name, the loop looks whether there is another. -/
theorem useFixedNode_second (name : String) (ppnFree : List Bool) (rest : List (Option String)) :
    ∀ k, useFixedNode name k rest ppnFree true =
      (decide (demand name rest (ppnFree.drop k) = 0), ppnFree) := by
  induction rest with
  | nil =>
      intro k
      rw [useFixedNode]
      cases ppnFree.drop k <;> rfl
  | cons cell rest ih =>
      intro k
      rw [useFixedNode, demand_cons_drop]
      split
      · simp
      · rw [ih, Nat.zero_add]

/-- The loop over `node_ppn_free` uses up one cell with the name, and tells whether it was
the last. -/
theorem useFixedNode_first (name : String) (ppnFree : List Bool) (rest : List (Option String)) :
    ∀ k, 0 < demand name rest (ppnFree.drop k) →
      ∃ j, ppnFree[k + j]? = some true ∧ rest[j]? = some (some name) ∧
        useFixedNode name k rest ppnFree false =
          (decide (demand name rest (ppnFree.drop k) = 1), ppnFree.set (k + j) false) := by
  induction rest with
  | nil =>
      intro k hpos
      simp [demand] at hpos
  | cons cell rest ih =>
      intro k hpos
      rw [demand_cons_drop] at hpos ⊢
      rw [useFixedNode]
      split
      · next hcell =>
          refine ⟨0, hcell.1, by rw [hcell.2]; rfl, ?_⟩
          have hdrop : (ppnFree.set k false).drop (k + 1) = ppnFree.drop (k + 1) :=
            List.drop_set_of_lt (by omega)
          rw [if_neg (by simp), useFixedNode_second, hdrop, Nat.add_zero]
          simp
      · next hcell =>
          rw [if_neg hcell, Nat.zero_add] at hpos
          rw [Nat.zero_add]
          obtain ⟨j, hfree, hname, heq⟩ := ih (k + 1) hpos
          refine ⟨j + 1, ?_, hname, ?_⟩
          · rwa [Nat.add_comm j 1, ← Nat.add_assoc]
          · rw [heq, Nat.add_comm j 1, ← Nat.add_assoc]

/-- A cell that is used up is wanted once less. -/
theorem demand_set {name : String} {j : ℕ} :
    ∀ {fixed : List (Option String)} {ppnFree : List Bool}, ppnFree[j]? = some true →
      fixed[j]? = some (some name) →
      demand name fixed (ppnFree.set j false) + 1 = demand name fixed ppnFree ∧
        ∀ other, other ≠ name → demand other fixed (ppnFree.set j false) =
          demand other fixed ppnFree := by
  induction j with
  | zero =>
      intro fixed ppnFree hfree hname
      cases ppnFree with
      | nil => cases hfree
      | cons free ppnFree =>
          cases fixed with
          | nil => cases hname
          | cons cell fixed =>
              cases hfree
              cases hname
              rw [List.set_cons_zero]
              refine ⟨by simp [demand]; omega, ?_⟩
              intro other hother
              have hne : ¬ name = other := fun h => hother h.symm
              simp [demand, hne]
  | succ j ih =>
      intro fixed ppnFree hfree hname
      cases ppnFree with
      | nil => cases hfree
      | cons free ppnFree =>
          cases fixed with
          | nil => cases hname
          | cons cell fixed =>
              obtain ⟨hthis, hothers⟩ := ih hfree hname
              rw [List.set_cons_succ]
              refine ⟨by rw [demand, demand, ← hthis]; omega, ?_⟩
              intro other hother
              rw [demand, demand, hothers other hother]

/-- With all cells unused a name is wanted as often as the cells in front name it. -/
theorem demand_replicate_take (name : String) (k : ℕ) (fixed : List (Option String)) :
    demand name fixed (List.replicate k true) = (fixed.take k).count (some name) := by
  induction fixed generalizing k with
  | nil =>
      cases k <;> rfl
  | cons cell fixed ih =>
      cases k with
      | zero => rfl
      | succ k =>
          rw [List.replicate_succ, demand, ih, List.take_succ_cons, List.count_cons]
          by_cases h : cell = some name
          · simp [h, Nat.add_comm]
          · simp [h]

/-- With all cells unused, a node is wanted as often as it is named. -/
theorem demand_replicate (name : String) (fixed : List (Option String)) :
    demand name fixed (List.replicate fixed.length true) = fixed.count (some name) := by
  rw [demand_replicate_take, List.take_length]

/-! ## The CPUs of a node -/

/-- The slot was tried. -/
def SlotAvailability.wasTried : SlotAvailability → Bool
  | .tried _ => true
  | _ => false

/-- The slot may still be used. -/
def Selection.usableAt (sel : Selection) (c : ℕ) : Bool :=
  ((sel.avail[c]?).map SlotAvailability.usable).getD false

/-- The slot was tried and not used. -/
def Selection.triedAt (sel : Selection) (c : ℕ) : Bool :=
  ((sel.avail[c]?).map SlotAvailability.wasTried).getD false

/-- The slots of a node that were tried and not used. -/
def triedSlots (slots : List FirstFreeSlot) (sel : Selection) (n : ℕ) : Finset ℕ :=
  (nodeSlots slots n).filter (fun c => sel.triedAt c = true)

/-- The availability of a slot that was tried. -/
theorem triedAt_iff {sel : Selection} {c : ℕ} :
    sel.triedAt c = true ↔ ∃ a, sel.avail[c]? = some (.tried a) := by
  unfold Selection.triedAt
  cases h : sel.avail[c]? with
  | none => simp
  | some a => cases a <;> simp [SlotAvailability.wasTried]

/-- A slot that may be used has a mark that says so. -/
theorem usableAt_iff_mark {sel : Selection} {c : ℕ} :
    sel.usableAt c = true ↔ ∃ a, sel.avail[c]? = some a ∧ a.usable = true := by
  unfold Selection.usableAt
  cases h : sel.avail[c]? with
  | none => simp
  | some a => simp

/-- Only cells of the array may be used. -/
theorem lt_of_usableAt {sel : Selection} {c : ℕ} (h : sel.usableAt c = true) :
    c < sel.avail.length := by
  obtain ⟨a, ha, -⟩ := usableAt_iff_mark.mp h
  exact (List.getElem?_eq_some_iff.mp ha).1

/-! ## The variables of the loop -/

section Chunks

variable {cluster : PlanCluster} {slots : List FirstFreeSlot} {job : PlanJob}
  {names : List String} {sel sel' : Selection}

/-- What always holds of the variables of the loop: the chunk holds the slots tried in the
attempt under way, and what was tried comes before what was not. -/
structure AttemptInv (slots : List FirstFreeSlot) (job : PlanJob) (sel : Selection) : Prop where
  cells : sel.avail.length = slots.length
  attempt_le : ∀ (c a : ℕ), sel.avail[c]? = some (.tried a) → a ≤ sel.attemptCount
  current : ∀ c : ℕ, sel.avail[c]? = some (.tried sel.attemptCount) → c ∈ sel.tmpCpuArr
  chunk : ∀ c ∈ sel.tmpCpuArr, sel.avail[c]? = some (.tried sel.attemptCount) ∧
    ∃ n, sel.consideredNode = some n ∧ c ∈ nodeSlots slots n
  nodup : sel.tmpCpuArr.Nodup
  length_eq : sel.cpuIndexes.length = sel.planNumNodes * job.reqPpn + sel.tmpCpuArr.length
  order : ∀ (c d a : ℕ), sel.avail[c]? = some (.tried a) → sel.avail[d]? = some .free →
    Sooner slots c d

/-- It holds before the loop. -/
theorem attemptInv_initial {avail : List SlotAvailability} (hcells : avail.length = slots.length)
    (huntried : ∀ c a : ℕ, avail[c]? ≠ some (.tried a)) (fixedNnameArr : List (Option String)) :
    AttemptInv slots job (Selection.initial job fixedNnameArr avail) where
  cells := hcells
  attempt_le := fun c a ha => absurd ha (huntried c a)
  current := fun c ha => absurd ha (huntried c _)
  chunk := by
    intro c hc
    cases hc
  nodup := List.nodup_nil
  length_eq := by
    show 0 = 0 * job.reqPpn + 0
    omega
  order := fun c _ a ha => absurd ha (huntried c a)

/-- A slot of the node under consideration that was tried and is not in the chunk may be
chosen again. -/
theorem AttemptInv.eligible_again (h : AttemptInv slots job sel) {d a : ℕ} {slot : FirstFreeSlot}
    (hn : sel.consideredNode = some slot.ninfo) (ha : sel.avail[d]? = some (.tried a))
    (hnot : d ∉ sel.tmpCpuArr) : eligible slots sel d slot = true := by
  have hlt : a < sel.attemptCount := by
    refine lt_of_le_of_ne (h.attempt_le d a ha) ?_
    rintro rfl
    exact hnot (h.current d ha)
  unfold eligible
  rw [ha, hn]
  simp [hlt]

/-- When a slot is chosen that was never tried, the chunk holds all slots of the node under
consideration that were tried. -/
theorem AttemptInv.tried_subset (h : AttemptInv slots job sel) {c n : ℕ}
    (hc : ithSmallest slots sel = some c) (hfree : sel.avail[c]? = some .free)
    (hn : sel.consideredNode = some n) : triedSlots slots sel n ⊆ sel.tmpCpuArr.toFinset := by
  intro d hd
  obtain ⟨hnode, htried⟩ := Finset.mem_filter.mp hd
  obtain ⟨a, ha⟩ := triedAt_iff.mp htried
  obtain ⟨slot, hslot, rfl⟩ := mem_nodeSlots.mp hnode
  by_contra hnot
  rw [List.mem_toFinset] at hnot
  -- it would have been chosen before the new one
  rcases ithSmallest_sooner hc hslot (h.eligible_again hn ha hnot) with rfl | hsooner
  · rw [hfree] at ha
    cases ha
  · exact hsooner.asymm (h.order d c a ha hfree)

/-- Marking a usable slot as tried keeps what is usable. -/
theorem usableAt_set_tried {c k : ℕ} (hset : sel'.avail = sel.avail.set c (.tried k))
    (hc : sel.usableAt c = true) (d : ℕ) : sel'.usableAt d = sel.usableAt d := by
  by_cases hd : c = d
  · subst hd
    rw [hc]
    unfold Selection.usableAt
    rw [hset, List.getElem?_set_self (lt_of_usableAt hc)]
    rfl
  · unfold Selection.usableAt
    rw [hset, List.getElem?_set_ne hd]

/-- What the part of the loop body that enters CPU `c` leaves: the chunk goes on, or it
starts again with `c` when another node was under consideration. -/
structure Entered (job : PlanJob) (sel : Selection) (c n : ℕ) (sel' : Selection) : Prop where
  avail_eq : sel'.avail = sel.avail.set c (.tried sel'.attemptCount)
  considered_eq : sel'.consideredNode = some n
  plan_eq : sel'.planNumNodes = sel.planNumNodes
  free_eq : sel'.nodePpnFree = sel.nodePpnFree
  fixed_eq : sel'.fixedNnameArr = sel.fixedNnameArr
  chunk_cases : (∃ other, sel.consideredNode = some other ∧ other ≠ n ∧
      sel'.attemptCount = sel.attemptCount + 1 ∧ sel'.tmpCpuArr = [c] ∧
      sel'.cpuIndexes.length = min (sel.planNumNodes * job.reqPpn) sel.cpuIndexes.length + 1) ∨
    ((sel.consideredNode = none ∨ sel.consideredNode = some n) ∧
      sel'.attemptCount = sel.attemptCount ∧ sel'.tmpCpuArr = sel.tmpCpuArr ++ [c] ∧
      sel'.cpuIndexes.length = sel.cpuIndexes.length + 1)

/-- The loop body enters the CPU that way. -/
theorem entered_enterCpu (slots : List FirstFreeSlot) (job : PlanJob) (sel : Selection) (c n : ℕ) :
    Entered job sel c n (enterCpu slots (considerNode job sel c n) c) := by
  unfold considerNode
  split
  · next hother =>
      obtain ⟨other, hsome⟩ := Option.isSome_iff_exists.mp hother.1
      refine ⟨rfl, rfl, rfl, rfl, rfl, Or.inl ⟨other, hsome, ?_, rfl, rfl, ?_⟩⟩
      · rintro rfl
        exact hother.2 hsome
      · show (insertByTime _ _ (sel.cpuIndexes.take _)).length = _
        rw [length_insertByTime, List.length_take]
  · next hsame =>
      refine ⟨rfl, rfl, rfl, rfl, rfl, Or.inr ⟨?_, rfl, rfl, length_insertByTime _ _ _⟩⟩
      cases hconsidered : sel.consideredNode with
      | none => exact Or.inl rfl
      | some other =>
          right
          by_contra hne
          rw [hconsidered] at hsame
          exact hsame ⟨rfl, hne⟩

/-- Entering a CPU remembers the later one, of the node and of all. -/
theorem latest_enterCpu (slots : List FirstFreeSlot) (job : PlanJob) (sel : Selection)
    (c n : ℕ) :
    (enterCpu slots (considerNode job sel c n) c).nodeLatest = laterCpu slots sel.nodeLatest c ∧
      (enterCpu slots (considerNode job sel c n) c).totalLatest
        = laterCpu slots sel.totalLatest c := by
  unfold considerNode
  split
  · exact ⟨rfl, rfl⟩
  · exact ⟨rfl, rfl⟩

/-- No cell is added. -/
theorem Entered.cells {c n : ℕ} (hent : Entered job sel c n sel') :
    sel'.avail.length = sel.avail.length := by
  rw [hent.avail_eq, List.length_set]

/-- The CPU that is entered was tried in the attempt under way. -/
theorem Entered.avail_self {c n : ℕ} (hent : Entered job sel c n sel')
    (hc : sel.usableAt c = true) : sel'.avail[c]? = some (.tried sel'.attemptCount) := by
  rw [hent.avail_eq, List.getElem?_set_self (lt_of_usableAt hc)]

/-- The others keep their marks. -/
theorem Entered.avail_other {c n d : ℕ} (hent : Entered job sel c n sel') (hd : d ≠ c) :
    sel'.avail[d]? = sel.avail[d]? := by
  rw [hent.avail_eq, List.getElem?_set_ne (Ne.symm hd)]

/-- Attempts are counted upwards. -/
theorem Entered.attempt_le {c n : ℕ} (hent : Entered job sel c n sel') :
    sel.attemptCount ≤ sel'.attemptCount := by
  rcases hent.chunk_cases with ⟨-, -, -, heq, -⟩ | ⟨-, heq, -⟩
  · omega
  · exact heq.ge

/-- The CPU is in the chunk. -/
theorem Entered.mem_self {c n : ℕ} (hent : Entered job sel c n sel') : c ∈ sel'.tmpCpuArr := by
  rcases hent.chunk_cases with ⟨-, -, -, -, htmp, -⟩ | ⟨-, -, htmp, -⟩
  · rw [htmp]
    exact List.mem_singleton_self c
  · rw [htmp]
    exact List.mem_append_right _ (List.mem_singleton_self c)

/-- The others in the chunk were there before, and the chunk goes on. -/
theorem Entered.mem_other {c n d : ℕ} (hent : Entered job sel c n sel') (hdc : d ≠ c)
    (hd : d ∈ sel'.tmpCpuArr) : d ∈ sel.tmpCpuArr ∧ sel'.attemptCount = sel.attemptCount ∧
      (sel.consideredNode = none ∨ sel.consideredNode = some n) := by
  rcases hent.chunk_cases with ⟨-, -, -, -, htmp, -⟩ | ⟨hconsidered, heq, htmp, -⟩
  · rw [htmp] at hd
    exact absurd (List.mem_singleton.mp hd) hdc
  · rw [htmp] at hd
    rcases List.mem_append.mp hd with hd | hd
    · exact ⟨hd, heq, hconsidered⟩
    · exact absurd (List.mem_singleton.mp hd) hdc

/-- A new CPU is not in the chunk twice. -/
theorem Entered.nodup {c n : ℕ} (hent : Entered job sel c n sel') (h : sel.tmpCpuArr.Nodup)
    (hnew : c ∉ sel.tmpCpuArr) : sel'.tmpCpuArr.Nodup := by
  rcases hent.chunk_cases with ⟨-, -, -, -, htmp, -⟩ | ⟨-, -, htmp, -⟩
  · rw [htmp]
    exact List.nodup_singleton c
  · rw [htmp, List.nodup_append]
    refine ⟨h, List.nodup_singleton c, ?_⟩
    intro a ha b hb
    rw [List.mem_singleton.mp hb]
    rintro rfl
    exact hnew ha

/-- The chunk has one CPU more, or only the new one. -/
theorem Entered.length_le {c n : ℕ} (hent : Entered job sel c n sel') :
    sel'.tmpCpuArr.length ≤ sel.tmpCpuArr.length + 1 := by
  rcases hent.chunk_cases with ⟨-, -, -, -, htmp, -⟩ | ⟨-, -, htmp, -⟩
  · rw [htmp, List.length_singleton]
    omega
  · rw [htmp, List.length_append, List.length_singleton]

/-- A chosen CPU may be used. -/
theorem usableAt_of_eligible {c : ℕ} {slot : FirstFreeSlot}
    (hok : eligible slots sel c slot = true) : sel.usableAt c = true :=
  usableAt_iff_mark.mpr (usable_of_eligible hok)

/-- A chosen CPU is not in the chunk. -/
theorem AttemptInv.notMem_chosen (h : AttemptInv slots job sel) {c : ℕ}
    {slot : FirstFreeSlot} (hok : eligible slots sel c slot = true) : c ∉ sel.tmpCpuArr := by
  intro hmem
  unfold eligible at hok
  rw [(h.chunk c hmem).1] at hok
  simp at hok

/-- Entering a CPU keeps what always holds. -/
theorem AttemptInv.entered (h : AttemptInv slots job sel) {c : ℕ} {slot : FirstFreeSlot}
    (hc : ithSmallest slots sel = some c) (hslot : slots[c]? = some slot)
    (hok : eligible slots sel c slot = true) (hent : Entered job sel c slot.ninfo sel') :
    AttemptInv slots job sel' where
  cells := by rw [hent.cells, h.cells]
  attempt_le := by
    intro d a ha
    by_cases hd : d = c
    · rw [hd, hent.avail_self (usableAt_of_eligible hok)] at ha
      cases ha
      exact le_rfl
    · rw [hent.avail_other hd] at ha
      exact (h.attempt_le d a ha).trans hent.attempt_le
  current := by
    intro d ha
    by_cases hd : d = c
    · rw [hd]
      exact hent.mem_self
    · rw [hent.avail_other hd] at ha
      rcases hent.chunk_cases with ⟨-, -, -, heq, -⟩ | ⟨-, heq, htmp, -⟩
      · -- a new attempt has marked no other slot yet
        have hle := h.attempt_le d _ ha
        omega
      · rw [htmp]
        exact List.mem_append_left _ (h.current d (heq ▸ ha))
  chunk := by
    intro d hd
    by_cases hdc : d = c
    · subst hdc
      exact ⟨hent.avail_self (usableAt_of_eligible hok), slot.ninfo, hent.considered_eq,
        mem_nodeSlots.mpr ⟨slot, hslot, rfl⟩⟩
    · obtain ⟨hmem, heq, hconsidered⟩ := hent.mem_other hdc hd
      obtain ⟨havail, n, hn, hnode⟩ := h.chunk d hmem
      rw [hent.avail_other hdc, heq]
      refine ⟨havail, n, ?_, hnode⟩
      rcases hconsidered with hnone | hsome
      · rw [hnone] at hn
        cases hn
      · rw [hent.considered_eq, ← hsome, hn]
  nodup := hent.nodup h.nodup (h.notMem_chosen hok)
  length_eq := by
    have hlength := h.length_eq
    rcases hent.chunk_cases with ⟨-, -, -, -, htmp, hcpus⟩ | ⟨-, -, htmp, hcpus⟩
    · rw [hcpus, htmp, hent.plan_eq, List.length_singleton]
      omega
    · rw [hcpus, htmp, hent.plan_eq, List.length_append, List.length_singleton]
      omega
  order := by
    intro d e a hd he
    have hec : e ≠ c := by
      rintro rfl
      rw [hent.avail_self (usableAt_of_eligible hok)] at he
      cases he
    rw [hent.avail_other hec] at he
    by_cases hdc : d = c
    · subst hdc
      -- the chosen slot comes before all that were never tried
      have hlen : e < slots.length := h.cells ▸ (List.getElem?_eq_some_iff.mp he).1
      have hok' : eligible slots sel e slots[e] = true := by
        unfold eligible
        rw [he]
      rcases ithSmallest_sooner hc (List.getElem?_eq_getElem hlen) hok' with heq | hsooner
      · exact absurd heq hec
      · exact hsooner
    · rw [hent.avail_other hdc] at hd
      exact h.order d e a hd he

/-- Taking the CPUs of a chunk out. -/
theorem foldl_alreadyUsed_getElem? (cpus : List ℕ) (d : ℕ) :
    ∀ avail : List SlotAvailability, (∀ c ∈ cpus, c < avail.length) →
      (cpus.foldl (fun avail c => avail.set c .alreadyUsed) avail)[d]? =
        if d ∈ cpus then some .alreadyUsed else avail[d]? := by
  induction cpus with
  | nil =>
      intro avail _
      simp
  | cons c cpus ih =>
      intro avail hlt
      rw [List.foldl_cons, ih]
      · by_cases hd : d ∈ cpus
        · rw [if_pos hd, if_pos (List.mem_cons_of_mem _ hd)]
        · rw [if_neg hd]
          by_cases hdc : c = d
          · subst hdc
            rw [List.getElem?_set_self (hlt c List.mem_cons_self), if_pos List.mem_cons_self]
          · rw [List.getElem?_set_ne hdc, if_neg (by simp [hd, Ne.symm hdc])]
      · intro c' hc'
        rw [List.length_set]
        exact hlt c' (List.mem_cons_of_mem _ hc')

/-- What a complete chunk leaves: its CPUs are used, and if the node closes its other slots are
prohibited. -/
structure ChunkDone (slots : List FirstFreeSlot) (sel : Selection) (n : ℕ) (closes : Bool)
    (sel' : Selection) : Prop where
  cells : sel'.avail.length = sel.avail.length
  used : ∀ d ∈ sel.tmpCpuArr, sel'.avail[d]? = some .alreadyUsed
  kept : ∀ d : ℕ, d ∉ sel.tmpCpuArr → closes = false ∨ d ∉ nodeSlots slots n →
    sel'.avail[d]? = sel.avail[d]?
  closed : closes = true → ∀ d : ℕ, d ∉ sel.tmpCpuArr → d ∈ nodeSlots slots n →
    ∀ a, sel'.avail[d]? = some a →
      (a = .prohibitedNode ∧ sel.avail[d]? ≠ some .alreadyUsed) ∨
        (a = .alreadyUsed ∧ sel.avail[d]? = some .alreadyUsed)
  considered_eq : sel'.consideredNode = none
  latest_eq : sel'.nodeLatest = none
  total_eq : sel'.totalLatest = sel.totalLatest
  attempt_eq : sel'.attemptCount = sel.attemptCount
  chunk_eq : sel'.tmpCpuArr = []
  cpus_eq : sel'.cpuIndexes = sel.cpuIndexes
  plan_eq : sel'.planNumNodes = sel.planNumNodes + 1
  ninfo_eq : sel'.ninfoArr = sel.ninfoArr.set sel.planNumNodes (some n)

/-- The cells of the array behind a complete chunk, whose node may close. -/
theorem getElem?_chunkAvail {cpus : List ℕ} {avail : List SlotAvailability}
    (hlt : ∀ c ∈ cpus, c < avail.length) (n : ℕ) (closes : Bool) (d : ℕ) :
    (if closes = true then
        prohibitNode slots n (cpus.foldl (fun avail c => avail.set c .alreadyUsed) avail)
      else cpus.foldl (fun avail c => avail.set c .alreadyUsed) avail)[d]? =
      if d ∈ cpus then some .alreadyUsed
      else if closes = true ∧ d ∈ nodeSlots slots n then
        avail[d]?.map (fun a => if a = .alreadyUsed then a else .prohibitedNode)
      else avail[d]? := by
  have hnode : slotNode slots d = some n ↔ d ∈ nodeSlots slots n := by
    rw [mem_nodeSlots]
    unfold slotNode
    rw [Option.map_eq_some_iff]
  have hused := foldl_alreadyUsed_getElem? cpus d avail hlt
  cases closes with
  | false => simpa using hused
  | true =>
      unfold prohibitNode
      rw [if_pos rfl, List.getElem?_mapIdx, hused]
      by_cases hd : d ∈ cpus
      · simp [hd]
      · rw [if_neg hd, if_neg hd]
        by_cases hmem : d ∈ nodeSlots slots n
        · rw [if_pos ⟨rfl, hmem⟩]
          refine Option.map_congr ?_
          intro a _
          by_cases ha : a = .alreadyUsed
          · rw [if_neg (fun hnot => hnot.2 ha), if_pos ha]
          · rw [if_pos ⟨hnode.mpr hmem, ha⟩, if_neg ha]
        · rw [if_neg (fun hclosed => hmem hclosed.2)]
          cases avail[d]? with
          | none => rfl
          | some a => simp [mt hnode.mp hmem]

/-- The completion of a chunk is such a one; a job that is fixed to nodes closes a node when its
last cell is used. -/
theorem completeChunk_done {n : ℕ} {wiped : Bool} (hlt : ∀ c ∈ sel.tmpCpuArr, c < sel.avail.length)
    (h : completeChunk cluster slots job wiped sel n = .ok sel') :
    ∃ node, cluster.nodes[n]? = some node ∧
      ChunkDone slots sel n
        (!wiped && (useFixedNode node.name 0 sel.fixedNnameArr sel.nodePpnFree false).1) sel' ∧
      (wiped = false → sel'.fixedNnameArr = sel.fixedNnameArr ∧
        sel'.nodePpnFree =
          (useFixedNode node.name 0 sel.fixedNnameArr sel.nodePpnFree false).2) := by
  unfold completeChunk at h
  split at h
  · cases h
  · obtain ⟨node, hnode, h⟩ := bind_ok.mp h
    obtain ⟨last, -, h⟩ := bind_ok.mp h
    obtain ⟨latest, -, h⟩ := bind_ok.mp h
    rw [getAt_ok] at hnode
    have hsel := pure_ok.mp h
    set closes := !wiped && (useFixedNode node.name 0 sel.fixedNnameArr sel.nodePpnFree false).1
      with hcloses
    have havail : sel'.avail =
        if closes = true then
          prohibitNode slots n
            (sel.tmpCpuArr.foldl (fun avail c => avail.set c .alreadyUsed) sel.avail)
        else sel.tmpCpuArr.foldl (fun avail c => avail.set c .alreadyUsed) sel.avail := by
      rw [← hsel, hcloses]
      cases wiped <;> rfl
    refine ⟨node, hnode, ?_, ?_⟩
    · constructor
      case cells =>
        rw [havail]
        split
        · unfold prohibitNode
          rw [List.length_mapIdx, length_foldl_alreadyUsed]
        · exact length_foldl_alreadyUsed _ _
      case used =>
        intro d hd
        rw [havail, getElem?_chunkAvail hlt, if_pos hd]
      case kept =>
        intro d hd hopen
        rw [havail, getElem?_chunkAvail hlt, if_neg hd, if_neg]
        rintro ⟨hclosed, hmem⟩
        rcases hopen with hopen | hother
        · exact Bool.noConfusion (hclosed.symm.trans hopen)
        · exact hother hmem
      case closed =>
        intro hclosed d hd hmem a ha
        rw [havail, getElem?_chunkAvail hlt, if_neg hd, if_pos ⟨hclosed, hmem⟩] at ha
        obtain ⟨b, hb, rfl⟩ := Option.map_eq_some_iff.mp ha
        by_cases hused : b = .alreadyUsed
        · rw [if_pos hused]
          exact Or.inr ⟨hused, hused ▸ hb⟩
        · rw [if_neg hused, hb]
          exact Or.inl ⟨rfl, fun heq => hused (Option.some.inj heq)⟩
      all_goals rw [← hsel]
    · intro hwiped
      rw [← hsel, hwiped]
      exact ⟨rfl, rfl⟩

/-- What may be used behind the chunk could be used before, and is not in it; it is not of the
node of the chunk if that one closes. -/
theorem ChunkDone.usable {n : ℕ} {closes : Bool} (hdone : ChunkDone slots sel n closes sel')
    {d : ℕ} {a : SlotAvailability} (ha : sel'.avail[d]? = some a) (husable : a.usable = true) :
    d ∉ sel.tmpCpuArr ∧ sel.avail[d]? = some a ∧ (closes = true → d ∉ nodeSlots slots n) := by
  have hd : d ∉ sel.tmpCpuArr := by
    intro hmem
    rw [hdone.used d hmem] at ha
    cases ha
    cases husable
  have hnode : closes = true → d ∉ nodeSlots slots n := by
    intro hcloses hmem
    rcases hdone.closed hcloses d hd hmem a ha with ⟨rfl, -⟩ | ⟨rfl, -⟩ <;> cases husable
  refine ⟨hd, ?_, hnode⟩
  rw [← hdone.kept d hd ?_]
  · exact ha
  · cases closes with
    | false => exact Or.inl rfl
    | true => exact Or.inr (hnode rfl)

/-- A complete chunk keeps what always holds. -/
theorem AttemptInv.completed (h : AttemptInv slots job sel)
    (hfull : sel.tmpCpuArr.length = job.reqPpn) {n : ℕ} {closes : Bool}
    (hdone : ChunkDone slots sel n closes sel') : AttemptInv slots job sel' where
  cells := by
    rw [hdone.cells]
    exact h.cells
  attempt_le := by
    intro d a ha
    rw [hdone.attempt_eq]
    exact h.attempt_le d a (hdone.usable ha rfl).2.1
  current := by
    intro d ha
    rw [hdone.attempt_eq] at ha
    obtain ⟨hnot, havail, -⟩ := hdone.usable ha rfl
    exact absurd (h.current d havail) hnot
  chunk := by
    rw [hdone.chunk_eq]
    intro d hd
    cases hd
  nodup := by
    rw [hdone.chunk_eq]
    exact List.nodup_nil
  length_eq := by
    rw [hdone.cpus_eq, hdone.plan_eq, hdone.chunk_eq, h.length_eq, hfull, Nat.add_mul, one_mul,
      List.length_nil, Nat.add_zero]
  order := by
    intro c d a hc hd
    exact h.order c d a (hdone.usable hc rfl).2.1 (hdone.usable hd rfl).2.1

/-- What a complete chunk leaves of a job fixed to nodes: its CPUs are used, a cell with the
name of the node as well, and if it was the last one the node is prohibited. -/
structure Completed (slots : List FirstFreeSlot) (sel : Selection) (n : ℕ) (node : NodeInfo)
    (sel' : Selection) : Prop
    extends ChunkDone slots sel n (decide (demand node.name sel.fixedNnameArr sel.nodePpnFree = 1))
      sel' where
  consumed : ∃ j, sel.nodePpnFree[j]? = some true ∧
    sel.fixedNnameArr[j]? = some (some node.name) ∧
    sel'.nodePpnFree = sel.nodePpnFree.set j false
  fixed_eq : sel'.fixedNnameArr = sel.fixedNnameArr

/-- The completion of a chunk is such a one, if its node is wanted. -/
theorem completed_completeChunk {n : ℕ}
    (hlt : ∀ c ∈ sel.tmpCpuArr, c < sel.avail.length)
    (hwanted : ∀ node, cluster.nodes[n]? = some node →
      0 < demand node.name sel.fixedNnameArr sel.nodePpnFree)
    (h : completeChunk cluster slots job false sel n = .ok sel') :
    ∃ node, cluster.nodes[n]? = some node ∧ Completed slots sel n node sel' := by
  obtain ⟨node, hnode, hdone, hfixed⟩ := completeChunk_done hlt h
  obtain ⟨hfixed, hppnFree⟩ := hfixed rfl
  obtain ⟨j, hfree, hname, huse⟩ := useFixedNode_first node.name sel.nodePpnFree
    sel.fixedNnameArr 0 (hwanted node hnode)
  rw [Nat.zero_add, List.drop_zero] at huse
  rw [Nat.zero_add] at hfree
  rw [huse] at hdone hppnFree
  exact ⟨node, hnode, hdone, ⟨j, hfree, hname, hppnFree⟩, hfixed⟩

/-- The slots of two nodes are different. -/
theorem notMem_nodeSlots {c n n' : ℕ} (hc : c ∈ nodeSlots slots n) (hne : n' ≠ n) :
    c ∉ nodeSlots slots n' := by
  intro hc'
  obtain ⟨slot, hslot, rfl⟩ := mem_nodeSlots.mp hc
  obtain ⟨slot', hslot', rfl⟩ := mem_nodeSlots.mp hc'
  rw [hslot] at hslot'
  cases hslot'
  exact hne rfl

/-- Nodes of different numbers have different names. -/
theorem name_ne_of_ne (hnames : (cluster.nodes.map NodeInfo.name).Nodup) {n n' : ℕ}
    {node node' : NodeInfo} (hnode : cluster.nodes[n]? = some node)
    (hnode' : cluster.nodes[n']? = some node') (hne : n' ≠ n) : node'.name ≠ node.name := by
  intro hname
  obtain ⟨hlt, -⟩ := List.getElem?_eq_some_iff.mp hnode'
  refine hne ((List.getElem?_inj (by simpa using hlt) hnames).mp ?_)
  rw [List.getElem?_map, List.getElem?_map, hnode, hnode', Option.map_some, Option.map_some, hname]

/-- The node of a complete chunk is wanted once less, the others as often as before. -/
theorem Completed.demand_eq {n : ℕ} {node : NodeInfo}
    (hcompleted : Completed slots sel n node sel') :
    demand node.name sel.fixedNnameArr sel'.nodePpnFree + 1 =
        demand node.name sel.fixedNnameArr sel.nodePpnFree ∧
      ∀ other, other ≠ node.name → demand other sel.fixedNnameArr sel'.nodePpnFree =
        demand other sel.fixedNnameArr sel.nodePpnFree := by
  obtain ⟨j, hfree, hcell, hppnFree⟩ := hcompleted.consumed
  rw [hppnFree]
  exact demand_set hfree hcell

/-- What may be used behind the chunk could be used before, and is not in it; it is of the
node of the chunk only if that one is wanted again. -/
theorem Completed.usable_before {n d : ℕ} {node : NodeInfo}
    (hcompleted : Completed slots sel n node sel') (hd : sel'.usableAt d = true) :
    d ∉ sel.tmpCpuArr ∧ sel.usableAt d = true ∧
      (demand node.name sel.fixedNnameArr sel.nodePpnFree = 1 → d ∉ nodeSlots slots n) := by
  obtain ⟨a, ha, husable⟩ := usableAt_iff_mark.mp hd
  obtain ⟨hnot, havail, hone⟩ := hcompleted.usable ha husable
  exact ⟨hnot, usableAt_iff_mark.mpr ⟨a, havail, husable⟩, fun heq => hone (decide_eq_true heq)⟩

/-- A node whose slots may still be used is still wanted, if it was before. -/
theorem Completed.wanted (hnames : (cluster.nodes.map NodeInfo.name).Nodup) {n n' d : ℕ}
    {node node' : NodeInfo} (hnode : cluster.nodes[n]? = some node)
    (hcompleted : Completed slots sel n node sel') (hd : sel'.usableAt d = true)
    (hmem : d ∈ nodeSlots slots n') (hnode' : cluster.nodes[n']? = some node')
    (hbefore : 0 < demand node'.name sel.fixedNnameArr sel.nodePpnFree) :
    0 < demand node'.name sel.fixedNnameArr sel'.nodePpnFree := by
  obtain ⟨hthis, hothers⟩ := hcompleted.demand_eq
  obtain ⟨-, -, hone⟩ := hcompleted.usable_before hd
  by_cases hsame : n' = n
  · -- the node is still in use, so this was not the last cell with its name
    subst hsame
    rw [hnode] at hnode'
    cases hnode'
    have hmore : demand node.name sel.fixedNnameArr sel.nodePpnFree ≠ 1 :=
      fun heq => hone heq hmem
    omega
  · rw [hothers node'.name (name_ne_of_ne hnames hnode hnode' hsame)]
    exact hbefore

end Chunks

end PlanSched
