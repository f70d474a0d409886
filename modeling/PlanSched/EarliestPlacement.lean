/-
# Whether, where and when the choice of CPUs places a job

The loop of `update_job` (`plan_operations.cpp`) places a job that shares its nodes before the
limits are looked at.  With what the nodes can give (`ReadyNodes`) this says whether it does,
where and when.

* `placeShared_ne_none`: it does not fail if the nodes can give all chunks;
* `placeShared_bound`: if the slots up to one are enough, the job starts by the time these slots
  are free, on nodes that are ready by then;
* `placeShared_earned`: if no chunk starts with a slot short of available memory, the nodes can
  give the chunks of a placed job;
* `placeShared_earliest`: then the job starts at the earliest time by which they give them.
-/
import PlanSched.ShortStarts
import PlanSched.PinnedNodes

namespace PlanSched

open CheckedRun

section Placement

variable {cluster : PlanCluster} {slots : List FirstFreeSlot} {job : PlanJob} {wiped : Bool}
  {avail₀ : List SlotAvailability} {chosen chosen' : List ℕ} {sel sel' : Selection} {c n : ℕ}

/-! ## The loop does not fail -/

/-- The marks before the loop are fresh. -/
theorem slotAvailability_fresh {slot : FirstFreeSlot} {a : SlotAvailability}
    (h : slotAvailability cluster job wiped slot = .ok a) :
    a ≠ .alreadyUsed ∧ a.wasTried = false := by
  unfold slotAvailability at h
  split at h
  · cases h
    exact ⟨by simp, rfl⟩
  · obtain ⟨node, -, h⟩ := bind_ok.mp h
    repeat' first
      | (cases pure_ok.mp h
         exact ⟨by simp, rfl⟩)
      | split at h

/-- So none is tried or used. -/
theorem freshMarks_of_mapM (havail : slots.mapM (slotAvailability cluster job wiped) = .ok avail₀) :
    FreshMarks avail₀ := by
  intro a ha
  obtain ⟨c, hc⟩ := List.getElem?_of_mem ha
  obtain ⟨slot, -, hcell⟩ := exists_of_mapM_getElem? havail hc
  exact slotAvailability_fresh hcell

/-- The invariant of the scan holds before the loop of `update_job`. -/
theorem scanInv_start
    (havail : slots.mapM (slotAvailability cluster job (wipeFixedNodes job).2) = .ok avail₀) :
    ScanInv cluster slots job (wipeFixedNodes job).2 avail₀ []
      (Selection.initial job (wipeFixedNodes job).1 avail₀) := by
  refine scanInv_initial (forall₂_of_mapM _ _ havail).length_eq.symm
    (freshMarks_of_mapM havail) ?_
  intro hwiped
  unfold wipeFixedNodes at hwiped ⊢
  split at hwiped
  · cases hwiped
  · next hnot => rw [if_neg hnot]

/-- In every state of the loop a node waits for its chunk as it does in a scan. -/
theorem LoopReaches.waited
    (havail : slots.mapM (slotAvailability cluster job (wipeFixedNodes job).2) = .ok avail₀)
    (h : LoopReaches cluster slots job (wipeFixedNodes job).2
      (Selection.initial job (wipeFixedNodes job).1 avail₀) sel) :
    ∃ chosen, ScanInv cluster slots job (wipeFixedNodes job).2 avail₀ chosen sel ∧
      sel.tmpCpuArr.length < job.reqPpn ∧
      WaitInv cluster slots job (wipeFixedNodes job).2 avail₀ chosen sel :=
  h.scanned (scanInv_start havail) job.reqPpn_pos waitInv_initial
    (fun _ _ hc hinv hchunk hpass hinv' hwait => hwait.pass hinv hchunk hc hpass hinv')

/-- The loop ends without the CPUs of the job where no slot may be chosen. -/
theorem selectCpus_stuck {sel₀ : Selection} (fuel : ℕ) : ∀ {sel : Selection},
    LoopReaches cluster slots job wiped sel₀ sel →
    selectCpus cluster slots job wiped fuel sel = .ok none →
      ∃ sel', LoopReaches cluster slots job wiped sel₀ sel' ∧
        sel'.cpuIndexes.length < job.usage ∧ ithSmallest slots sel' = none := by
  induction fuel with
  | zero =>
      intro sel _ h
      rw [selectCpus] at h
      cases h
  | succ fuel ih =>
      intro sel hreach h
      rw [selectCpus] at h
      split at h
      · next hlt =>
          split at h
          · next hnone => exact ⟨sel, hreach, hlt, hnone⟩
          · next c hc =>
              obtain ⟨sel', hstep, h⟩ := bind_ok.mp h
              exact ih (hreach.pass hlt hc hstep) h
      · cases h

/-- The choice does not fail if the nodes can give all chunks. -/
theorem placeShared_ne_none (husage : job.usage = job.reqPpn * job.reqNumNodes)
    (havail : slots.mapM (slotAvailability cluster job (wipeFixedNodes job).2) = .ok avail₀)
    {k : ℕ → ℕ} (hk : ∀ n < cluster.nodes.length,
      k n ≤ chunksAllowed cluster job (wipeFixedNodes job).2 n ∧ CanGive slots job avail₀ n (k n))
    (hsum : job.reqNumNodes ≤ ∑ n ∈ Finset.range cluster.nodes.length, k n) :
    placeShared cluster job slots ≠ .ok none := by
  intro hrun
  unfold placeShared at hrun
  obtain ⟨avail, havail', hrun⟩ := bind_ok.mp hrun
  obtain rfl := Except.ok.inj (havail.symm.trans havail')
  obtain ⟨selected, hselected, hrun⟩ := bind_ok.mp hrun
  have hnone : selected = none := by
    cases selected with
    | none => rfl
    | some sel => cases pure_ok.mp hrun
  subst hnone
  obtain ⟨sel, hreach, hlt, hstuck⟩ := selectCpus_stuck _ .start hselected
  obtain ⟨chosen, hinv, hchunk, hwait⟩ := hreach.waited havail
  -- some node has given fewer chunks than it can
  have hplan : sel.planNumNodes < job.reqNumNodes := by
    by_contra hfull
    have hmul := Nat.mul_le_mul_right job.reqPpn (not_lt.mp hfull)
    rw [hinv.length_eq, husage, Nat.mul_comm job.reqPpn] at hlt
    omega
  have hless : ∑ n ∈ Finset.range cluster.nodes.length, chosen.count n
      < ∑ n ∈ Finset.range cluster.nodes.length, k n := by
    rw [hinv.sum_count]
    omega
  obtain ⟨n, hn, hcount⟩ := Finset.exists_lt_of_sum_lt hless
  obtain ⟨hallowed, hready⟩ := hk n (Finset.mem_range.mp hn)
  exact absurd (hinv.given_of_stuck hwait hchunk
    (fun d slot hslot hok => ithSmallest_ne_none hslot hok hstuck) hallowed hready)
    (not_le.mpr hcount)

/-! ## No later than a slot with enough in front -/

/-- The slot was usable before the loop, and comes no later than `p`. -/
def UsableBy (slots : List FirstFreeSlot) (avail₀ : List SlotAvailability) (p c : ℕ) : Prop :=
  UpTo slots p c ∧ UsableBefore avail₀ c

/-- The slots up to `p` are enough: the nodes give all chunks of the job by `p`, or no usable
slot comes behind it. -/
def EnoughUpTo (cluster : PlanCluster) (slots : List FirstFreeSlot) (job : PlanJob)
    (avail₀ : List SlotAvailability) (p : ℕ) : Prop :=
  job.reqNumNodes ≤ chunksUpTo cluster slots job (wipeFixedNodes job).2 avail₀ p ∨
    ∀ (c : ℕ) (a : SlotAvailability), avail₀[c]? = some a → a.usable = true → UpTo slots p c

/-- A chunk may be taken of node `n` by `p`: the node gives one, or, where a slot short of available
memory may start a chunk, the usable slots up to `p` make one up. -/
def ReadyBy (cluster : PlanCluster) (slots : List FirstFreeSlot) (job : PlanJob)
    (avail₀ : List SlotAvailability) (p n : ℕ) : Prop :=
  GivesChunkBy slots job avail₀ p n ∨
    ((MayStartShort cluster slots job (wipeFixedNodes job).2 avail₀ ∨ ¬ TimesFit slots) ∧
      job.reqPpn ≤ (usableUpTo slots avail₀ p n).card)

/-- What the slots up to `p` bound, when they are enough: while chunks are missing the CPUs are
slots up to `p`, and the complete chunks have given the job a start by `t` and nodes that were
ready by `p`. -/
structure BoundInv (cluster : PlanCluster) (slots : List FirstFreeSlot) (job : PlanJob)
    (avail₀ : List SlotAvailability) (p : ℕ) (t : ℤ) (chosen : List ℕ) (sel : Selection) :
    Prop where
  cpus : sel.planNumNodes < job.reqNumNodes → ∀ c ∈ sel.cpuIndexes, UsableBy slots avail₀ p c
  chunk : sel.planNumNodes < job.reqNumNodes → ∀ c ∈ sel.tmpCpuArr, UsableBy slots avail₀ p c
  ready : ∀ n ∈ chosen, ReadyBy cluster slots job avail₀ p n
  start : chosen ≠ [] → sel.startTime ≤ t

/-- Entering a CPU up to `p` keeps the bounds. -/
theorem BoundInv.entered {p c n : ℕ} {t : ℤ} (h : BoundInv cluster slots job avail₀ p t chosen sel)
    (hc : sel.planNumNodes < job.reqNumNodes → UsableBy slots avail₀ p c)
    (hent : EntersCpu slots job sel c n sel') :
    BoundInv cluster slots job avail₀ p t chosen sel' where
  cpus := by
    intro hplan d hd
    rw [hent.plan_eq] at hplan
    rcases hent.cpus d hd with rfl | hd
    · exact hc hplan
    · exact h.cpus hplan d hd
  chunk := by
    intro hplan d hd
    rw [hent.plan_eq] at hplan
    by_cases hdc : d = c
    · rw [hdc]
      exact hc hplan
    · exact h.chunk hplan d (hent.mem_other hdc hd).1
  ready := h.ready
  start := by
    rw [hent.start_eq]
    exact h.start

/-- The node of a complete chunk of slots up to `p` was ready by `p`. -/
theorem BoundInv.ready_completed {p : ℕ} {t : ℤ}
    (h : BoundInv cluster slots job avail₀ p t chosen sel)
    (hinv : ScanInv cluster slots job (wipeFixedNodes job).2 avail₀ chosen sel)
    (hfull : sel.tmpCpuArr.length = job.reqPpn) (hplan : sel.planNumNodes < job.reqNumNodes)
    (hn : sel.consideredNode = some n)
    (hearn : TimesFit slots → ¬ MayStartShort cluster slots job (wipeFixedNodes job).2 avail₀ →
      Earning slots job avail₀ chosen sel) : ReadyBy cluster slots job avail₀ p n := by
  have hnode : ∀ d ∈ sel.tmpCpuArr, d ∈ nodeSlots slots n := by
    intro d hd
    obtain ⟨-, m, hm, hmem⟩ := hinv.chunk d hd
    rw [hn] at hm
    cases hm
    exact hmem
  have hcard : sel.tmpCpuArr.toFinset.card = job.reqPpn := by
    rw [List.toFinset_card_of_nodup hinv.nodup, hfull]
  by_cases hmay : MayStartShort cluster slots job (wipeFixedNodes job).2 avail₀ ∨ ¬ TimesFit slots
  · refine Or.inr ⟨hmay, hcard.ge.trans (Finset.card_le_card ?_)⟩
    intro d hd
    rw [List.mem_toFinset] at hd
    exact mem_usableUpTo.mpr ⟨hnode d hd, h.chunk hplan d hd⟩
  · -- the slots of the chunk come before the one that leads it
    rw [not_or, not_not] at hmay
    obtain ⟨g, hg, hleads⟩ := (hearn hmay.2 hmay.1 hplan).1.leads n hn
    refine Or.inl ⟨g, hleads.free, (h.chunk hplan g hg).1, hleads.free, ?_, Or.inl rfl⟩
    rw [Nat.zero_add, one_mul]
    refine hcard.ge.trans (Finset.card_le_card ?_)
    intro d hd
    rw [List.mem_toFinset] at hd
    exact hleads.taken d (hnode d hd) (Or.inl (triedAt_iff.mpr ⟨_, (hinv.chunk d hd).1⟩))

/-- One pass keeps the bounds. -/
theorem BoundInv.pass {p c : ℕ} {t : ℤ} (h : BoundInv cluster slots job avail₀ p t chosen sel)
    (henough : EnoughUpTo cluster slots job avail₀ p)
    (ht : ∀ c, UsableBy slots avail₀ p c → slotTime slots c ≤ t)
    (hwait : WaitInv cluster slots job (wipeFixedNodes job).2 avail₀ chosen sel)
    (hearn : TimesFit slots → ¬ MayStartShort cluster slots job (wipeFixedNodes job).2 avail₀ →
      Earning slots job avail₀ chosen sel)
    (hinv : ScanInv cluster slots job (wipeFixedNodes job).2 avail₀ chosen sel)
    (hchunk : sel.tmpCpuArr.length < job.reqPpn) (hc : ithSmallest slots sel = some c)
    (hpass : ScanPass cluster slots job (wipeFixedNodes job).2 avail₀ chosen sel c chosen' sel') :
    BoundInv cluster slots job avail₀ p t chosen' sel' := by
  obtain ⟨first, hslot₀, hok⟩ := ithSmallest_spec hc
  have hcby : sel.planNumNodes < job.reqNumNodes → UsableBy slots avail₀ p c := by
    intro hplan
    obtain ⟨a, ha, husable⟩ := usable_of_eligible hok
    obtain ⟨a₀, ha₀, husable₀, -⟩ := hinv.usable c a ha husable
    refine ⟨?_, a₀, ha₀, husable₀⟩
    rcases henough with hchunks | hlast
    · exact hwait.upTo_of_enough hinv hchunk hplan hchunks hc
    · exact hlast c a₀ ha₀ husable₀
  cases hpass with
  | incomplete _ hent => exact h.entered hcby hent
  | @complete slot entered _ closes last hslot hent hinv' hfull hplan hdone hlast hstart =>
      rw [hslot₀] at hslot
      cases hslot
      have hentered := h.entered hcby hent
      refine ⟨?_, ?_, ?_, ?_⟩
      · intro _ d hd
        rw [hdone.cpus_eq] at hd
        exact hentered.cpus hplan d hd
      · intro _ d hd
        rw [hdone.chunk_eq] at hd
        cases hd
      · intro n hn
        rcases List.mem_append.mp hn with hn | hn
        · exact h.ready n hn
        · rw [List.mem_singleton.mp hn]
          exact hentered.ready_completed hinv' hfull hplan hent.considered_eq
            (fun hfit hmay => (hearn hfit hmay).pass hwait hinv hchunk hc
              (.incomplete hslot₀ hent) hinv' hfit hmay)
      · intro _
        rw [hstart]
        exact ht last (hentered.cpus hplan last (List.mem_of_getLast? hlast))

/-- If the slots up to `p` are enough, the job starts by the time the usable ones are free, on
nodes that are ready by `p`. -/
theorem placeShared_bound {placed : PlanJob} {p : ℕ} {t : ℤ}
    (havail : slots.mapM (slotAvailability cluster job (wipeFixedNodes job).2) = .ok avail₀)
    (h : placeShared cluster job slots = .ok (some placed))
    (hlatest : job.reqNumNodes ≤ placed.latestNcpuIndex.length)
    (henough : EnoughUpTo cluster slots job avail₀ p)
    (ht : ∀ c, UsableBy slots avail₀ p c → slotTime slots c ≤ t) :
    placed.startTime ≤ t ∧ ∀ n, some n ∈ placed.ninfoArr.take job.reqNumNodes →
      ReadyBy cluster slots job avail₀ p n := by
  obtain ⟨avail, sel, havail', hselected, rfl⟩ := placeShared_ok h
  rw [havail] at havail'
  obtain rfl := Except.ok.inj havail'
  have hreach := selectCpus_reaches _ .start hselected
  have hloop := hreach.inv ⟨_, havail, rfl⟩
  obtain ⟨chosen, hinv, -, -, -, hbound⟩ := hreach.scanned
    (P := fun chosen sel =>
      WaitInv cluster slots job (wipeFixedNodes job).2 avail₀ chosen sel ∧
        (TimesFit slots → ¬ MayStartShort cluster slots job (wipeFixedNodes job).2 avail₀ →
          Earning slots job avail₀ chosen sel) ∧ BoundInv cluster slots job avail₀ p t chosen sel)
    (scanInv_start havail) job.reqPpn_pos
    ⟨waitInv_initial, fun _ _ => earning_initial (freshMarks_of_mapM havail),
      ⟨by simp [Selection.initial], by simp [Selection.initial], by simp, by simp⟩⟩
    (fun _ _ hc hinv hchunk hpass hinv' ⟨hwait, hearn, hbound⟩ =>
      ⟨hwait.pass hinv hchunk hc hpass hinv',
        fun hfit hmay => (hearn hfit hmay).pass hwait hinv hchunk hc hpass hinv' hfit hmay,
        hbound.pass henough ht hwait hearn hinv hchunk hc hpass⟩)
  -- the loop has completed all chunks
  have hplan : sel.planNumNodes = job.reqNumNodes := by
    refine le_antisymm hloop.nodes_le ?_
    rw [← hloop.latest_length]
    exact hlatest
  have hchosen : chosen ≠ [] := by
    rintro rfl
    have hlength := hinv.chosen_length
    have := job.reqNumNodes_pos
    rw [List.length_nil] at hlength
    omega
  refine ⟨hbound.start hchosen, ?_⟩
  intro n hn
  obtain ⟨i, hi, hget⟩ := List.mem_iff_getElem.mp hn
  rw [List.length_take] at hi
  rw [List.getElem_take] at hget
  refine hbound.ready n (hinv.nodes i ?_ n ?_)
  · rw [hplan]
    exact lt_of_lt_of_le hi (min_le_left _ _)
  · rw [List.getElem?_eq_getElem (lt_of_lt_of_le hi (min_le_right _ _)), hget]

/-! ## The nodes that were entered -/

/-- The nodes of the complete chunks are entered in their cells. -/
structure ChosenNodes (job : PlanJob) (chosen : List ℕ) (sel : Selection) : Prop where
  length_eq : sel.ninfoArr.length = job.reqNumNodes
  take_eq : sel.ninfoArr.take sel.planNumNodes = chosen.map some

/-- One pass keeps them. -/
theorem ChosenNodes.pass {c : ℕ} (h : ChosenNodes job chosen sel)
    (hpass : ScanPass cluster slots job wiped avail₀ chosen sel c chosen' sel') :
    ChosenNodes job chosen' sel' := by
  cases hpass with
  | incomplete _ hent =>
      refine ⟨?_, ?_⟩
      · rw [hent.ninfo_eq]
        exact h.length_eq
      · rw [hent.ninfo_eq, hent.plan_eq]
        exact h.take_eq
  | @complete slot entered _ closes last _ hent _ _ hplan hdone _ _ =>
      have hlt : entered.planNumNodes < entered.ninfoArr.length := by
        rw [hent.ninfo_eq, h.length_eq]
        exact hplan
      refine ⟨?_, ?_⟩
      · rw [hdone.ninfo_eq, List.length_set, hent.ninfo_eq]
        exact h.length_eq
      · -- the node of the chunk is entered behind the others
        rw [hdone.ninfo_eq, hdone.plan_eq, List.take_add_one, List.take_set_of_le le_rfl,
          List.getElem?_set_self hlt, hent.ninfo_eq, hent.plan_eq, h.take_eq, List.map_append]
        rfl

/-- As many CPUs as the job uses are all its chunks. -/
theorem plan_of_length (h : ScanInv cluster slots job wiped avail₀ chosen sel)
    (hchunk : sel.tmpCpuArr.length < job.reqPpn) (husage : job.usage = job.reqPpn * job.reqNumNodes)
    (hlength : sel.cpuIndexes.length = job.usage) :
    sel.planNumNodes = job.reqNumNodes ∧ sel.tmpCpuArr = [] := by
  have hsum := h.length_eq
  rw [hlength, husage, Nat.mul_comm] at hsum
  have hplan : sel.planNumNodes = job.reqNumNodes := by
    refine le_antisymm ?_ ?_
    · refine Nat.le_of_mul_le_mul_right ?_ job.reqPpn_pos
      omega
    · by_contra hlt
      have := Nat.mul_le_mul_right job.reqPpn (Nat.succ_le_of_lt (not_le.mp hlt))
      rw [Nat.succ_eq_add_one, Nat.add_mul, one_mul] at this
      omega
  rw [hplan] at hsum
  exact ⟨hplan, List.length_eq_zero_iff.mp (by omega)⟩

/-! ## No more than the nodes can give -/

/-- Some chunk starts with a slot that is short of available memory, because of a chosen CPU that
is free later; or the loop chooses such a slot by a time that is no `int`. -/
def StartsShort (cluster : PlanCluster) (slots : List FirstFreeSlot) (job : PlanJob) : Prop :=
  ∃ avail₀, slots.mapM (slotAvailability cluster job (wipeFixedNodes job).2) = .ok avail₀ ∧
    ∃ sel c, LoopReaches cluster slots job (wipeFixedNodes job).2
        (Selection.initial job (wipeFixedNodes job).1 avail₀) sel ∧
      sel.cpuIndexes.length < job.usage ∧ ithSmallest slots sel = some c ∧
      ¬ StaysWithChunk slots sel c

/-- No slot is short of available memory: what may be used is free. -/
def AmpleMemory (avail₀ : List SlotAvailability) : Prop :=
  ∀ a ∈ avail₀, a ≠ .notEnoughAvailableMem

/-- Then no chunk starts with such a slot. -/
theorem not_startsShort_of_ample
    (havail : slots.mapM (slotAvailability cluster job (wipeFixedNodes job).2) = .ok avail₀)
    (hample : AmpleMemory avail₀) : ¬ StartsShort cluster slots job := by
  rintro ⟨avail, havail', sel, c, hreach, -, -, hnot⟩
  obtain rfl := Except.ok.inj (havail.symm.trans havail')
  obtain ⟨chosen, hinv, -, -⟩ := hreach.waited havail
  refine hnot ?_
  intro hshort
  obtain ⟨a₀, ha₀, -, hsame⟩ := hinv.usable c _ hshort rfl
  rw [hsame rfl] at ha₀
  exact absurd rfl (hample _ (List.mem_of_getElem? ha₀))

/-- Nor where the table tells that no chunk may. -/
theorem not_startsShort_of_not_may (husage : job.usage = job.reqPpn * job.reqNumNodes)
    (havail : slots.mapM (slotAvailability cluster job (wipeFixedNodes job).2) = .ok avail₀)
    (hfit : TimesFit slots)
    (hmay : ¬ MayStartShort cluster slots job (wipeFixedNodes job).2 avail₀) :
    ¬ StartsShort cluster slots job := by
  rintro ⟨avail, havail', sel, c, hreach, hlt, hc, hnot⟩
  obtain rfl := Except.ok.inj (havail.symm.trans havail')
  obtain ⟨chosen, hinv, -, hwait, hearn⟩ := hreach.scanned
    (P := fun chosen sel =>
      WaitInv cluster slots job (wipeFixedNodes job).2 avail₀ chosen sel ∧
        Earning slots job avail₀ chosen sel) (scanInv_start havail) job.reqPpn_pos
    ⟨waitInv_initial, earning_initial (freshMarks_of_mapM havail)⟩
    (fun _ _ hc hinv hchunk hpass hinv' ⟨hwait, hearn⟩ =>
      ⟨hwait.pass hinv hchunk hc hpass hinv',
        hearn.pass hwait hinv hchunk hc hpass hinv' hfit hmay⟩)
  have hplan : sel.planNumNodes < job.reqNumNodes := by
    by_contra hfull
    have hmul := Nat.mul_le_mul_right job.reqPpn (not_lt.mp hfull)
    rw [hinv.length_eq, husage, Nat.mul_comm job.reqPpn] at hlt
    omega
  obtain ⟨slot, hslot, hok⟩ := ithSmallest_spec hc
  obtain ⟨hearn, hfront⟩ := hearn hplan
  exact hnot (hfront.staysWithChunk hearn hwait hinv hplan hfit hmay hslot hok)

/-- Nor does the only chunk of a job. -/
theorem not_startsShort_of_single (husage : job.usage = job.reqPpn * job.reqNumNodes)
    (hone : job.reqNumNodes = 1) (hfit : TimesFit slots) : ¬ StartsShort cluster slots job := by
  intro hstarts
  obtain ⟨avail, havail, -⟩ := id hstarts
  refine not_startsShort_of_not_may husage havail hfit ?_ hstarts
  rintro ⟨htwo, -⟩
  omega

/-- In every state of the loop that a job without such chunks reaches, the chunks are made of
what the nodes can give. -/
theorem LoopReaches.earned
    (havail : slots.mapM (slotAvailability cluster job (wipeFixedNodes job).2) = .ok avail₀)
    (hplain : ¬ StartsShort cluster slots job)
    (h : LoopReaches cluster slots job (wipeFixedNodes job).2
      (Selection.initial job (wipeFixedNodes job).1 avail₀) sel)
    {P : List ℕ → Selection → Prop}
    (hP₀ : P [] (Selection.initial job (wipeFixedNodes job).1 avail₀))
    (hpass : ∀ {chosen chosen' : List ℕ} {sel sel' : Selection} {c : ℕ},
      ithSmallest slots sel = some c → StaysWithChunk slots sel c →
      ScanInv cluster slots job (wipeFixedNodes job).2 avail₀ chosen sel →
      WaitInv cluster slots job (wipeFixedNodes job).2 avail₀ chosen sel →
      ScanPass cluster slots job (wipeFixedNodes job).2 avail₀ chosen sel c chosen' sel' →
      P chosen sel → P chosen' sel') :
    ∃ chosen, ScanInv cluster slots job (wipeFixedNodes job).2 avail₀ chosen sel ∧
      sel.tmpCpuArr.length < job.reqPpn ∧
      WaitInv cluster slots job (wipeFixedNodes job).2 avail₀ chosen sel ∧
      EarnInv slots job avail₀ chosen sel ∧ P chosen sel := by
  refine h.scanned (P := fun chosen sel =>
    WaitInv cluster slots job (wipeFixedNodes job).2 avail₀ chosen sel ∧
      EarnInv slots job avail₀ chosen sel ∧ P chosen sel) (scanInv_start havail) job.reqPpn_pos
    ⟨waitInv_initial, earnInv_initial (freshMarks_of_mapM havail), hP₀⟩ ?_
  intro chosen chosen' sel sel' c hreach hlt hc hinv hchunk hscan hinv' ⟨hwait, hearn, hP⟩
  have hstays : StaysWithChunk slots sel c := by
    by_contra hnot
    exact hplain ⟨avail₀, havail, sel, c, hreach, hlt, hc, hnot⟩
  exact ⟨hwait.pass hinv hchunk hc hscan hinv',
    hearn.pass hwait hinv hchunk hc hstays hscan hinv', hpass hc hstays hinv hwait hscan hP⟩

/-! ## The chunks of a job that is fixed to nodes -/

/-- The slots of node `n` that are usable. -/
def usableSlots (slots : List FirstFreeSlot) (avail₀ : List SlotAvailability) (n : ℕ) : Finset ℕ :=
  (nodeSlots slots n).filter (fun c => (avail₀[c]?).any SlotAvailability.usable = true)

/-- The chunks of node `n` are the cells with its name. -/
theorem count_completeNames {n : ℕ} {node : NodeInfo}
    (hnames : (cluster.nodes.map NodeInfo.name).Nodup) (hnode : cluster.nodes[n]? = some node)
    (hlt : ∀ m ∈ chosen, m < cluster.nodes.length)
    (htake : sel.ninfoArr.take sel.planNumNodes = chosen.map some) :
    (sel.completeNames cluster).count (some node.name) = chosen.count n := by
  have hname : ∀ m ∈ chosen, nodeName cluster (some m) = some node.name ↔ m = n := by
    intro m hm
    obtain ⟨other, hother⟩ : ∃ other, cluster.nodes[m]? = some other :=
      ⟨_, List.getElem?_eq_getElem (hlt m hm)⟩
    unfold nodeName
    rw [Option.bind_some, hother, Option.map_some, Option.some.injEq]
    constructor
    · intro heq
      by_contra hne
      exact name_ne_of_ne hnames hnode hother hne heq
    · rintro rfl
      rw [hnode] at hother
      cases hother
      rfl
  unfold Selection.completeNames
  rw [htake, List.map_map, List.count, List.count, List.countP_map]
  refine List.countP_congr ?_
  intro m hm
  simpa using hname m hm

/-- With all chunks complete a node has given as many as the job is fixed to it. -/
theorem LoopReaches.count_fixed (hshared : job.jinfo.isExclusive = false)
    (hninfo : job.ninfoArr.length = job.reqNumNodes)
    (hfixed : job.fixedNnameArr.length = job.reqNumNodes) (hcomplete : job.Complete)
    (hnames : (cluster.nodes.map NodeInfo.name).Nodup)
    (havail : slots.mapM (slotAvailability cluster job (wipeFixedNodes job).2) = .ok avail₀)
    (h : LoopReaches cluster slots job (wipeFixedNodes job).2
      (Selection.initial job (wipeFixedNodes job).1 avail₀) sel)
    (hinv : ScanInv cluster slots job (wipeFixedNodes job).2 avail₀ chosen sel)
    (hnodes : ChosenNodes job chosen sel) (hplan : sel.planNumNodes = job.reqNumNodes)
    {node : NodeInfo} (hnode : cluster.nodes[n]? = some node) :
    chosen.count n = job.fixedNnameArr.count (some node.name) := by
  rw [wipeFixedNodes_of_complete hcomplete] at havail h
  have hpinned := h.pinnedInv hnames (pinnedInv_initial hshared hninfo hfixed havail)
  rw [← (hpinned.perm hfixed hplan).count_eq (some node.name),
    count_completeNames hnames hnode hinv.chosen_lt hnodes.take_eq]

/-- A placed job that is fixed to nodes took the chunks of each from its usable slots. -/
theorem placeShared_given {placed : PlanJob} (hshared : job.jinfo.isExclusive = false)
    (husage : job.usage = job.reqPpn * job.reqNumNodes)
    (hninfo : job.ninfoArr.length = job.reqNumNodes)
    (hfixed : job.fixedNnameArr.length = job.reqNumNodes) (hcomplete : job.Complete)
    (hnames : (cluster.nodes.map NodeInfo.name).Nodup)
    (havail : slots.mapM (slotAvailability cluster job (wipeFixedNodes job).2) = .ok avail₀)
    (h : placeShared cluster job slots = .ok (some placed)) {node : NodeInfo}
    (hnode : cluster.nodes[n]? = some node) :
    job.fixedNnameArr.count (some node.name) * job.reqPpn ≤ (usableSlots slots avail₀ n).card := by
  obtain ⟨avail, sel, havail', hselected, -⟩ := placeShared_ok h
  obtain rfl := Except.ok.inj (havail.symm.trans havail')
  have hreach := selectCpus_reaches _ .start hselected
  obtain ⟨-, hlength⟩ := selectCpus_inv _ (initial_inv havail _) (Nat.zero_le _) hselected
  obtain ⟨chosen, hinv, hchunk, hnodes⟩ := hreach.scanned (P := ChosenNodes job)
    (scanInv_start havail) job.reqPpn_pos ⟨hninfo, rfl⟩ (fun _ _ _ _ _ hpass _ hP => hP.pass hpass)
  obtain ⟨hplan, -⟩ := plan_of_length hinv hchunk husage hlength
  rw [← hreach.count_fixed hshared hninfo hfixed hcomplete hnames havail hinv hnodes hplan hnode,
    Nat.mul_comm, ← hinv.used_eq n]
  refine Finset.card_le_card ?_
  intro d hd
  obtain ⟨hmem, hused⟩ := Finset.mem_filter.mp hd
  obtain ⟨a, ha, husable⟩ := hinv.used_before d hused
  refine Finset.mem_filter.mpr ⟨hmem, ?_⟩
  rw [ha]
  exact husable

/-- If no chunk starts with a slot short of available memory, every node can give them. -/
theorem placeShared_earned {placed : PlanJob} (hshared : job.jinfo.isExclusive = false)
    (husage : job.usage = job.reqPpn * job.reqNumNodes)
    (hninfo : job.ninfoArr.length = job.reqNumNodes)
    (hfixed : job.fixedNnameArr.length = job.reqNumNodes) (hcomplete : job.Complete)
    (hnames : (cluster.nodes.map NodeInfo.name).Nodup)
    (havail : slots.mapM (slotAvailability cluster job (wipeFixedNodes job).2) = .ok avail₀)
    (hplain : ¬ StartsShort cluster slots job)
    (h : placeShared cluster job slots = .ok (some placed)) {node : NodeInfo}
    (hnode : cluster.nodes[n]? = some node) :
    CanGive slots job avail₀ n (job.fixedNnameArr.count (some node.name)) := by
  obtain ⟨avail, sel, havail', hselected, -⟩ := placeShared_ok h
  obtain rfl := Except.ok.inj (havail.symm.trans havail')
  have hreach := selectCpus_reaches _ .start hselected
  obtain ⟨-, hlength⟩ := selectCpus_inv _ (initial_inv havail _) (Nat.zero_le _) hselected
  obtain ⟨chosen, hinv, hchunk, -, hearn, hnodes⟩ := hreach.earned havail hplain
    (P := ChosenNodes job) ⟨hninfo, rfl⟩ (fun _ _ _ _ hscan hP => hP.pass hscan)
  obtain ⟨hplan, -⟩ := plan_of_length hinv hchunk husage hlength
  rw [← hreach.count_fixed hshared hninfo hfixed hcomplete hnames havail hinv hnodes hplan hnode]
  exact hearn.canGive n

/-! ## No earlier than the last slot that was needed -/

/-- A job may take as many chunks of a node as it is fixed to it. -/
theorem chunksAllowed_fixed (hfixed : job.fixedNnameArr.length = job.reqNumNodes)
    (hnames : (cluster.nodes.map NodeInfo.name).Nodup) {n : ℕ} {node : NodeInfo}
    (hnode : cluster.nodes[n]? = some node) :
    chunksAllowed cluster job false n = job.fixedNnameArr.count (some node.name) := by
  have htwin : (cluster.nodes.eraseIdx n).any (fun other => decide (other.name = node.name))
      = false := by
    rw [List.any_eq_false]
    intro other hother hname
    obtain ⟨m, hne, hm⟩ := List.mem_eraseIdx_iff_getElem?.mp hother
    exact name_ne_of_ne hnames hnode hm hne (of_decide_eq_true hname)
  unfold chunksAllowed
  rw [hnode]
  dsimp only
  rw [if_neg Bool.false_ne_true, if_neg (by rw [htwin]; exact Bool.false_ne_true), ← hfixed,
    List.take_length]

/-- No node gives more chunks than it may: any number, or as many as the job is fixed to it. -/
theorem LoopReaches.count_le_allowed (hshared : job.jinfo.isExclusive = false)
    (hninfo : job.ninfoArr.length = job.reqNumNodes)
    (hfixed : job.fixedNnameArr.length = job.reqNumNodes)
    (hnames : (cluster.nodes.map NodeInfo.name).Nodup)
    (havail : slots.mapM (slotAvailability cluster job (wipeFixedNodes job).2) = .ok avail₀)
    (hreach : LoopReaches cluster slots job (wipeFixedNodes job).2
      (Selection.initial job (wipeFixedNodes job).1 avail₀) sel)
    (hinv : ScanInv cluster slots job (wipeFixedNodes job).2 avail₀ chosen sel)
    (hnodes : sel.ninfoArr.take sel.planNumNodes = chosen.map some)
    (hplan : sel.planNumNodes ≤ job.reqNumNodes) {n : ℕ} (hn : n ∈ chosen) :
    chosen.count n ≤ chunksAllowed cluster job (wipeFixedNodes job).2 n := by
  obtain ⟨node, hnode⟩ : ∃ node, cluster.nodes[n]? = some node :=
    ⟨_, List.getElem?_eq_getElem (hinv.chosen_lt n hn)⟩
  by_cases hwiped : (wipeFixedNodes job).2 = true
  · unfold chunksAllowed
    rw [hnode]
    dsimp only
    rw [if_pos hwiped]
    exact (List.count_le_length.trans hinv.chosen_length.le).trans hplan
  · have hcomplete : wipeFixedNodes job = (job.fixedNnameArr, false) := by
      unfold wipeFixedNodes at hwiped ⊢
      split at hwiped
      · exact absurd rfl hwiped
      · next hnot => rw [if_neg hnot]
    rw [show (wipeFixedNodes job).2 = false by rw [hcomplete],
      chunksAllowed_fixed hfixed hnames hnode]
    -- the names of the complete chunks are among the fixed ones
    rw [hcomplete] at havail hreach
    have hpinned := hreach.pinnedInv hnames (pinnedInv_initial hshared hninfo hfixed havail)
    have hbalance := hpinned.balance node.name
    have hcount : chosen.count n ≤ (sel.completeNames cluster).count (some node.name) := by
      unfold Selection.completeNames
      rw [hnodes, List.map_map]
      have hname : (nodeName cluster ∘ some) n = some node.name := by
        show (cluster.nodes[n]?).map NodeInfo.name = _
        rw [hnode]
        rfl
      rw [← hname]
      exact List.count_le_count_map
    omega

/-- If no chunk of a placed job starts with a slot short of available memory, there is a slot
that is free by its start, the nodes give all chunks by that slot, and each that gives one is a
node of the job. -/
theorem placeShared_reaches {placed : PlanJob} (hshared : job.jinfo.isExclusive = false)
    (husage : job.usage = job.reqPpn * job.reqNumNodes)
    (hninfo : job.ninfoArr.length = job.reqNumNodes)
    (hfixed : job.fixedNnameArr.length = job.reqNumNodes)
    (hnames : (cluster.nodes.map NodeInfo.name).Nodup)
    (havail : slots.mapM (slotAvailability cluster job (wipeFixedNodes job).2) = .ok avail₀)
    (hplain : ¬ StartsShort cluster slots job)
    (h : placeShared cluster job slots = .ok (some placed)) :
    ∃ p, job.reqNumNodes ≤ chunksUpTo cluster slots job (wipeFixedNodes job).2 avail₀ p ∧
      slotTime slots p ≤ placed.startTime ∧
      ∀ n, GivesChunkBy slots job avail₀ p n → some n ∈ placed.ninfoArr.take job.reqNumNodes := by
  obtain ⟨avail, sel, havail', hselected, rfl⟩ := placeShared_ok h
  obtain rfl := Except.ok.inj (havail.symm.trans havail')
  have hreach := selectCpus_reaches _ .start hselected
  obtain ⟨hloop, hlength⟩ := selectCpus_inv _ (initial_inv havail _) (Nat.zero_le _) hselected
  obtain ⟨chosen, hinv, hchunk, hwait, hearn, hfront, hnodes⟩ := hreach.earned havail hplain
    (P := fun chosen sel => FrontInv slots avail₀ chosen sel ∧ ChosenNodes job chosen sel)
    ⟨frontInv_initial (freshMarks_of_mapM havail), hninfo, rfl⟩
    (fun hc hstays hinv hwait hscan hP =>
      ⟨hP.1.pass hwait hinv hc hstays hscan, hP.2.pass hscan⟩)
  obtain ⟨hplan, hempty⟩ := plan_of_length hinv hchunk husage hlength
  obtain ⟨g, hg⟩ : ∃ g, Front slots avail₀ g sel := by
    refine hfront.resolve_left ?_
    rintro ⟨rfl, -⟩
    have := hinv.chosen_length
    have := job.reqNumNodes_pos
    rw [List.length_nil] at *
    omega
  refine ⟨g, ?_, ?_, ?_⟩
  · rw [← hplan, ← hinv.sum_count]
    refine Finset.sum_le_sum ?_
    intro n _
    by_cases hn : n ∈ chosen
    · obtain ⟨last, hlast, hused, hgives⟩ := hearn.given n hn
      exact le_min (hreach.count_le_allowed hshared hninfo hfixed hnames havail hinv
        hnodes.take_eq hplan.le hn) (hgives.le_chunksBy hlast (hg.behind last (Or.inr hused)))
    · rw [List.count_eq_zero.mpr hn]
      exact Nat.zero_le _
  · refine hloop.start_latest ?_ ?_ g hg.mem_cpus
    · rw [hplan]
      exact job.reqNumNodes_pos
    · rw [hlength, husage, hplan, Nat.mul_comm]
  · rintro n ⟨l, -, hup, hgives⟩
    show some n ∈ sel.ninfoArr.take job.reqNumNodes
    rw [← hplan, hnodes.take_eq]
    refine List.mem_map_of_mem ?_
    by_contra hn
    -- the loop would still be with the node
    obtain ⟨-, -, hmem⟩ := hwait.waits n 0 l hgives (fun hmem => absurd hmem hn)
      (List.count_eq_zero.mpr hn).le (hg.reached l hup)
    rw [hempty] at hmem
    cases hmem

/-! ## The earliest time -/

/-- With this many CPUs every chunk of a placed job has a latest slot. -/
theorem placeShared_latest {placed : PlanJob}
    (husage : job.usage = job.reqPpn * job.reqNumNodes)
    (h : placeShared cluster job slots = .ok (some placed)) :
    job.reqNumNodes ≤ placed.latestNcpuIndex.length := by
  obtain ⟨avail, sel, havail, hselected, rfl⟩ := placeShared_ok h
  obtain ⟨hloop, hlength⟩ := selectCpus_inv _ (initial_inv havail _) (Nat.zero_le _) hselected
  obtain ⟨chosen, hinv, hchunk, -⟩ := (selectCpus_reaches _ .start hselected).waited havail
  obtain ⟨hplan, -⟩ := plan_of_length hinv hchunk husage hlength
  exact (hloop.latest_length.trans hplan).ge

/-- A placed job starts when the last slot it needs is free: the nodes give all chunks by that
slot, and each that gives one is a node of the job. -/
theorem placeShared_exact {placed : PlanJob} (hshared : job.jinfo.isExclusive = false)
    (husage : job.usage = job.reqPpn * job.reqNumNodes)
    (hninfo : job.ninfoArr.length = job.reqNumNodes)
    (hfixed : job.fixedNnameArr.length = job.reqNumNodes)
    (hnames : (cluster.nodes.map NodeInfo.name).Nodup) (hfit : TimesFit slots)
    (havail : slots.mapM (slotAvailability cluster job (wipeFixedNodes job).2) = .ok avail₀)
    (hplain : ¬ StartsShort cluster slots job)
    (h : placeShared cluster job slots = .ok (some placed)) :
    ∃ p, job.reqNumNodes ≤ chunksUpTo cluster slots job (wipeFixedNodes job).2 avail₀ p ∧
      slotTime slots p = placed.startTime ∧
      ∀ n, GivesChunkBy slots job avail₀ p n → some n ∈ placed.ninfoArr.take job.reqNumNodes := by
  obtain ⟨p, henough, hstart, hnodes⟩ :=
    placeShared_reaches hshared husage hninfo hfixed hnames havail hplain h
  refine ⟨p, henough, le_antisymm hstart ?_, hnodes⟩
  exact (placeShared_bound havail h (placeShared_latest husage h) (Or.inl henough)
    (fun c hc => hc.1.slotTime_le hfit)).1

/-- **The earliest placement**: a job starts at the earliest time by which the nodes give all of its
chunks, if no slot short of available memory may start a chunk. -/
theorem placeShared_earliest {placed : PlanJob} (hshared : job.jinfo.isExclusive = false)
    (husage : job.usage = job.reqPpn * job.reqNumNodes)
    (hninfo : job.ninfoArr.length = job.reqNumNodes)
    (hfixed : job.fixedNnameArr.length = job.reqNumNodes)
    (hnames : (cluster.nodes.map NodeInfo.name).Nodup) (hfit : TimesFit slots)
    (havail : slots.mapM (slotAvailability cluster job (wipeFixedNodes job).2) = .ok avail₀)
    (hmay : ¬ MayStartShort cluster slots job (wipeFixedNodes job).2 avail₀)
    (h : placeShared cluster job slots = .ok (some placed)) :
    IsLeast (slotTime slots '' {p |
      job.reqNumNodes ≤ chunksUpTo cluster slots job (wipeFixedNodes job).2 avail₀ p})
      placed.startTime := by
  obtain ⟨p, henough, hstart, -⟩ := placeShared_exact hshared husage hninfo hfixed hnames hfit
    havail (not_startsShort_of_not_may husage havail hfit hmay) h
  refine ⟨⟨p, henough, hstart⟩, ?_⟩
  rintro t ⟨q, hq, rfl⟩
  exact (placeShared_bound havail h (placeShared_latest husage h) (Or.inl hq)
    (fun c hc => hc.1.slotTime_le hfit)).1

end Placement

/-- A node with three cores that are free one after another, and one with two cores that are
free later. -/
def unevenCluster : PlanCluster :=
  ⟨"zubat", [plainNode "zubat1" 3 8, plainNode "zubat2" 2 8], 5, 0, 0⟩

/-- The slots of the two nodes. -/
def unevenSlots : List FirstFreeSlot :=
  slotsAt [(0, 1000), (0, 2000), (0, 3000), (1, 4000), (1, 5000)]

/-- Four slots are free at 4000, but they make up the second chunk at 5000 only. -/
theorem placeShared_earliest_uneven :
    IsLeast (slotTime unevenSlots '' {p | 2 ≤ chunksUpTo unevenCluster unevenSlots
      (queuedJob 1 4 2 Nat.two_pos 0 600) true (List.replicate 5 .free) p}) 5000 := by
  have hrun : (placeShared unevenCluster (queuedJob 1 4 2 Nat.two_pos 0 600) unevenSlots).map
      (Option.map PlanJob.startTime) = .ok (some 5000) := by
    decide +kernel
  obtain ⟨found, hfound, hplaced⟩ := map_ok.mp hrun
  obtain ⟨placed, rfl, hstart⟩ := Option.map_eq_some_iff.mp hplaced
  rw [← hstart]
  exact placeShared_earliest rfl rfl rfl rfl (by decide) (by decide +kernel) (by decide +kernel)
    (by decide +kernel) hfound

end PlanSched
