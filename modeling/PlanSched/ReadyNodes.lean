/-
# What a node can give

The loop of `update_job` (`plan_operations.cpp`) passes over a slot of a node that is short of
available memory, until it has chosen a later slot of the node: the job cannot start before
that one anyway.  So a node gives a chunk as soon as it has a free slot with enough slots
before it, and the next chunk with a later free slot that has enough slots before it for both.

`ith_smallest` lets in such slots also between two chunks, when any chosen CPU is free later.
The chunks that a node takes with their help do not follow this rule.

* `GivesBy`: the free slots of a node with which it gives its chunks, one after another;
* `WaitInv`: when such a slot is chosen, the loop stays with the node until it has its chunk;
* `ScanInv.given_of_stuck`: when no slot may be chosen, a node has given what it can give;
* `EarnInv`: as long as no slot is let in between two chunks, it has given no more.
-/
import PlanSched.ReadyChunks

namespace PlanSched

open CheckedRun

/-! ## The slots before a free one -/

/-- The times of the slots are in the range of `int`, in which `ith_smallest` compares them. -/
def TimesFit (slots : List FirstFreeSlot) : Prop := ∀ slot ∈ slots, toInt slot.time = slot.time

instance (slots : List FirstFreeSlot) : Decidable (TimesFit slots) :=
  inferInstanceAs (Decidable (∀ slot ∈ slots, toInt slot.time = slot.time))

/-- Also of those that are not in the table. -/
theorem TimesFit.toInt_slotTime {slots : List FirstFreeSlot} (hfit : TimesFit slots) (c : ℕ) :
    toInt (slotTime slots c) = slotTime slots c := by
  unfold slotTime
  cases hslot : slots[c]? with
  | none => exact toInt_of_range (by decide) (by decide)
  | some slot => exact hfit slot (List.mem_of_getElem? hslot)

/-- Then the slots up to one are free by its time. -/
theorem UpTo.slotTime_le {slots : List FirstFreeSlot} {p c : ℕ} (h : UpTo slots p c)
    (hfit : TimesFit slots) : slotTime slots c ≤ slotTime slots p := by
  rcases h with rfl | hsooner
  · exact le_rfl
  · unfold Sooner at hsooner
    rw [hfit.toInt_slotTime c, hfit.toInt_slotTime p] at hsooner
    omega

/-- And a slot that is free earlier comes before a later one. -/
theorem TimesFit.sooner {slots : List FirstFreeSlot} (hfit : TimesFit slots) {c d : ℕ}
    (h : slotTime slots c < slotTime slots d) : Sooner slots c d := by
  unfold Sooner
  rw [hfit.toInt_slotTime c, hfit.toInt_slotTime d]
  exact Or.inl h

/-- The free slots of node `n`. -/
def freeSlots (slots : List FirstFreeSlot) (avail₀ : List SlotAvailability) (n : ℕ) : Finset ℕ :=
  (nodeSlots slots n).filter (fun c => avail₀[c]? = some .free)

/-- The slots of node `n` that come no later than `last` and are free, or that are short of
available memory and free earlier than `last`; without the latter where a time does not fit
an `int`. -/
def slotsBefore (slots : List FirstFreeSlot) (avail₀ : List SlotAvailability) (last n : ℕ) :
    Finset ℕ :=
  (nodeSlots slots n).filter (fun c => UpTo slots last c ∧ (avail₀[c]? = some .free ∨
    (TimesFit slots ∧ avail₀[c]? = some .notEnoughAvailableMem ∧
      slotTime slots c < slotTime slots last)))

/-- Node `n` gives `i` chunks by `last`: it has that many free slots, one behind the other and
`last` the last one, and the first has one chunk of slots before it, the second two, and so
on. -/
def GivesBy (slots : List FirstFreeSlot) (job : PlanJob) (avail₀ : List SlotAvailability)
    (n : ℕ) : ℕ → ℕ → Prop
  | 0, _ => True
  | i + 1, last => last ∈ freeSlots slots avail₀ n ∧
      (i + 1) * job.reqPpn ≤ (slotsBefore slots avail₀ last n).card ∧
      (i = 0 ∨ ∃ l ∈ freeSlots slots avail₀ n, Sooner slots l last ∧
        GivesBy slots job avail₀ n i l)

/-- It can be computed. -/
def decidableGivesBy (slots : List FirstFreeSlot) (job : PlanJob)
    (avail₀ : List SlotAvailability) (n : ℕ) :
    ∀ i last, Decidable (GivesBy slots job avail₀ n i last)
  | 0, _ => isTrue trivial
  | i + 1, _ =>
      have := fun l => decidableGivesBy slots job avail₀ n i l
      inferInstanceAs (Decidable (_ ∧ _ ∧ (_ ∨ ∃ l ∈ freeSlots slots avail₀ n, _ ∧ _)))

instance (slots : List FirstFreeSlot) (job : PlanJob) (avail₀ : List SlotAvailability)
    (n i last : ℕ) : Decidable (GivesBy slots job avail₀ n i last) :=
  decidableGivesBy slots job avail₀ n i last

/-- Node `n` can give `k` chunks: one after another, or, if each is one CPU, from the slots
before a free one. -/
def CanGive (slots : List FirstFreeSlot) (job : PlanJob) (avail₀ : List SlotAvailability)
    (n k : ℕ) : Prop :=
  k = 0 ∨ (∃ last ∈ freeSlots slots avail₀ n, GivesBy slots job avail₀ n k last) ∨
    (job.reqPpn = 1 ∧ TimesFit slots ∧
      ∃ last ∈ freeSlots slots avail₀ n, k ≤ (slotsBefore slots avail₀ last n).card)

instance (slots : List FirstFreeSlot) (job : PlanJob) (avail₀ : List SlotAvailability) (n k : ℕ) :
    Decidable (CanGive slots job avail₀ n k) :=
  inferInstanceAs (Decidable (_ ∨ _ ∨ _))

section Before

variable {slots : List FirstFreeSlot} {job : PlanJob} {avail₀ avail₁ : List SlotAvailability}
  {n i k last : ℕ}

/-- A slot before `last` was usable before the loop. -/
theorem usable_of_slotsBefore {d : ℕ} (hd : d ∈ slotsBefore slots avail₀ last n) :
    d ∈ nodeSlots slots n ∧ UpTo slots last d ∧ ∃ a, avail₀[d]? = some a ∧ a.usable = true ∧
      (a = .free ∨ (TimesFit slots ∧ a = .notEnoughAvailableMem ∧
        slotTime slots d < slotTime slots last)) := by
  obtain ⟨hnode, hup, hfree | ⟨hfit, hshort, hlt⟩⟩ := Finset.mem_filter.mp hd
  · exact ⟨hnode, hup, .free, hfree, rfl, Or.inl rfl⟩
  · exact ⟨hnode, hup, .notEnoughAvailableMem, hshort, rfl, Or.inr ⟨hfit, rfl, hlt⟩⟩

/-- A free slot comes before itself. -/
theorem mem_slotsBefore_self (h : last ∈ freeSlots slots avail₀ n) :
    last ∈ slotsBefore slots avail₀ last n := by
  obtain ⟨hnode, hfree⟩ := Finset.mem_filter.mp h
  exact Finset.mem_filter.mpr ⟨hnode, Or.inl rfl, Or.inl hfree⟩

/-- What comes before a slot up to `p` comes before `p`. -/
theorem UpTo.slotsBefore_subset {p l : ℕ} (h : UpTo slots p l) :
    slotsBefore slots avail₀ l n ⊆ slotsBefore slots avail₀ p n := by
  intro d hd
  obtain ⟨hnode, hup, hmark⟩ := Finset.mem_filter.mp hd
  refine Finset.mem_filter.mpr ⟨hnode, h.trans hup, ?_⟩
  rcases hmark with hfree | ⟨hfit, hshort, hlt⟩
  · exact Or.inl hfree
  · exact Or.inr ⟨hfit, hshort, hlt.trans_le (h.slotTime_le hfit)⟩

/-- Where a node gives `k` chunks it gives fewer before. -/
theorem GivesBy.exists_le (h : GivesBy slots job avail₀ n k last) (hi : i < k) :
    ∃ l, GivesBy slots job avail₀ n (i + 1) l ∧ UpTo slots last l := by
  induction k generalizing last with
  | zero => exact absurd hi (Nat.not_lt_zero i)
  | succ k ih =>
      rcases Nat.lt_succ_iff_lt_or_eq.mp hi with hlt | rfl
      · obtain ⟨-, -, hzero | ⟨l, -, hsooner, hgives⟩⟩ := h
        · omega
        · obtain ⟨l', hgives', hup⟩ := ih hgives hlt
          exact ⟨l', hgives', Or.inr (hup.sooner hsooner)⟩
      · exact ⟨last, h, Or.inl rfl⟩

/-- A node gives no more chunks than there are slots. -/
theorem GivesBy.le_length (h : GivesBy slots job avail₀ n k last) : k ≤ slots.length := by
  cases k with
  | zero => exact Nat.zero_le _
  | succ k =>
      have hcard : (nodeSlots slots n).card ≤ slots.length := by
        unfold nodeSlots
        exact (Finset.card_filter_le _ _).trans (Finset.card_range _).le
      exact ((Nat.le_mul_of_pos_right _ job.reqPpn_pos).trans h.2.1).trans
        ((Finset.card_filter_le _ _).trans hcard)

/-- The marks of the other nodes do not matter, nor those that are not usable. -/
theorem slotsBefore_mono
    (hmarks : ∀ c ∈ nodeSlots slots n, ∀ a, avail₀[c]? = some a → a.usable = true →
      avail₁[c]? = some a) :
    slotsBefore slots avail₀ last n ⊆ slotsBefore slots avail₁ last n := by
  intro d hd
  obtain ⟨hnode, hup, hmark⟩ := Finset.mem_filter.mp hd
  refine Finset.mem_filter.mpr ⟨hnode, hup, ?_⟩
  rcases hmark with hfree | ⟨hfit, hshort, hlt⟩
  · exact Or.inl (hmarks d hnode _ hfree rfl)
  · exact Or.inr ⟨hfit, hmarks d hnode _ hshort rfl, hlt⟩

/-- So for the free slots. -/
theorem freeSlots_mono
    (hmarks : ∀ c ∈ nodeSlots slots n, ∀ a, avail₀[c]? = some a → a.usable = true →
      avail₁[c]? = some a) : freeSlots slots avail₀ n ⊆ freeSlots slots avail₁ n := by
  intro d hd
  obtain ⟨hnode, hfree⟩ := Finset.mem_filter.mp hd
  exact Finset.mem_filter.mpr ⟨hnode, hmarks d hnode _ hfree rfl⟩

/-- And for the chunks. -/
theorem GivesBy.mono (h : GivesBy slots job avail₀ n k last)
    (hmarks : ∀ c ∈ nodeSlots slots n, ∀ a, avail₀[c]? = some a → a.usable = true →
      avail₁[c]? = some a) : GivesBy slots job avail₁ n k last := by
  induction k generalizing last with
  | zero => trivial
  | succ k ih =>
      obtain ⟨hlast, hroom, hfirst⟩ := h
      refine ⟨freeSlots_mono hmarks hlast,
        hroom.trans (Finset.card_le_card (slotsBefore_mono hmarks)), ?_⟩
      rcases hfirst with hzero | ⟨l, hl, hsooner, hgives⟩
      · exact Or.inl hzero
      · exact Or.inr ⟨l, freeSlots_mono hmarks hl, hsooner, ih hgives⟩

/-- Then the node can give them. -/
theorem CanGive.mono (h : CanGive slots job avail₀ n k)
    (hmarks : ∀ c ∈ nodeSlots slots n, ∀ a, avail₀[c]? = some a → a.usable = true →
      avail₁[c]? = some a) : CanGive slots job avail₁ n k := by
  rcases h with hzero | ⟨last, hlast, hgives⟩ | ⟨hppn, hfit, last, hlast, hroom⟩
  · exact Or.inl hzero
  · exact Or.inr (Or.inl ⟨last, freeSlots_mono hmarks hlast, hgives.mono hmarks⟩)
  · exact Or.inr (Or.inr ⟨hppn, hfit, last, freeSlots_mono hmarks hlast,
      hroom.trans (Finset.card_le_card (slotsBefore_mono hmarks))⟩)

/-- A node that can give a chunk has the slots for it. -/
theorem CanGive.cores (h : CanGive slots job avail₀ n k) (hk : 0 < k) :
    job.reqPpn ≤ (nodeSlots slots n).card := by
  have hbefore : ∀ last, (slotsBefore slots avail₀ last n).card ≤ (nodeSlots slots n).card :=
    fun last => Finset.card_filter_le _ _
  rcases h with rfl | ⟨last, -, hgives⟩ | ⟨hppn, -, last, -, hroom⟩
  · exact absurd hk (Nat.lt_irrefl 0)
  · obtain ⟨l, ⟨-, hroom, -⟩, -⟩ := hgives.exists_le hk
    rw [Nat.zero_add, one_mul] at hroom
    exact hroom.trans (hbefore l)
  · rw [hppn]
    exact (Nat.succ_le_of_lt hk).trans (hroom.trans (hbefore last))

end Before

section Ready

variable {cluster : PlanCluster} {slots : List FirstFreeSlot} {job : PlanJob} {wiped : Bool}
  {avail₀ : List SlotAvailability} {chosen chosen' : List ℕ} {sel sel' : Selection}

/-! ## A node that waits for its chunk -/

/-- What holds besides while a node waits for a chunk: before the first CPU no latest one is
remembered, and then the latest of the chunk is; and once a free slot was chosen by which the
node gives a chunk more, the loop stays with the node. -/
structure WaitInv (cluster : PlanCluster) (slots : List FirstFreeSlot) (job : PlanJob)
    (wiped : Bool) (avail₀ : List SlotAvailability) (chosen : List ℕ) (sel : Selection) : Prop where
  first : chosen = [] → sel.tmpCpuArr = [] → sel.totalLatest = none
  latest : TimesFit slots → (sel.nodeLatest = none ∧ sel.tmpCpuArr = []) ∨
    ∃ l ∈ sel.tmpCpuArr, sel.nodeLatest = some l ∧
      ∀ d ∈ sel.tmpCpuArr, slotTime slots d ≤ slotTime slots l
  waits : ∀ n i last, GivesBy slots job avail₀ n (i + 1) last →
    (n ∈ chosen → i < chunksAllowed cluster job wiped n) → chosen.count n ≤ i →
    sel.avail[last]? ≠ some .free →
      chosen.count n = i ∧ sel.consideredNode = some n ∧ last ∈ sel.tmpCpuArr

/-- While the loop stays with the node, every slot before `last` that is neither used nor in the
chunk may be chosen. -/
theorem WaitInv.may_choose (hwait : WaitInv cluster slots job wiped avail₀ chosen sel)
    (h : ScanInv cluster slots job wiped avail₀ chosen sel) {n last d : ℕ} {slot : FirstFreeSlot}
    (hconsidered : sel.consideredNode = some n) (hlast : last ∈ sel.tmpCpuArr)
    (hopen : n ∈ chosen → chosen.count n < chunksAllowed cluster job wiped n)
    (hd : d ∈ slotsBefore slots avail₀ last n) (hnot : d ∉ sel.tmpCpuArr)
    (hunused : d ∉ usedSlots slots sel n) (hslot : slots[d]? = some slot) :
    eligible slots sel d slot = true := by
  obtain ⟨hnode, -, a, ha, husable, hmark⟩ := usable_of_slotsBefore hd
  have hninfo : slot.ninfo = n := by
    obtain ⟨slot', hslot', heq⟩ := mem_nodeSlots.mp hnode
    rw [hslot] at hslot'
    cases hslot'
    exact heq
  rcases h.touched d a ha husable with hnow | htried | hused | hprohibited
  · rcases hmark with rfl | ⟨hfit, rfl, hlt⟩
    · exact eligible_of_free hnow
    · -- the latest CPU of the chunk is no earlier than `last`
      obtain ⟨l, hl, hlatest, hall⟩ : ∃ l ∈ sel.tmpCpuArr, sel.nodeLatest = some l ∧
          ∀ d ∈ sel.tmpCpuArr, slotTime slots d ≤ slotTime slots l := by
        refine (hwait.latest hfit).resolve_left ?_
        rintro ⟨-, hempty⟩
        rw [hempty] at hlast
        cases hlast
      obtain ⟨-, m, hm, hlnode⟩ := h.chunk l hl
      rw [hconsidered] at hm
      cases hm
      obtain ⟨slotl, hslotl, hninfol⟩ := mem_nodeSlots.mp hlnode
      have hslotNode : slotNode slots l = some n := by
        unfold slotNode
        rw [hslotl, ← hninfol]
        rfl
      have htime : slot.time < slotTime slots l := by
        have hle := hall last hlast
        rw [slotTime_of_getElem? hslot] at hlt
        omega
      unfold eligible
      rw [hnow]
      dsimp only
      unfold memoryException
      rw [hlatest]
      simp [hconsidered, hslotNode, hninfo, htime]
  · obtain ⟨b, hb⟩ := triedAt_iff.mp htried
    exact h.eligible_again (by rw [hconsidered, hninfo]) hb hnot
  · exact absurd (Finset.mem_filter.mpr ⟨hnode, hused⟩) hunused
  · obtain ⟨hmem, hle⟩ := h.closed d n hnode ⟨a, ha, husable⟩ hprohibited
    exact absurd (hopen hmem) (not_lt.mpr hle)

/-- While the chunk is not complete, such a slot exists. -/
theorem WaitInv.exists_eligible (hwait : WaitInv cluster slots job wiped avail₀ chosen sel)
    (h : ScanInv cluster slots job wiped avail₀ chosen sel)
    (hchunk : sel.tmpCpuArr.length < job.reqPpn) {n last : ℕ}
    (hconsidered : sel.consideredNode = some n) (hlast : last ∈ sel.tmpCpuArr)
    (hopen : n ∈ chosen → chosen.count n < chunksAllowed cluster job wiped n)
    (hroom : (chosen.count n + 1) * job.reqPpn ≤ (slotsBefore slots avail₀ last n).card) :
    ∃ d slot, d ∈ nodeSlots slots n ∧ Sooner slots d last ∧ slots[d]? = some slot ∧
      eligible slots sel d slot = true := by
  have hlt : (usedSlots slots sel n ∪ sel.tmpCpuArr.toFinset).card
      < (slotsBefore slots avail₀ last n).card := by
    have hunion := Finset.card_union_le (usedSlots slots sel n) sel.tmpCpuArr.toFinset
    have htmp := List.toFinset_card_le sel.tmpCpuArr
    rw [h.used_eq n, Nat.mul_comm] at hunion
    rw [Nat.add_mul, one_mul] at hroom
    omega
  obtain ⟨d, hd, hnot⟩ := Finset.exists_mem_notMem_of_card_lt_card hlt
  rw [Finset.mem_union, List.mem_toFinset, not_or] at hnot
  obtain ⟨hnode, hup, -⟩ := usable_of_slotsBefore hd
  obtain ⟨slot, hslot, -⟩ := mem_nodeSlots.mp hnode
  refine ⟨d, slot, hnode, ?_, hslot,
    hwait.may_choose h hconsidered hlast hopen hd hnot.2 hnot.1 hslot⟩
  rcases hup with rfl | hsooner
  · exact absurd hlast hnot.2
  · exact hsooner

/-- A slot that was chosen, by which the node gives a chunk more, is behind a slot that may be
chosen. -/
theorem WaitInv.sooner_eligible (hwait : WaitInv cluster slots job wiped avail₀ chosen sel)
    (h : ScanInv cluster slots job wiped avail₀ chosen sel)
    (hchunk : sel.tmpCpuArr.length < job.reqPpn) {n i last : ℕ}
    (hgives : GivesBy slots job avail₀ n (i + 1) last)
    (hopen : n ∈ chosen → i < chunksAllowed cluster job wiped n) (hcount : chosen.count n ≤ i)
    (hnot : sel.avail[last]? ≠ some .free) :
    ∃ d slot, d ∈ nodeSlots slots n ∧ Sooner slots d last ∧ slots[d]? = some slot ∧
      eligible slots sel d slot = true := by
  obtain ⟨heq, hconsidered, hlast⟩ := hwait.waits n i last hgives hopen hcount hnot
  refine hwait.exists_eligible h hchunk hconsidered hlast ?_ ?_
  · rw [heq]
    exact hopen
  · rw [heq]
    exact hgives.2.1

/-- Nothing waits before the loop. -/
theorem waitInv_initial {fixed : List (Option String)} :
    WaitInv cluster slots job wiped avail₀ [] (Selection.initial job fixed avail₀) where
  first := fun _ _ => rfl
  latest := fun _ => Or.inl ⟨rfl, rfl⟩
  waits := by
    intro n i last hgives _ _ hnot
    exact absurd (Finset.mem_filter.mp hgives.1).2 hnot

/-- Entering a CPU keeps the latest one of the chunk. -/
theorem WaitInv.latest_entered (hwait : WaitInv cluster slots job wiped avail₀ chosen sel)
    (h : ScanInv cluster slots job wiped avail₀ chosen sel) {c : ℕ} {slot : FirstFreeSlot}
    (hok : eligible slots sel c slot = true)
    (hent : EntersCpu slots job sel c slot.ninfo sel') (hfit : TimesFit slots) :
    ∃ l ∈ sel'.tmpCpuArr, sel'.nodeLatest = some l ∧
      ∀ d ∈ sel'.tmpCpuArr, slotTime slots d ≤ slotTime slots l := by
  rcases hent.chunk_cases with ⟨m, hm, hne, -, htmp, -⟩ | ⟨-, -, htmp, -⟩
  · -- a node is abandoned for a slot that was never tried, which is later
    have hfree := h.free_of_other hok hm hne
    have hlater : laterCpu slots sel.nodeLatest c = some c := by
      rcases hwait.latest hfit with ⟨hnone, -⟩ | ⟨l, hl, hsome, -⟩
      · rw [hnone]
        rfl
      · have hle : slotTime slots l ≤ slotTime slots c :=
          UpTo.slotTime_le (Or.inr (h.order l c _ (h.chunk l hl).1 hfree)) hfit
        rw [hsome]
        unfold laterCpu
        dsimp only
        rw [if_pos hle]
    refine ⟨c, hent.mem_self, hent.latest.trans hlater, ?_⟩
    intro d hd
    rw [htmp, List.mem_singleton] at hd
    rw [hd]
  · obtain ⟨l, hl, hlcases, hself, hothers⟩ := laterCpu_spec slots sel.nodeLatest c
    refine ⟨l, ?_, hent.latest.trans hl, ?_⟩
    · rcases hlcases with rfl | hbefore
      · exact hent.mem_self
      · rcases hwait.latest hfit with ⟨hnone, -⟩ | ⟨l', hl', hsome, -⟩
        · rw [hnone] at hbefore
          cases hbefore
        · rw [hsome] at hbefore
          cases hbefore
          rw [htmp]
          exact List.mem_append_left _ hl'
    · intro d hd
      rw [htmp] at hd
      rcases List.mem_append.mp hd with hd | hd
      · rcases hwait.latest hfit with ⟨-, hempty⟩ | ⟨l', -, hsome, hall⟩
        · rw [hempty] at hd
          cases hd
        · exact (hall d hd).trans (hothers l' hsome)
      · rw [List.mem_singleton.mp hd]
        exact hself

/-- Entering a CPU keeps what waits. -/
theorem WaitInv.entered (hwait : WaitInv cluster slots job wiped avail₀ chosen sel)
    (h : ScanInv cluster slots job wiped avail₀ chosen sel)
    (hchunk : sel.tmpCpuArr.length < job.reqPpn) {c : ℕ} {slot : FirstFreeSlot}
    (hc : ithSmallest slots sel = some c) (hslot : slots[c]? = some slot)
    (hok : eligible slots sel c slot = true)
    (hent : EntersCpu slots job sel c slot.ninfo sel') :
    WaitInv cluster slots job wiped avail₀ chosen sel' := by
  refine ⟨?_, fun hfit => Or.inr (hwait.latest_entered h hok hent hfit), ?_⟩
  · intro _ hempty
    exact absurd (hempty ▸ hent.mem_self) List.not_mem_nil
  intro n i last hgives hopen hcount hnot
  have hcNode : c ∈ nodeSlots slots slot.ninfo := mem_nodeSlots.mpr ⟨slot, hslot, rfl⟩
  -- no slot that is chosen now comes behind one that may be chosen
  have hfirst : ∀ {i l : ℕ}, GivesBy slots job avail₀ n (i + 1) l →
      (n ∈ chosen → i < chunksAllowed cluster job wiped n) → chosen.count n ≤ i →
      sel.avail[l]? ≠ some .free → Sooner slots l c → n = slot.ninfo ∧ False := by
    intro i l hgivesl hopenl hcountl hnotl hlate
    obtain ⟨d, slotd, hd, hsooner, hslotd, hokd⟩ :=
      hwait.sooner_eligible h hchunk hgivesl hopenl hcountl hnotl
    rcases ithSmallest_sooner hc hslotd hokd with rfl | hsooner'
    · exact (hlate.asymm hsooner).elim
    · exact ((hsooner.trans hlate).asymm hsooner').elim
  by_cases hbefore : sel.avail[last]? = some .free
  · -- the slot is chosen for the first time
    have hlc : last = c := by
      by_contra hne
      exact hnot ((hent.avail_other hne).trans hbefore)
    subst hlc
    have hn : slot.ninfo = n := node_unique hcNode (Finset.mem_filter.mp hgives.1).1
    refine ⟨?_, by rw [hent.considered_eq, hn], hent.mem_self⟩
    refine le_antisymm hcount ?_
    by_contra hless
    rw [not_le] at hless
    obtain ⟨-, -, hzero | ⟨l, hl, hsooner, hgivesl⟩⟩ := hgives
    · omega
    · obtain ⟨j, rfl⟩ : ∃ j, i = j + 1 := ⟨i - 1, by omega⟩
      refine (hfirst hgivesl (fun hmem => ?_) (by omega) ?_ hsooner).2
      · have := hopen hmem
        omega
      · -- a free slot before it would have been chosen
        intro hfree
        obtain ⟨slotl, hslotl, -⟩ := mem_nodeSlots.mp (Finset.mem_filter.mp hl).1
        rcases ithSmallest_sooner hc hslotl (eligible_of_free hfree) with rfl | hsooner'
        · exact hsooner.asymm hsooner
        · exact hsooner.asymm hsooner'
  · obtain ⟨heq, hconsidered, hlast⟩ := hwait.waits n i last hgives hopen hcount hbefore
    refine ⟨heq, ?_⟩
    have hsame : n = slot.ninfo := by
      by_contra hne
      have hfree := h.free_of_other hok hconsidered hne
      have hlate := h.order last c _ (h.chunk last hlast).1 hfree
      exact (hfirst hgives hopen hcount hbefore hlate).2
    rcases hent.chunk_cases with ⟨m, hm, hne, -⟩ | ⟨-, -, htmp, -⟩
    · rw [hconsidered] at hm
      cases hm
      exact absurd hsame hne
    · rw [hent.considered_eq, htmp, ← hsame]
      exact ⟨rfl, List.mem_append_left _ hlast⟩

/-- One pass keeps what waits. -/
theorem WaitInv.pass (hwait : WaitInv cluster slots job wiped avail₀ chosen sel)
    (h : ScanInv cluster slots job wiped avail₀ chosen sel)
    (hchunk : sel.tmpCpuArr.length < job.reqPpn) {c : ℕ} (hc : ithSmallest slots sel = some c)
    (hpass : ScanPass cluster slots job wiped avail₀ chosen sel c chosen' sel')
    (h' : ScanInv cluster slots job wiped avail₀ chosen' sel') :
    WaitInv cluster slots job wiped avail₀ chosen' sel' := by
  obtain ⟨first, hfirst, hok⟩ := ithSmallest_spec hc
  cases hpass with
  | incomplete hslot hent =>
      rw [hfirst] at hslot
      cases hslot
      exact hwait.entered h hchunk hc hfirst hok hent
  | @complete slot entered _ closes last hslot hent hinv' hfull hplan hdone hlast hstart =>
      rw [hfirst] at hslot
      cases hslot
      have hentered := hwait.entered h hchunk hc hfirst hok hent
      refine ⟨fun hnone => absurd hnone (by simp),
        fun _ => Or.inl ⟨hdone.latest_eq, hdone.chunk_eq⟩, ?_⟩
      intro n i last' hgives hopen hcount hnot
      have hle := (count_le_append chosen first.ninfo n).trans hcount
      obtain ⟨hlastNode, hlastMark⟩ := Finset.mem_filter.mp hgives.1
      -- the loop was with the node of the chunk, which has given a chunk more now
      have hfree : entered.avail[last']? = some .free := by
        by_contra hbefore
        obtain ⟨heq, hconsidered, -⟩ := hentered.waits n i last' hgives
          (fun hmem => hopen (List.mem_append_left _ hmem)) hle hbefore
        rw [hent.considered_eq] at hconsidered
        obtain rfl := Option.some.inj hconsidered
        rw [count_append_self] at hcount
        omega
      rcases hdone.cell last' with ⟨hmem, -⟩ | ⟨-, hnow⟩ | ⟨-, hnode, -, hprohibited, -⟩
      · rw [(hinv'.chunk last' hmem).1] at hfree
        cases hfree
      · exact absurd (hnow.trans hfree) hnot
      · -- a node closes only when it has given all chunks
        obtain ⟨hmem, hall⟩ := h'.closed last' n hlastNode ⟨_, hlastMark, rfl⟩ hprohibited
        have := hopen hmem
        omega

/-! ## While chunks are missing -/

/-- How many chunks node `n` gives by `p`. -/
def chunksBy (slots : List FirstFreeSlot) (job : PlanJob) (avail₀ : List SlotAvailability)
    (p n : ℕ) : ℕ :=
  Nat.findGreatest (fun i => ∃ l ∈ freeSlots slots avail₀ n, UpTo slots p l ∧
    GivesBy slots job avail₀ n i l) slots.length

/-- The chunks that all nodes give by `p`, no node more than it may. -/
def chunksUpTo (cluster : PlanCluster) (slots : List FirstFreeSlot) (job : PlanJob)
    (wiped : Bool) (avail₀ : List SlotAvailability) (p : ℕ) : ℕ :=
  ∑ n ∈ Finset.range cluster.nodes.length,
    min (chunksAllowed cluster job wiped n) (chunksBy slots job avail₀ p n)

/-- If the slot chosen next comes behind `p`, a node has given all the chunks it gives by `p`. -/
theorem WaitInv.chunks_given (hwait : WaitInv cluster slots job wiped avail₀ chosen sel)
    (h : ScanInv cluster slots job wiped avail₀ chosen sel)
    (hchunk : sel.tmpCpuArr.length < job.reqPpn) {p : ℕ}
    (hbehind : ∀ (d : ℕ) (slot : FirstFreeSlot), slots[d]? = some slot →
      eligible slots sel d slot = true → ¬ UpTo slots p d) (n : ℕ) :
    min (chunksAllowed cluster job wiped n) (chunksBy slots job avail₀ p n)
      ≤ chosen.count n := by
  by_contra hless
  rw [not_le, lt_min_iff] at hless
  obtain ⟨hopen, hmore⟩ := hless
  obtain ⟨l, -, hup, hgives⟩ := Nat.findGreatest_of_ne_zero rfl (Nat.ne_zero_of_lt hmore)
  obtain ⟨last, hgives', hup'⟩ := hgives.exists_le hmore
  have hlast : UpTo slots p last := hup.trans hup'
  have hnot : sel.avail[last]? ≠ some .free := by
    intro hfree
    obtain ⟨slot, hslot, -⟩ := mem_nodeSlots.mp (Finset.mem_filter.mp hgives'.1).1
    exact hbehind last slot hslot (eligible_of_free hfree) hlast
  -- a slot before it may be chosen
  obtain ⟨d, slot, -, hsooner, hslot, hok⟩ :=
    hwait.sooner_eligible h hchunk hgives' (fun _ => hopen) le_rfl hnot
  exact hbehind d slot hslot hok (hlast.of_sooner hsooner)

/-- While chunks are missing, the slot chosen next is one up to `p`, if the nodes give all
chunks by `p`. -/
theorem WaitInv.upTo_of_enough (hwait : WaitInv cluster slots job wiped avail₀ chosen sel)
    (h : ScanInv cluster slots job wiped avail₀ chosen sel)
    (hchunk : sel.tmpCpuArr.length < job.reqPpn) (hplan : sel.planNumNodes < job.reqNumNodes)
    {p : ℕ} (henough : job.reqNumNodes ≤ chunksUpTo cluster slots job wiped avail₀ p) {c : ℕ}
    (hc : ithSmallest slots sel = some c) : UpTo slots p c := by
  by_contra hnot
  have hbehind : ∀ (d : ℕ) (slot : FirstFreeSlot), slots[d]? = some slot →
      eligible slots sel d slot = true → ¬ UpTo slots p d := by
    intro d slot hslot hok hd
    rcases ithSmallest_sooner hc hslot hok with rfl | hsooner
    · exact hnot hd
    · exact hnot (hd.of_sooner hsooner)
  have hsum : chunksUpTo cluster slots job wiped avail₀ p
      ≤ ∑ n ∈ Finset.range cluster.nodes.length, chosen.count n :=
    Finset.sum_le_sum (fun n _ => hwait.chunks_given h hchunk hbehind n)
  rw [h.sum_count] at hsum
  omega

/-! ## What a node has given in the end -/

/-- No slot may be chosen. -/
def Stuck (slots : List FirstFreeSlot) (sel : Selection) : Prop :=
  ∀ (d : ℕ) (slot : FirstFreeSlot), slots[d]? = some slot → ¬ eligible slots sel d slot = true

/-- Then no free slot is left. -/
theorem Stuck.no_free (hstuck : Stuck slots sel) {n d : ℕ} (hd : d ∈ nodeSlots slots n) :
    sel.avail[d]? ≠ some .free := by
  intro hfree
  obtain ⟨slot, hslot, -⟩ := mem_nodeSlots.mp hd
  exact hstuck d slot hslot (eligible_of_free hfree)

/-- Between two chunks every slot before a used one was seen, if no slot may be chosen. -/
theorem WaitInv.seen_of_used (hwait : WaitInv cluster slots job wiped avail₀ chosen sel)
    (h : ScanInv cluster slots job wiped avail₀ chosen sel) (hempty : sel.tmpCpuArr = [])
    (hstuck : Stuck slots sel) (hfit : TimesFit slots) {n last d : ℕ}
    (hused : sel.avail[last]? = some .alreadyUsed) (hd : d ∈ slotsBefore slots avail₀ last n) :
    d ∈ nodeSlots slots n ∧ ∃ a, avail₀[d]? = some a ∧ a.usable = true ∧
      sel.avail[d]? ≠ some a := by
  obtain ⟨hnode, -, a, ha, husable, hmark⟩ := usable_of_slotsBefore hd
  refine ⟨hnode, a, ha, husable, ?_⟩
  intro hnow
  rcases hmark with rfl | ⟨-, rfl, hlt⟩
  · exact hstuck.no_free hnode hnow
  · -- the latest CPU of all is no earlier than `last`
    obtain ⟨l, hl, hle⟩ := h.total last (Or.inr hused)
    have hnone : sel.nodeLatest = none := by
      rcases hwait.latest hfit with ⟨hnone, -⟩ | ⟨l', hl', -⟩
      · exact hnone
      · rw [hempty] at hl'
        cases hl'
    obtain ⟨slot, hslot, -⟩ := mem_nodeSlots.mp hnode
    rw [slotTime_of_getElem? hslot] at hlt
    have htime : slot.time < slotTime slots l := by omega
    refine hstuck d slot hslot ?_
    unfold eligible
    rw [hnow]
    dsimp only
    unfold memoryException
    rw [hnone, hl]
    exact decide_eq_true htime

/-- Where every chunk is one CPU, a node has given one for each slot before a free slot. -/
theorem WaitInv.given_of_single (hwait : WaitInv cluster slots job wiped avail₀ chosen sel)
    (h : ScanInv cluster slots job wiped avail₀ chosen sel)
    (hchunk : sel.tmpCpuArr.length < job.reqPpn) (hstuck : Stuck slots sel)
    (hppn : job.reqPpn = 1) (hfit : TimesFit slots) {n last k : ℕ}
    (hk : k ≤ chunksAllowed cluster job wiped n) (hlast : last ∈ freeSlots slots avail₀ n)
    (hroom : k ≤ (slotsBefore slots avail₀ last n).card) : k ≤ chosen.count n := by
  obtain ⟨hlastNode, hlastMark⟩ := Finset.mem_filter.mp hlast
  have hempty : sel.tmpCpuArr = [] := List.length_eq_zero_iff.mp (by omega)
  rcases h.touched last _ hlastMark rfl with hnow | htried | hused | hprohibited
  · exact absurd hnow (hstuck.no_free hlastNode)
  · -- nothing is tried between two chunks
    have hmem : last ∈ triedSlots slots sel n \ sel.tmpCpuArr.toFinset := by
      rw [hempty, List.toFinset_nil, Finset.sdiff_empty]
      exact Finset.mem_filter.mpr ⟨hlastNode, htried⟩
    have hpos := Finset.card_pos.mpr ⟨last, hmem⟩
    have := h.tried_lt n
    omega
  · refine (le_min hk ?_).trans (h.given_of_seen hchunk
      (fun d hd => hwait.seen_of_used h hempty hstuck hfit hused hd) (fun d _ => hstuck d))
    rwa [hppn, Nat.div_one]
  · exact hk.trans (h.closed last n hlastNode ⟨_, hlastMark, rfl⟩ hprohibited).2

/-- When no slot may be chosen, a node has given the chunks it can give. -/
theorem ScanInv.given_of_stuck (h : ScanInv cluster slots job wiped avail₀ chosen sel)
    (hwait : WaitInv cluster slots job wiped avail₀ chosen sel)
    (hchunk : sel.tmpCpuArr.length < job.reqPpn) (hstuck : Stuck slots sel) {n k : ℕ}
    (hk : k ≤ chunksAllowed cluster job wiped n) (hready : CanGive slots job avail₀ n k) :
    k ≤ chosen.count n := by
  rcases hready with rfl | ⟨last, hlast, hgives⟩ | ⟨hppn, hfit, last, hlast, hroom⟩
  · exact Nat.zero_le _
  · by_contra hless
    obtain ⟨i, rfl⟩ : ∃ i, k = i + 1 := ⟨k - 1, by omega⟩
    -- the loop would stay with the node
    obtain ⟨d, slot, -, -, hslot, hok⟩ := hwait.sooner_eligible h hchunk hgives
      (fun _ => hk) (by omega) (hstuck.no_free (Finset.mem_filter.mp hlast).1)
    exact hstuck d slot hslot hok
  · exact hwait.given_of_single h hchunk hstuck hppn hfit hk hlast hroom

/-! ## No more than that -/

/-- A slot short of available memory is chosen only for a chunk under way, whose times can be
compared. -/
def StaysWithChunk (slots : List FirstFreeSlot) (sel : Selection) (c : ℕ) : Prop :=
  sel.avail[c]? = some .notEnoughAvailableMem → TimesFit slots ∧ sel.tmpCpuArr ≠ []

/-- The slot was tried or used. -/
def Selection.TakenAt (sel : Selection) (d : ℕ) : Prop :=
  sel.triedAt d = true ∨ sel.avail[d]? = some .alreadyUsed

/-- Then a chosen slot is one never tried, or one of the node under consideration: tried
before, or free earlier than a slot of the chunk. -/
theorem WaitInv.chosen_cases (hwait : WaitInv cluster slots job wiped avail₀ chosen sel)
    (h : ScanInv cluster slots job wiped avail₀ chosen sel) {c : ℕ} {slot : FirstFreeSlot}
    (hok : eligible slots sel c slot = true) (hslot : slots[c]? = some slot)
    (hstays : StaysWithChunk slots sel c) :
    (sel.avail[c]? = some .free ∧ avail₀[c]? = some .free) ∨
      (sel.consideredNode = some slot.ninfo ∧ (sel.triedAt c = true ∨
        (TimesFit slots ∧ avail₀[c]? = some .notEnoughAvailableMem ∧
          ∃ l ∈ sel.tmpCpuArr, slotTime slots c < slotTime slots l))) := by
  have hbefore : ∀ a, sel.avail[c]? = some a → a.usable = true → a.wasTried = false →
      avail₀[c]? = some a := by
    intro a ha husable huntried
    obtain ⟨a₀, ha₀, -, hsame⟩ := h.usable c a ha husable
    rwa [hsame huntried] at ha₀
  unfold eligible at hok
  split at hok
  · next ha => exact Or.inl ⟨ha, hbefore _ ha rfl rfl⟩
  · next ha =>
      obtain ⟨hfit, hsome⟩ := hstays ha
      obtain ⟨l, hl, hlatest, -⟩ := (hwait.latest hfit).resolve_left (fun hnone => hsome hnone.2)
      unfold memoryException at hok
      rw [hlatest] at hok
      simp only [Bool.and_eq_true, beq_iff_eq, decide_eq_true_eq] at hok
      refine Or.inr ⟨hok.1.1.symm, Or.inr ⟨hfit, hbefore _ ha rfl rfl, l, hl, ?_⟩⟩
      rw [slotTime_of_getElem? hslot]
      exact hok.2
  · next a ha =>
      simp only [Bool.and_eq_true, decide_eq_true_eq, beq_iff_eq] at hok
      exact Or.inr ⟨hok.2.symm, Or.inl (triedAt_iff.mpr ⟨a, ha⟩)⟩
  · cases hok

/-- Slot `g` leads node `n`: it was free, and what is tried or used of the node comes before
it. -/
structure Leads (slots : List FirstFreeSlot) (avail₀ : List SlotAvailability) (g n : ℕ)
    (sel : Selection) : Prop where
  free : g ∈ freeSlots slots avail₀ n
  taken : ∀ d ∈ nodeSlots slots n, sel.TakenAt d → d ∈ slotsBefore slots avail₀ g n

/-- What the chunks of the nodes are made of, if no chunk starts with a slot short of available
memory: what is tried or used of a node comes before a free slot that all slots still free are
behind of; a slot of the chunk under way leads its node; and a node has given its chunks by one
of its used slots. -/
structure EarnInv (slots : List FirstFreeSlot) (job : PlanJob) (avail₀ : List SlotAvailability)
    (chosen : List ℕ) (sel : Selection) : Prop where
  taken : ∀ n, ∀ d ∈ nodeSlots slots n, sel.TakenAt d → ∃ l, d ∈ slotsBefore slots avail₀ l n ∧
    ∀ c : ℕ, sel.avail[c]? = some .free → Sooner slots l c
  leads : ∀ n, sel.consideredNode = some n → ∃ g ∈ sel.tmpCpuArr, Leads slots avail₀ g n sel
  given : ∀ n ∈ chosen, ∃ last ∈ freeSlots slots avail₀ n, sel.avail[last]? = some .alreadyUsed ∧
    GivesBy slots job avail₀ n (chosen.count n) last

/-- Nothing is given before the loop. -/
theorem earnInv_initial {fixed : List (Option String)} (hfresh : FreshMarks avail₀) :
    EarnInv slots job avail₀ [] (Selection.initial job fixed avail₀) where
  taken := by
    rintro n d - (htried | hused)
    · obtain ⟨a, ha⟩ := triedAt_iff.mp htried
      exact absurd ha (hfresh.not_tried d a)
    · exact absurd hused (hfresh.not_used d)
  leads := by
    intro n hn
    cases hn
  given := by
    intro n hn
    cases hn

/-- A slot that is tried or used behind an entered CPU is the CPU, or was so before. -/
theorem takenAt_of_entered {c n d : ℕ} (hent : Entered job sel c n sel') (hd : sel'.TakenAt d) :
    d = c ∨ sel.TakenAt d := by
  by_cases hdc : d = c
  · exact Or.inl hdc
  · unfold Selection.TakenAt Selection.triedAt at hd ⊢
    rw [hent.avail_other hdc] at hd
    exact Or.inr hd

/-- Entering a CPU tries it; a slot that is not tried then is another one, and as before. -/
theorem avail_of_entered {c n d : ℕ} {a : SlotAvailability} (hok : sel.usableAt c = true)
    (hent : Entered job sel c n sel') (hd : sel'.avail[d]? = some a)
    (huntried : a.wasTried = false) : sel.avail[d]? = some a := by
  have hdc : d ≠ c := by
    rintro rfl
    rw [hent.avail_self hok] at hd
    cases hd
    cases huntried
  rwa [hent.avail_other hdc] at hd

/-- A chosen slot that was never tried leads its node. -/
theorem EarnInv.leads_free (hearn : EarnInv slots job avail₀ chosen sel) {c : ℕ}
    {slot : FirstFreeSlot} (hslot : slots[c]? = some slot) (hnow : sel.avail[c]? = some .free)
    (hfree : avail₀[c]? = some .free) (hent : EntersCpu slots job sel c slot.ninfo sel') :
    Leads slots avail₀ c slot.ninfo sel' := by
  have hc : c ∈ freeSlots slots avail₀ slot.ninfo :=
    Finset.mem_filter.mpr ⟨mem_nodeSlots.mpr ⟨slot, hslot, rfl⟩, hfree⟩
  refine ⟨hc, ?_⟩
  intro d hd htaken
  rcases takenAt_of_entered hent.toEntered htaken with rfl | htaken
  · exact mem_slotsBefore_self hc
  · obtain ⟨l, hbefore, hsooner⟩ := hearn.taken _ d hd htaken
    exact UpTo.slotsBefore_subset (Or.inr (hsooner c hnow)) hbefore

/-- The lead of the node under consideration is left by a slot of the node that is no free
one. -/
theorem Leads.entered {g c : ℕ} {slot : FirstFreeSlot} (hg : Leads slots avail₀ g slot.ninfo sel)
    (h : ScanInv cluster slots job wiped avail₀ chosen sel) (hslot : slots[c]? = some slot)
    (hn : sel.consideredNode = some slot.ninfo)
    (hold : sel.triedAt c = true ∨ (TimesFit slots ∧ avail₀[c]? = some .notEnoughAvailableMem ∧
      ∃ l ∈ sel.tmpCpuArr, slotTime slots c < slotTime slots l))
    (hent : EntersCpu slots job sel c slot.ninfo sel') : Leads slots avail₀ g slot.ninfo sel' := by
  refine ⟨hg.free, ?_⟩
  intro d hd htaken
  rcases takenAt_of_entered hent.toEntered htaken with rfl | htaken
  · rcases hold with htried | ⟨hfit, hshort, l, hl, hlt⟩
    · exact hg.taken d hd (Or.inl htried)
    · -- the slot is free earlier than one before the lead
      obtain ⟨havail, m, hm, hlnode⟩ := h.chunk l hl
      rw [hn] at hm
      cases hm
      have hbefore := hg.taken l hlnode (Or.inl (triedAt_iff.mpr ⟨_, havail⟩))
      obtain ⟨-, hup, -⟩ := usable_of_slotsBefore hbefore
      refine Finset.mem_filter.mpr ⟨hd, hup.of_sooner (hfit.sooner hlt), ?_⟩
      exact Or.inr ⟨hfit, hshort, hlt.trans_le (hup.slotTime_le hfit)⟩
  · exact hg.taken d hd htaken

/-- A CPU that is entered is led by a slot of its chunk. -/
theorem EarnInv.exists_leads (hearn : EarnInv slots job avail₀ chosen sel)
    (hwait : WaitInv cluster slots job wiped avail₀ chosen sel)
    (h : ScanInv cluster slots job wiped avail₀ chosen sel) {c : ℕ} {slot : FirstFreeSlot}
    (hslot : slots[c]? = some slot) (hok : eligible slots sel c slot = true)
    (hstays : StaysWithChunk slots sel c) (hent : EntersCpu slots job sel c slot.ninfo sel') :
    ∃ g ∈ sel'.tmpCpuArr, Leads slots avail₀ g slot.ninfo sel' := by
  rcases hwait.chosen_cases h hok hslot hstays with ⟨hnow, hfree⟩ | ⟨hn, hold⟩
  · exact ⟨c, hent.mem_self, hearn.leads_free hslot hnow hfree hent⟩
  · obtain ⟨g, hg, hleads⟩ := hearn.leads _ hn
    refine ⟨g, ?_, hleads.entered h hslot hn hold hent⟩
    rcases hent.chunk_cases with ⟨m, hm, hne, -⟩ | ⟨-, -, htmp, -⟩
    · rw [hn] at hm
      cases hm
      exact absurd rfl hne
    · rw [htmp]
      exact List.mem_append_left _ hg

/-- Entering a CPU keeps what the chunks are made of. -/
theorem EarnInv.entered (hearn : EarnInv slots job avail₀ chosen sel)
    (hwait : WaitInv cluster slots job wiped avail₀ chosen sel)
    (h : ScanInv cluster slots job wiped avail₀ chosen sel)
    (hchunk : sel.tmpCpuArr.length < job.reqPpn) {c : ℕ} {slot : FirstFreeSlot}
    (hc : ithSmallest slots sel = some c) (hslot : slots[c]? = some slot)
    (hok : eligible slots sel c slot = true) (hstays : StaysWithChunk slots sel c)
    (hent : EntersCpu slots job sel c slot.ninfo sel') : EarnInv slots job avail₀ chosen sel' := by
  have h' := h.entered hchunk hc hslot hok hent
  obtain ⟨g, hg, hleads⟩ := hearn.exists_leads hwait h hslot hok hstays hent
  have husable := usableAt_of_eligible hok
  refine ⟨?_, ?_, ?_⟩
  · intro n d hd htaken
    rcases takenAt_of_entered hent.toEntered htaken with rfl | hbefore
    · -- the lead of the chunk comes before all that were never tried
      obtain rfl := node_unique (mem_nodeSlots.mpr ⟨slot, hslot, rfl⟩) hd
      exact ⟨g, hleads.taken d hd htaken, fun e he => h'.order g e _ (h'.chunk g hg).1 he⟩
    · obtain ⟨l, hl, hsooner⟩ := hearn.taken n d hd hbefore
      exact ⟨l, hl, fun e he => hsooner e (avail_of_entered husable hent.toEntered he rfl)⟩
  · intro n hn
    rw [hent.considered_eq] at hn
    cases hn
    exact ⟨g, hg, hleads⟩
  · intro n hn
    obtain ⟨last, hlast, hused, hgives⟩ := hearn.given n hn
    refine ⟨last, hlast, ?_, hgives⟩
    -- a used slot may not be chosen
    rw [hent.avail_other]
    · exact hused
    · rintro rfl
      obtain ⟨a, ha, husablea⟩ := usable_of_eligible hok
      rw [hused] at ha
      cases ha
      cases husablea

/-- What is tried or used behind a complete chunk was so before. -/
theorem ChunkDone.takenAt {n d : ℕ} {closes : Bool} (hdone : ChunkDone slots sel n closes sel')
    (h : ScanInv cluster slots job wiped avail₀ chosen sel) (hd : sel'.TakenAt d) :
    sel.TakenAt d := by
  rcases hd with htried | hused
  · obtain ⟨a, ha⟩ := triedAt_iff.mp htried
    exact Or.inl (triedAt_iff.mpr ⟨a, (hdone.usable ha rfl).2.1⟩)
  · rcases hdone.used_iff.mp hused with hmem | hused
    · exact Or.inl (triedAt_iff.mpr ⟨_, (h.chunk d hmem).1⟩)
    · exact Or.inr hused

/-- With the lead of its complete chunk a node gives one chunk more. -/
theorem EarnInv.gives_completed (hearn : EarnInv slots job avail₀ chosen sel)
    (h : ScanInv cluster slots job wiped avail₀ chosen sel) {n g : ℕ} {closes : Bool}
    (hdone : ChunkDone slots sel n closes sel')
    (h' : ScanInv cluster slots job wiped avail₀ (chosen ++ [n]) sel')
    (hg : g ∈ sel.tmpCpuArr) (hleads : Leads slots avail₀ g n sel) :
    GivesBy slots job avail₀ n (chosen.count n + 1) g := by
  refine ⟨hleads.free, ?_, ?_⟩
  · -- all of its used slots come before the lead
    rw [← count_append_self, Nat.mul_comm, ← h'.used_eq n]
    refine Finset.card_le_card ?_
    intro d hd
    obtain ⟨hnode, hused⟩ := Finset.mem_filter.mp hd
    exact hleads.taken d hnode (hdone.takenAt h (Or.inr hused))
  · rcases Nat.eq_zero_or_pos (chosen.count n) with hzero | hpos
    · exact Or.inl hzero
    · obtain ⟨last, hlast, hused, hgives⟩ := hearn.given n (List.count_pos_iff.mp hpos)
      refine Or.inr ⟨last, hlast, ?_, hgives⟩
      obtain ⟨-, hup, -⟩ := usable_of_slotsBefore
        (hleads.taken last (Finset.mem_filter.mp hlast).1 (Or.inr hused))
      refine hup.resolve_left ?_
      rintro rfl
      rw [(h.chunk last hg).1] at hused
      cases hused

/-- One pass keeps what the chunks are made of. -/
theorem EarnInv.pass (hearn : EarnInv slots job avail₀ chosen sel)
    (hwait : WaitInv cluster slots job wiped avail₀ chosen sel)
    (h : ScanInv cluster slots job wiped avail₀ chosen sel)
    (hchunk : sel.tmpCpuArr.length < job.reqPpn) {c : ℕ} (hc : ithSmallest slots sel = some c)
    (hstays : StaysWithChunk slots sel c)
    (hpass : ScanPass cluster slots job wiped avail₀ chosen sel c chosen' sel')
    (h' : ScanInv cluster slots job wiped avail₀ chosen' sel') :
    EarnInv slots job avail₀ chosen' sel' := by
  obtain ⟨first, hfirst, hok⟩ := ithSmallest_spec hc
  cases hpass with
  | incomplete hslot hent =>
      rw [hfirst] at hslot
      cases hslot
      exact hearn.entered hwait h hchunk hc hfirst hok hstays hent
  | @complete slot entered _ closes last hslot hent hinv' hfull hplan hdone hlast hstart =>
      rw [hfirst] at hslot
      cases hslot
      have hentered := hearn.entered hwait h hchunk hc hfirst hok hstays hent
      obtain ⟨g, hg, hleads⟩ := hentered.leads _ hent.considered_eq
      refine ⟨?_, ?_, ?_⟩
      · intro n d hd htaken
        obtain ⟨l, hl, hsooner⟩ := hentered.taken n d hd (hdone.takenAt hinv' htaken)
        exact ⟨l, hl, fun e he => hsooner e (hdone.usable he rfl).2.1⟩
      · intro n hn
        rw [hdone.considered_eq] at hn
        cases hn
      · intro n hn
        by_cases hsame : n = first.ninfo
        · rw [hsame, count_append_self]
          exact ⟨g, hleads.free, hdone.used_iff.mpr (Or.inl hg),
            hentered.gives_completed hinv' hdone h' hg hleads⟩
        · have hmem : n ∈ chosen := by
            rcases List.mem_append.mp hn with hn | hn
            · exact hn
            · exact absurd (List.mem_singleton.mp hn) hsame
          obtain ⟨l, hl, hused, hgives⟩ := hentered.given n hmem
          refine ⟨l, hl, hdone.used_iff.mpr (Or.inr hused), ?_⟩
          rwa [List.count_append, List.count_eq_zero.mpr (fun hmem =>
            hsame (List.mem_singleton.mp hmem)), Nat.add_zero]

/-- Then a node has given no more chunks than it can give. -/
theorem EarnInv.canGive (hearn : EarnInv slots job avail₀ chosen sel) (n : ℕ) :
    CanGive slots job avail₀ n (chosen.count n) := by
  by_cases hn : n ∈ chosen
  · obtain ⟨last, hlast, -, hgives⟩ := hearn.given n hn
    exact Or.inr (Or.inl ⟨last, hlast, hgives⟩)
  · exact Or.inl (List.count_eq_zero.mpr hn)

end Ready

end PlanSched
