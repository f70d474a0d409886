/-
# Chunks that start with a slot short of memory

Between two chunks the loop of `update_job` (`plan_operations.cpp`) takes a slot short of
available memory if any CPU chosen before is free later (`total_latest_cpu_index`).  The chunk
that starts with it does not come with a free slot of its node.

The CPUs chosen before come up to the slot that was chosen last for the first time, and by that
slot the nodes have given what they give by it.  So the table tells whether this may happen.

* `FrontInv`: how far the loop has come;
* `MayStartShort`: a slot short of available memory may start a chunk, as far as the table tells;
* `Earning`: otherwise the chunks are made of what the nodes can give, while some are missing.
-/
import PlanSched.ReadyNodes

namespace PlanSched

open CheckedRun

section Starts

variable {cluster : PlanCluster} {slots : List FirstFreeSlot} {job : PlanJob} {wiped : Bool}
  {avail₀ : List SlotAvailability} {chosen chosen' : List ℕ} {sel sel' : Selection} {c n : ℕ}

/-! ## How far the loop has come -/

/-- The last slot that was chosen for the first time: what is tried or used comes up to it, and
so does the latest CPU that is remembered; every free slot up to it has been chosen; and it is
still in the array. -/
structure Front (slots : List FirstFreeSlot) (avail₀ : List SlotAvailability) (g : ℕ)
    (sel : Selection) : Prop where
  lt_length : g < slots.length
  free : avail₀[g]? = some .free
  behind : ∀ d, sel.TakenAt d → UpTo slots g d
  latest : ∀ l, sel.totalLatest = some l → UpTo slots g l
  reached : ∀ d, UpTo slots g d → sel.avail[d]? ≠ some .free
  mem_cpus : g ∈ sel.cpuIndexes

/-- How far the loop has come: nothing was chosen, or there is a last slot chosen for the first
time. -/
def FrontInv (slots : List FirstFreeSlot) (avail₀ : List SlotAvailability) (chosen : List ℕ)
    (sel : Selection) : Prop :=
  (chosen = [] ∧ sel.totalLatest = none ∧ ∀ d, ¬ sel.TakenAt d) ∨ ∃ g, Front slots avail₀ g sel

/-- Nothing is chosen before the loop. -/
theorem frontInv_initial {fixed : List (Option String)} (hfresh : FreshMarks avail₀) :
    FrontInv slots avail₀ [] (Selection.initial job fixed avail₀) := by
  refine Or.inl ⟨rfl, rfl, ?_⟩
  rintro d (htried | hused)
  · obtain ⟨a, ha⟩ := triedAt_iff.mp htried
    exact hfresh.not_tried d a ha
  · exact hfresh.not_used d hused

/-- The latest CPU that is remembered is an entered one, or was so before. -/
theorem latest_of_entered {l : ℕ} (hent : EntersCpu slots job sel c n sel')
    (hl : sel'.totalLatest = some l) : l = c ∨ sel.totalLatest = some l := by
  obtain ⟨l', hl', hcases, -⟩ := laterCpu_spec slots sel.totalLatest c
  rw [hent.total, hl'] at hl
  obtain rfl := Option.some.inj hl
  exact hcases

/-- A slot that is chosen for the first time comes behind all others: it is the new front. -/
theorem FrontInv.front_new (h : FrontInv slots avail₀ chosen sel)
    (hinv : ScanInv cluster slots job wiped avail₀ chosen sel) {slot : FirstFreeSlot}
    (hc : ithSmallest slots sel = some c) (hslot : slots[c]? = some slot)
    (hok : eligible slots sel c slot = true) (hnow : sel.avail[c]? = some .free)
    (hfree : avail₀[c]? = some .free)
    (hent : EntersCpu slots job sel c slot.ninfo sel') : Front slots avail₀ c sel' := by
  have hbehind : ∀ {g : ℕ}, Front slots avail₀ g sel → Sooner slots g c :=
    fun hg => sooner_of_not_upTo (fun hup => hg.reached c hup hnow)
  refine ⟨(List.getElem?_eq_some_iff.mp hslot).1, hfree, ?_, ?_, ?_, hent.mem_cpus⟩
  · intro d hd
    rcases takenAt_of_entered hent.toEntered hd with rfl | hd
    · exact Or.inl rfl
    · rcases h with ⟨-, -, hnone⟩ | ⟨g, hg⟩
      · exact absurd hd (hnone d)
      · exact Or.inr ((hg.behind d hd).sooner (hbehind hg))
  · intro l hl
    rcases latest_of_entered hent hl with rfl | hl
    · exact Or.inl rfl
    · rcases h with ⟨-, hnone, -⟩ | ⟨g, hg⟩
      · rw [hnone] at hl
        cases hl
      · exact Or.inr ((hg.latest l hl).sooner (hbehind hg))
  · intro d hd hfreed
    have hbefore := avail_of_entered (usableAt_of_eligible hok) hent.toEntered hfreed rfl
    have hlt : d < slots.length := hinv.cells ▸ (List.getElem?_eq_some_iff.mp hbefore).1
    have hokd : eligible slots sel d slots[d] = true := eligible_of_free hbefore
    rcases ithSmallest_sooner hc (List.getElem?_eq_getElem hlt) hokd with rfl | hsooner
    · rw [hent.avail_self (usableAt_of_eligible hok)] at hfreed
      cases hfreed
    · rcases hd with rfl | hd
      · exact hsooner.asymm hsooner
      · exact hd.asymm hsooner

/-- A slot of the node under consideration that comes up to the front leaves it. -/
theorem Front.entered {g : ℕ} (hg : Front slots avail₀ g sel) {slot : FirstFreeSlot}
    (hok : eligible slots sel c slot = true) (hup : UpTo slots g c)
    (hn : sel.consideredNode = some slot.ninfo)
    (hent : EntersCpu slots job sel c slot.ninfo sel') : Front slots avail₀ g sel' := by
  refine ⟨hg.lt_length, hg.free, ?_, ?_, ?_, hent.kept hn g hg.mem_cpus⟩
  · intro d hd
    rcases takenAt_of_entered hent.toEntered hd with rfl | hd
    · exact hup
    · exact hg.behind d hd
  · intro l hl
    rcases latest_of_entered hent hl with rfl | hl
    · exact hup
    · exact hg.latest l hl
  · intro d hd hfreed
    exact hg.reached d hd
      (avail_of_entered (usableAt_of_eligible hok) hent.toEntered hfreed rfl)

/-- Entering a CPU moves the front on, or leaves it. -/
theorem FrontInv.entered (h : FrontInv slots avail₀ chosen sel)
    (hwait : WaitInv cluster slots job wiped avail₀ chosen sel)
    (hinv : ScanInv cluster slots job wiped avail₀ chosen sel) {slot : FirstFreeSlot}
    (hc : ithSmallest slots sel = some c) (hslot : slots[c]? = some slot)
    (hok : eligible slots sel c slot = true) (hstays : StaysWithChunk slots sel c)
    (hent : EntersCpu slots job sel c slot.ninfo sel') : ∃ g, Front slots avail₀ g sel' := by
  rcases hwait.chosen_cases hinv hok hslot hstays with ⟨hnow, hfree⟩ | ⟨hn, hold⟩
  · exact ⟨c, h.front_new hinv hc hslot hok hnow hfree hent⟩
  · -- a slot that was chosen before comes up to the front, and one that is free earlier too
    obtain ⟨d, htaken, hup⟩ : ∃ d, sel.TakenAt d ∧ UpTo slots d c := by
      rcases hold with htried | ⟨hfit, -, l, hl, hlt⟩
      · exact ⟨c, Or.inl htried, Or.inl rfl⟩
      · exact ⟨l, Or.inl (triedAt_iff.mpr ⟨_, (hinv.chunk l hl).1⟩), Or.inr (hfit.sooner hlt)⟩
    rcases h with ⟨-, -, hnone⟩ | ⟨g, hg⟩
    · exact absurd htaken (hnone d)
    · exact ⟨g, hg.entered hok ((hg.behind d htaken).trans hup) hn hent⟩

/-- One pass keeps how far the loop has come. -/
theorem FrontInv.pass (h : FrontInv slots avail₀ chosen sel)
    (hwait : WaitInv cluster slots job wiped avail₀ chosen sel)
    (hinv : ScanInv cluster slots job wiped avail₀ chosen sel)
    (hc : ithSmallest slots sel = some c) (hstays : StaysWithChunk slots sel c)
    (hpass : ScanPass cluster slots job wiped avail₀ chosen sel c chosen' sel') :
    FrontInv slots avail₀ chosen' sel' := by
  obtain ⟨first, hfirst, hok⟩ := ithSmallest_spec hc
  cases hpass with
  | incomplete hslot hent =>
      rw [hfirst] at hslot
      cases hslot
      exact Or.inr (h.entered hwait hinv hc hfirst hok hstays hent)
  | @complete slot entered _ closes last hslot hent hinv' hfull hplan hdone hlast hstart =>
      rw [hfirst] at hslot
      cases hslot
      obtain ⟨g, hg⟩ := h.entered hwait hinv hc hfirst hok hstays hent
      refine Or.inr ⟨g, hg.lt_length, hg.free, ?_, ?_, ?_, ?_⟩
      · intro d hd
        exact hg.behind d (hdone.takenAt hinv' hd)
      · rw [hdone.total_eq]
        exact hg.latest
      · intro d hd hfree
        exact hg.reached d hd (hdone.usable hfree rfl).2.1
      · rw [hdone.cpus_eq]
        exact hg.mem_cpus

/-! ## Slots that may start a chunk -/

/-- Node `n` gives a chunk by `p`. -/
def GivesChunkBy (slots : List FirstFreeSlot) (job : PlanJob) (avail₀ : List SlotAvailability)
    (p n : ℕ) : Prop :=
  ∃ l ∈ freeSlots slots avail₀ n, UpTo slots p l ∧ GivesBy slots job avail₀ n 1 l

/-- A slot short of available memory may start a chunk: it is free earlier than a free slot by
which a node gives a chunk, but the nodes do not give all chunks of the job yet. -/
def MayStartShort (cluster : PlanCluster) (slots : List FirstFreeSlot) (job : PlanJob)
    (wiped : Bool) (avail₀ : List SlotAvailability) : Prop :=
  2 ≤ job.reqNumNodes ∧ ∃ g < slots.length, avail₀[g]? = some .free ∧
    chunksUpTo cluster slots job wiped avail₀ g < job.reqNumNodes ∧
    (∃ n < cluster.nodes.length, GivesChunkBy slots job avail₀ g n) ∧
    ∃ d < slots.length, avail₀[d]? = some .notEnoughAvailableMem ∧
      slotTime slots d < slotTime slots g

instance (slots : List FirstFreeSlot) (job : PlanJob) (avail₀ : List SlotAvailability) (p n : ℕ) :
    Decidable (GivesChunkBy slots job avail₀ p n) :=
  inferInstanceAs (Decidable (∃ l ∈ freeSlots slots avail₀ n, _ ∧ _))

instance (cluster : PlanCluster) (slots : List FirstFreeSlot) (job : PlanJob) (wiped : Bool)
    (avail₀ : List SlotAvailability) : Decidable (MayStartShort cluster slots job wiped avail₀) :=
  inferInstanceAs (Decidable (_ ∧ ∃ g < slots.length, _ ∧ _ ∧ (∃ n < cluster.nodes.length, _) ∧
    ∃ d < slots.length, _))

/-- A node gives by `p` as many chunks as by a slot up to `p`. -/
theorem GivesBy.le_chunksBy {k l p : ℕ} (h : GivesBy slots job avail₀ n k l)
    (hl : l ∈ freeSlots slots avail₀ n) (hup : UpTo slots p l) :
    k ≤ chunksBy slots job avail₀ p n :=
  Nat.le_findGreatest h.le_length ⟨l, hl, hup, h⟩

/-- Between two chunks the nodes have given what they give by the front. -/
theorem Front.chunksUpTo_le {g : ℕ} (hg : Front slots avail₀ g sel)
    (hwait : WaitInv cluster slots job wiped avail₀ chosen sel)
    (hinv : ScanInv cluster slots job wiped avail₀ chosen sel) (hempty : sel.tmpCpuArr = []) :
    chunksUpTo cluster slots job wiped avail₀ g ≤ sel.planNumNodes := by
  rw [← hinv.sum_count]
  refine Finset.sum_le_sum ?_
  intro n _
  by_contra hless
  rw [not_le, lt_min_iff] at hless
  obtain ⟨hopen, hmore⟩ := hless
  obtain ⟨l, -, hup, hgives⟩ := Nat.findGreatest_of_ne_zero rfl (Nat.ne_zero_of_lt hmore)
  obtain ⟨last, hgives', hup'⟩ := hgives.exists_le hmore
  -- the loop would still be with the node
  obtain ⟨-, -, hmem⟩ := hwait.waits n _ last hgives' (fun _ => hopen) le_rfl
    (hg.reached last (hup.trans hup'))
  rw [hempty] at hmem
  cases hmem

/-- By the front every node of a complete chunk gives one. -/
theorem Front.givesChunkBy {g : ℕ} (hg : Front slots avail₀ g sel)
    (hearn : EarnInv slots job avail₀ chosen sel) (hn : n ∈ chosen) :
    GivesChunkBy slots job avail₀ g n := by
  obtain ⟨last, hlast, hused, hgives⟩ := hearn.given n hn
  obtain ⟨l, hgives', hup⟩ := hgives.exists_le (List.count_pos_iff.mpr hn)
  exact ⟨l, hgives'.1, (hg.behind last (Or.inr hused)).trans hup, hgives'⟩

/-- While chunks are missing, a slot that is chosen between two of them is not short of available
memory, if none may start a chunk. -/
theorem FrontInv.staysWithChunk (h : FrontInv slots avail₀ chosen sel)
    (hearn : EarnInv slots job avail₀ chosen sel)
    (hwait : WaitInv cluster slots job wiped avail₀ chosen sel)
    (hinv : ScanInv cluster slots job wiped avail₀ chosen sel)
    (hplan : sel.planNumNodes < job.reqNumNodes) (hfit : TimesFit slots)
    (hmay : ¬ MayStartShort cluster slots job wiped avail₀) {slot : FirstFreeSlot}
    (hslot : slots[c]? = some slot) (hok : eligible slots sel c slot = true) :
    StaysWithChunk slots sel c := by
  intro hshort
  refine ⟨hfit, ?_⟩
  intro hempty
  have hnone : sel.nodeLatest = none := by
    rcases hwait.latest hfit with ⟨hnone, -⟩ | ⟨l, hl, -⟩
    · exact hnone
    · rw [hempty] at hl
      cases hl
  -- some CPU that was chosen before is free later
  unfold eligible at hok
  rw [hshort] at hok
  dsimp only at hok
  unfold memoryException at hok
  rw [hnone] at hok
  cases htotal : sel.totalLatest with
  | none =>
      rw [htotal] at hok
      cases hok
  | some l =>
      rw [htotal] at hok
      have hlt : slotTime slots c < slotTime slots l := by
        rw [slotTime_of_getElem? hslot]
        exact of_decide_eq_true hok
      obtain ⟨g, hg⟩ : ∃ g, Front slots avail₀ g sel := by
        refine h.resolve_left ?_
        rintro ⟨-, hnone', -⟩
        rw [hnone'] at htotal
        cases htotal
      obtain ⟨n, hn⟩ : ∃ n, n ∈ chosen := by
        refine List.exists_mem_of_ne_nil _ ?_
        intro hchosen
        rw [hwait.first hchosen hempty] at htotal
        cases htotal
      have hpos := hinv.chosen_length ▸ List.length_pos_of_mem hn
      obtain ⟨a₀, ha₀, -, hsame⟩ := hinv.usable c _ hshort rfl
      rw [hsame rfl] at ha₀
      exact hmay ⟨by omega, g, hg.lt_length, hg.free,
        (hg.chunksUpTo_le hwait hinv hempty).trans_lt hplan,
        ⟨n, hinv.chosen_lt n hn, hg.givesChunkBy hearn hn⟩,
        c, (List.getElem?_eq_some_iff.mp hslot).1, ha₀,
        hlt.trans_le ((hg.latest l htotal).slotTime_le hfit)⟩

/-! ## While chunks are missing -/

/-- While chunks are missing, they are made of what the nodes can give. -/
def Earning (slots : List FirstFreeSlot) (job : PlanJob) (avail₀ : List SlotAvailability)
    (chosen : List ℕ) (sel : Selection) : Prop :=
  sel.planNumNodes < job.reqNumNodes →
    EarnInv slots job avail₀ chosen sel ∧ FrontInv slots avail₀ chosen sel

/-- Nothing is taken before the loop. -/
theorem earning_initial {fixed : List (Option String)} (hfresh : FreshMarks avail₀) :
    Earning slots job avail₀ [] (Selection.initial job fixed avail₀) :=
  fun _ => ⟨earnInv_initial hfresh, frontInv_initial hfresh⟩

/-- A pass completes no chunk too many. -/
theorem ScanPass.plan_le
    (hpass : ScanPass cluster slots job wiped avail₀ chosen sel c chosen' sel') :
    sel.planNumNodes ≤ sel'.planNumNodes := by
  cases hpass with
  | incomplete hslot hent => exact hent.plan_eq.ge
  | complete hslot hent hinv hfull hplan hdone hlast hstart =>
      rw [hdone.plan_eq, hent.plan_eq]
      exact Nat.le_succ _

/-- One pass keeps that, if no slot short of available memory may start a chunk. -/
theorem Earning.pass (h : Earning slots job avail₀ chosen sel)
    (hwait : WaitInv cluster slots job wiped avail₀ chosen sel)
    (hinv : ScanInv cluster slots job wiped avail₀ chosen sel)
    (hchunk : sel.tmpCpuArr.length < job.reqPpn) (hc : ithSmallest slots sel = some c)
    (hpass : ScanPass cluster slots job wiped avail₀ chosen sel c chosen' sel')
    (hinv' : ScanInv cluster slots job wiped avail₀ chosen' sel') (hfit : TimesFit slots)
    (hmay : ¬ MayStartShort cluster slots job wiped avail₀) :
    Earning slots job avail₀ chosen' sel' := by
  intro hplan
  have hbefore := hpass.plan_le.trans_lt hplan
  obtain ⟨hearn, hfront⟩ := h hbefore
  obtain ⟨slot, hslot, hok⟩ := ithSmallest_spec hc
  have hstays := hfront.staysWithChunk hearn hwait hinv hbefore hfit hmay hslot hok
  exact ⟨hearn.pass hwait hinv hchunk hc hstays hpass hinv',
    hfront.pass hwait hinv hc hstays hpass⟩

end Starts

end PlanSched
