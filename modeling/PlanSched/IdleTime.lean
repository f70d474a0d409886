/-
# The idle time in front of a job

`update_job` (`plan_operations.cpp`) returns the gaps that the CPUs of the job leave in front
of it: one from each time at which a CPU of the array becomes free to the next.  The start of
the job is the time of the last CPU, but the limits may move it later after the CPUs were
chosen, and the time between is in no gap.  A CPU that the array has twice is counted twice.

* `placeShared_start`: before the limits, the job starts when its last CPU is free;
* `adjustToLimits_same_iff`: on a profile in order of time, the limits leave the start
  exactly if no snapshot is in the way;
* `givesBack_iff`: the gaps are the idle time of the CPUs exactly if the start is left and no
  CPU that is idle before it is in the array twice;
* `updateJob_givesBack_iff`: when this is so, in terms of the loop that chooses the CPUs.
-/
import PlanSched.GapSoundness

namespace PlanSched

open CheckedRun StepProfile

/-! ## The start before the limits -/

/-- A pass that completes a chunk takes the start from a CPU of the array. -/
theorem takeCpu_start {cluster : PlanCluster} {slots : List FirstFreeSlot} {job : PlanJob}
    {wiped : Bool} {sel sel' : Selection} {c : ℕ} (hinv : SelectionInv slots job sel)
    (h : takeCpu cluster slots job wiped sel c = .ok sel')
    (hwhole : sel'.cpuIndexes.length = sel'.planNumNodes * job.reqPpn) :
    ∃ d ∈ sel'.cpuIndexes, slotTime slots d = sel'.startTime := by
  obtain ⟨slot, hslot⟩ := exists_slot_of_takeCpu h
  rw [takeCpu_eq hslot rfl] at h
  obtain ⟨attempt, kept, hkept, -, hcpus⟩ := enterCpu_considerNode slots job sel c slot.ninfo
  obtain ⟨hplan, -⟩ := considerNode_keeps job sel c slot.ninfo
  have hplan' : (enterCpu slots (considerNode job sel c slot.ninfo) c).planNumNodes
      = sel.planNumNodes := hplan
  generalize enterCpu slots (considerNode job sel c slot.ninfo) c = entered at h hcpus hplan'
  split at h
  · obtain ⟨-, -, hcpus₁, ⟨last, hlast, hstart⟩, -⟩ := completeChunk_spec h
    rw [hcpus₁, hstart]
    exact ⟨last, List.mem_of_getLast? hlast, rfl⟩
  · -- a CPU was added behind the complete chunks
    obtain rfl := Except.ok.inj h
    have hlower := hinv.chunks_le
    rw [hcpus, length_insertByTime, List.length_take, hplan'] at hwhole
    omega

/-- When the loop ends with complete chunks, the start is the time of a CPU of the array. -/
theorem selectCpus_start {cluster : PlanCluster} {slots : List FirstFreeSlot} {job : PlanJob}
    {wiped : Bool} (fuel : ℕ) {sel sel' : Selection} (hinv : SelectionInv slots job sel)
    (hstart : 0 < sel.planNumNodes → sel.cpuIndexes.length = sel.planNumNodes * job.reqPpn →
      ∃ d ∈ sel.cpuIndexes, slotTime slots d = sel.startTime)
    (h : selectCpus cluster slots job wiped fuel sel = .ok (some sel')) :
    0 < sel'.planNumNodes → sel'.cpuIndexes.length = sel'.planNumNodes * job.reqPpn →
      ∃ d ∈ sel'.cpuIndexes, slotTime slots d = sel'.startTime := by
  have hloop := selectCpus_keeps
    (P := fun sel => SelectionInv slots job sel ∧ (0 < sel.planNumNodes →
      sel.cpuIndexes.length = sel.planNumNodes * job.reqPpn →
      ∃ d ∈ sel.cpuIndexes, slotTime slots d = sel.startTime))
    (fun {sel sel' c} hsel _ hc hstep =>
      ⟨takeCpu_inv hsel.1 hc hstep, fun _ => takeCpu_start hsel.1 hstep⟩) fuel ⟨hinv, hstart⟩ h
  exact hloop.1.2

/-- **The choice of CPUs starts a job of whole chunks when its last CPU is free.** -/
theorem placeShared_start {cluster : PlanCluster} {job placed : PlanJob}
    {slots : List FirstFreeSlot} (h : placeShared cluster job slots = .ok (some placed))
    (hlatest : job.reqNumNodes ≤ placed.latestNcpuIndex.length)
    (husage : job.usage = job.reqPpn * job.reqNumNodes) :
    ∃ c ∈ placed.cpuIndexes, slotTime slots c = placed.startTime := by
  obtain ⟨avail, sel, havail, hselected, rfl⟩ := placeShared_ok h
  have hinit := initial_inv havail (wipeFixedNodes job).1
  obtain ⟨hinv, hlength⟩ := selectCpus_inv _ hinit (Nat.zero_le _) hselected
  have hnodes : sel.planNumNodes = job.reqNumNodes := by
    have := hinv.nodes_le
    have := hinv.latest_length
    dsimp only at hlatest
    omega
  refine selectCpus_start _ hinit ?_ hselected ?_ ?_
  · intro hpos
    exact absurd hpos (Nat.lt_irrefl 0)
  · rw [hnodes]
    exact job.reqNumNodes_pos
  · rw [hlength, husage, hnodes, Nat.mul_comm]

/-! ## The limits -/

/-- The CPUs of the class would be more than the limit allows. -/
def PlanLimit.ClassOverflows (values : LimitsValues) (foundLimit : ℕ) (limit : PlanLimit)
    (job : PlanJob) : Prop :=
  ∃ total value, sumLimitsOfLimit limit foundLimit = .ok total ∧
    getAt values.limitsValuesGlobal foundLimit = .ok value ∧ value < total + job.limitCpus

/-- The CPUs of the account would be more than the limit allows. -/
def PlanLimit.AccountOverflows (values : LimitsValues) (foundLimit : ℕ) (limit : PlanLimit)
    (job : PlanJob) : Prop :=
  ∃ foundAccount account numCpus value,
    limitFindAccount limit job.accountId = .ok (some foundAccount) ∧
    getAt limit.accounts foundAccount = .ok account ∧
    getAt account.numCpus foundLimit = .ok numCpus ∧
    getAt values.limitsValues foundLimit = .ok value ∧ value < numCpus + job.limitCpus

/-- The snapshot has no room for the job. -/
def PlanLimit.Overflows (values : LimitsValues) (foundLimit : ℕ) (limit : PlanLimit)
    (job : PlanJob) : Prop :=
  limit.ClassOverflows values foundLimit job ∨ limit.AccountOverflows values foundLimit job

section limits

variable {values : LimitsValues} {foundLimit : ℕ} {limit : PlanLimit}
  {successor : Option PlanLimit} {job job' : PlanJob}

/-- The second half of a pass leaves the job, or the snapshot concerns it and its account has
no room. -/
theorem adjustToAccount_moves
    (h : adjustToAccount values foundLimit limit successor job = .ok job') :
    (¬ (limit.concerns successor job ∧ limit.AccountOverflows values foundLimit job) ∧
      job' = job) ∨
    (limit.concerns successor job ∧ limit.AccountOverflows values foundLimit job ∧
      ∃ next ∈ successor, job' = job.startAt next.timestamp) := by
  unfold adjustToAccount at h
  obtain ⟨found, hfound, h⟩ := bind_ok.mp h
  cases found with
  | none =>
      refine Or.inl ⟨?_, (pure_ok.mp h).symm⟩
      rintro ⟨-, i, account, numCpus, value, hi, -⟩
      rw [hfound] at hi
      cases Except.ok.inj hi
  | some i =>
      dsimp only at h
      split at h
      · next hconcerns =>
          obtain ⟨account, haccount, h⟩ := bind_ok.mp h
          obtain ⟨numCpus, hcpus, h⟩ := bind_ok.mp h
          obtain ⟨value, hvalue, h⟩ := bind_ok.mp h
          split at h
          · next hover =>
              obtain ⟨next, hnext, h⟩ := bind_ok.mp h
              exact Or.inr ⟨hconcerns, ⟨i, account, numCpus, value, hfound, haccount, hcpus,
                hvalue, hover⟩, next, deref_ok.mp hnext, (pure_ok.mp h).symm⟩
          · next hroom =>
              refine Or.inl ⟨?_, (pure_ok.mp h).symm⟩
              rintro ⟨-, j, account', numCpus', value', hj, haccount', hcpus', hvalue', hover⟩
              obtain rfl := Option.some.inj (Except.ok.inj (hfound.symm.trans hj))
              obtain rfl := Except.ok.inj (haccount.symm.trans haccount')
              obtain rfl := Except.ok.inj (hcpus.symm.trans hcpus')
              obtain rfl := Except.ok.inj (hvalue.symm.trans hvalue')
              exact hroom hover
      · next hconcerns =>
          exact Or.inl ⟨fun hboth => hconcerns hboth.1, (pure_ok.mp h).symm⟩

/-- One pass leaves the job, or the snapshot concerns it and has no room. -/
theorem adjustToLimit_moves
    (h : adjustToLimit values foundLimit limit successor job = .ok job') :
    (¬ (limit.concerns successor job ∧ limit.Overflows values foundLimit job) ∧ job' = job) ∨
    (limit.concerns successor job ∧ limit.Overflows values foundLimit job ∧
      ∃ next ∈ successor, job' = job.startAt next.timestamp) := by
  unfold adjustToLimit at h
  split at h
  · next hconcerns =>
      obtain ⟨total, htotal, h⟩ := bind_ok.mp h
      obtain ⟨value, hvalue, h⟩ := bind_ok.mp h
      split at h
      · next hover =>
          obtain ⟨next, hnext, h⟩ := bind_ok.mp h
          exact Or.inr ⟨hconcerns, Or.inl ⟨total, value, htotal, hvalue, hover⟩, next,
            deref_ok.mp hnext, (pure_ok.mp h).symm⟩
      · next hroom =>
          have hclass : ¬ limit.ClassOverflows values foundLimit job := by
            rintro ⟨total', value', htotal', hvalue', hover⟩
            obtain rfl := Except.ok.inj (htotal.symm.trans htotal')
            obtain rfl := Except.ok.inj (hvalue.symm.trans hvalue')
            exact hroom hover
          rcases adjustToAccount_moves h with ⟨hno, hsame⟩ | ⟨-, hover, hmoved⟩
          · refine Or.inl ⟨?_, hsame⟩
            rintro ⟨-, hover⟩
            exact hno ⟨hconcerns, hover.resolve_left hclass⟩
          · exact Or.inr ⟨hconcerns, Or.inr hover, hmoved⟩
  · next hconcerns =>
      rcases adjustToAccount_moves h with ⟨-, hsame⟩ | ⟨hyes, -⟩
      · exact Or.inl ⟨fun hboth => hconcerns hboth.1, hsame⟩
      · exact absurd hyes hconcerns

/-- A snapshot of the profile concerns the job and has no room for it. -/
def InTheWay (values : LimitsValues) (foundLimit : ℕ) (limits : List PlanLimit) (job : PlanJob) :
    Prop :=
  ∃ pre limit rest, limits = pre ++ limit :: rest ∧ limit.concerns rest.head? job ∧
    limit.Overflows values foundLimit job

/-- The first snapshot or a later one. -/
theorem inTheWay_cons {rest : List PlanLimit} :
    InTheWay values foundLimit (limit :: rest) job ↔
      (limit.concerns rest.head? job ∧ limit.Overflows values foundLimit job) ∨
        InTheWay values foundLimit rest job := by
  constructor
  · rintro ⟨pre, limit', rest', heq, hconcerns, hover⟩
    cases pre with
    | nil =>
        cases heq
        exact Or.inl ⟨hconcerns, hover⟩
    | cons first pre =>
        cases heq
        exact Or.inr ⟨pre, limit', rest', rfl, hconcerns, hover⟩
  · rintro (⟨hconcerns, hover⟩ | ⟨pre, limit', rest', rfl, hconcerns, hover⟩)
    · exact ⟨[], limit, rest, rfl, hconcerns, hover⟩
    · exact ⟨limit :: pre, limit', rest', rfl, hconcerns, hover⟩

/-- **On a profile in order of time, the limits leave the start exactly if no snapshot is in
the way.** -/
theorem adjustToLimits_same_iff (limits : List PlanLimit) : ∀ {job job' : PlanJob},
    Increasing PlanLimit.timestamp limits →
      adjustToLimits values foundLimit limits job = .ok job' →
      (job'.startTime = job.startTime ↔ ¬ InTheWay values foundLimit limits job) := by
  induction limits with
  | nil =>
      intro job job' _ h
      rw [adjustToLimits] at h
      cases h
      refine ⟨?_, fun _ => rfl⟩
      rintro - ⟨pre, limit, rest, heq, -⟩
      cases pre <;> cases heq
  | cons limit rest ih =>
      intro job job' hinc h
      rw [adjustToLimits] at h
      obtain ⟨moved, hmoved, hrest⟩ := bind_ok.mp h
      obtain ⟨hhead, htail⟩ := List.pairwise_cons.mp hinc
      rw [inTheWay_cons]
      rcases adjustToLimit_moves hmoved with ⟨hno, rfl⟩ | ⟨hconcerns, hover, next, hnext, rfl⟩
      · rw [ih htail hrest]
        exact not_congr (or_iff_right hno).symm
      · have hlt : job.startTime < next.timestamp := by
          rw [Option.mem_def] at hnext
          rw [hnext] at hconcerns
          exact PlanLimit.concerns_lt (hhead next (List.mem_of_mem_head? hnext)) hconcerns
        have hlater : next.timestamp ≤ job'.startTime := by
          rcases adjustToLimits_delayed rest htail hrest with rfl | ⟨t, ht, rfl⟩
          · exact le_rfl
          · exact le_of_lt ht
        constructor
        · intro hsame
          omega
        · intro hfree
          exact absurd (Or.inl ⟨hconcerns, hover⟩) hfree

end limits

/-! ## The gaps of a placement -/

/-- The gaps in front of a job are the idle time of its CPUs: from the time on at which the
first one is free to the start of the job they count, on each node, the CPUs of the array
that are free, and no gap is outside. -/
structure GivesBack (slots : List FirstFreeSlot) (job : PlanJob) (gaps : List PlanGap) : Prop where
  counted : ∀ (n : ℕ) (t : ℤ), (∃ c ∈ job.cpuIndexes, slotTime slots c ≤ t) → t < job.startTime →
    cpusAt gaps n t = (readyCpus slots job.cpuIndexes n t).card
  within : ∀ gap ∈ gaps, ∀ t, gap.covers t →
    (∃ c ∈ job.cpuIndexes, slotTime slots c ≤ t) ∧ t < job.startTime

/-- A gap in front of a job starts where the last one ended, or when one of the CPUs becomes
free. -/
theorem gapsOfJob_starts {job : PlanJob} {slots : List FirstFreeSlot} (cpus : List ℕ) :
    ∀ {gapStart : ℤ} {gaps : List PlanGap}, gapsOfJob job slots cpus gapStart = .ok gaps →
      ∀ gap ∈ gaps, (gapStart ≠ -1 ∧ gap.startTime = gapStart) ∨
        ∃ c ∈ cpus, gap.startTime = slotTime slots c := by
  induction cpus with
  | nil =>
      intro gapStart gaps h gap hgap
      rw [gapsOfJob] at h
      cases h
      cases hgap
  | cons c cpus ih =>
      intro gapStart gaps h gap hgap
      rw [gapsOfJob] at h
      obtain ⟨slot, hslot, h⟩ := bind_ok.mp h
      have htime := slotTime_of_getElem? (getAt_ok.mp hslot)
      have hstart : (gapStart ≠ -1 ∧ (if gapStart = -1 then slot.time else gapStart) = gapStart) ∨
          (if gapStart = -1 then slot.time else gapStart) = slot.time := by
        split
        · exact Or.inr rfl
        · next hset => exact Or.inl ⟨hset, rfl⟩
      -- the gaps that follow start at a CPU that comes later
      have hlater : ∀ {start : ℤ} {others : List PlanGap}, start = slot.time →
          gapsOfJob job slots cpus start = .ok others → gap ∈ others →
          ∃ d ∈ c :: cpus, gap.startTime = slotTime slots d := by
        intro start others heq hothers hmem
        rcases ih hothers gap hmem with ⟨-, hs⟩ | ⟨d, hd, hs⟩
        · exact ⟨c, List.mem_cons_self, by rw [hs, heq, htime]⟩
        · exact ⟨d, List.mem_cons_of_mem _ hd, hs⟩
      dsimp only at h
      generalize (if gapStart = -1 then slot.time else gapStart) = start at h hstart
      split at h
      · next hne =>
          obtain ⟨first, hfirst, h⟩ := bind_ok.mp h
          obtain ⟨others, hothers, h⟩ := bind_ok.mp h
          rw [← pure_ok.mp h] at hgap
          rcases List.mem_cons.mp hgap with rfl | hgap
          · obtain ⟨hset, heq⟩ := hstart.resolve_right hne
            refine Or.inl ⟨hset, ?_⟩
            rw [(gapMemoryCreate_times hfirst).1, ← heq]
            rfl
          · exact Or.inr (hlater rfl hothers hgap)
      · next heq => exact Or.inr (hlater (not_not.mp heq) h hgap)

/-- No CPU is counted twice, on any node at any time before a last one, exactly if those that are
free before are distinct. -/
theorem readyCount_eq_card_before_iff (slots : List FirstFreeSlot) {cpus : List ℕ} {latest : ℤ}
    (hfree : ∀ c ∈ cpus, slotTime slots c ≠ -1) :
    (∀ n t, t < latest → readyCount slots cpus n t = (readyCpus slots cpus n t).card) ↔
      (cpus.filter (fun c => slotTime slots c < latest)).Nodup := by
  simp only [readyCount_eq_card_iff, List.nodup_iff_count_le_one]
  have hkept : ∀ (p : ℕ → Bool) {c : ℕ}, p c = true → (cpus.filter p).count c = cpus.count c :=
    fun _ _ hp => List.count_filter hp
  constructor
  · intro h c
    by_cases hc : c ∈ cpus.filter (fun c => slotTime slots c < latest)
    · obtain ⟨hmem, hearly⟩ := List.mem_filter.mp hc
      obtain ⟨slot, hslot, -⟩ := exists_slot_of_slotTime (hfree c hmem)
      have hready : decide (slotNode slots c = some slot.ninfo ∧
          slotTime slots c ≤ slotTime slots c) = true := by
        rw [slotNode, hslot]
        exact decide_eq_true ⟨rfl, le_rfl⟩
      have hcount := h slot.ninfo (slotTime slots c) (of_decide_eq_true hearly) c
      rw [hkept (fun d => decide (slotNode slots d = some slot.ninfo ∧
        slotTime slots d ≤ slotTime slots c)) hready] at hcount
      exact (hkept _ hearly).le.trans hcount
    · rw [List.count_eq_zero_of_not_mem hc]
      exact Nat.zero_le 1
  · intro h n t ht c
    by_cases hc : c ∈ cpus.filter
        (fun c => slotNode slots c = some n ∧ slotTime slots c ≤ t)
    · obtain ⟨hmem, hready⟩ := List.mem_filter.mp hc
      have hearly : slotTime slots c < latest := by
        have := (of_decide_eq_true hready).2
        omega
      have hcount := h c
      have hearly' : decide (slotTime slots c < latest) = true := decide_eq_true hearly
      rw [hkept (fun d => decide (slotTime slots d < latest)) hearly'] at hcount
      exact (hkept _ hready).le.trans hcount
    · rw [List.count_eq_zero_of_not_mem hc]
      exact Nat.zero_le 1

/-- **Whether the gaps in front of a job are the idle time of its CPUs** is whether the job starts
when the last one is free and none of those that are free before is entered twice. -/
theorem givesBack_iff {slots : List FirstFreeSlot} {job : PlanJob} {gaps : List PlanGap}
    {latest : ℤ} (hsorted : ByTime (slotTime slots) job.cpuIndexes)
    (hfree : ∀ c ∈ job.cpuIndexes, slotTime slots c ≠ -1)
    (hgaps : gapsOfJob job slots job.cpuIndexes (-1) = .ok gaps)
    (hlatest : IsGreatest {t | ∃ c ∈ job.cpuIndexes, slotTime slots c = t} latest)
    (hstart : latest ≤ job.startTime) :
    GivesBack slots job gaps ↔ job.startTime = latest ∧
      (job.cpuIndexes.filter (fun c => slotTime slots c < latest)).Nodup := by
  obtain ⟨⟨last, hlast, htime⟩, hmax⟩ := hlatest
  have hle : ∀ c ∈ job.cpuIndexes, slotTime slots c ≤ latest := fun c hc => hmax ⟨c, hc, rfl⟩
  have htotal := gapsOfJob_totalAt hsorted hfree hgaps
  rw [← readyCount_eq_card_before_iff slots hfree]
  constructor
  · intro h
    have hsame : job.startTime = latest := by
      by_contra hne
      -- when the last CPU is free and the job does not start, no gap has its node
      obtain ⟨slot, hslot, -⟩ := exists_slot_of_slotTime (hfree last hlast)
      obtain ⟨n, hnode⟩ : ∃ n, slotNode slots last = some n := by
        rw [slotNode, hslot]
        exact ⟨slot.ninfo, rfl⟩
      have hcount := h.counted n latest ⟨last, hlast, htime.le⟩ (by omega)
      rw [cpusAt, htotal, if_neg] at hcount
      · have hmem : last ∈ readyCpus slots job.cpuIndexes n latest := by
          rw [readyCpus, Finset.mem_filter, mem_nodeSlots_iff]
          exact ⟨hnode, hlast, htime.le⟩
        have hpos := Finset.card_pos.mpr ⟨last, hmem⟩
        omega
      · rintro ⟨-, c, hc, hlt⟩
        exact absurd (hle c hc) (by omega)
    refine ⟨hsame, ?_⟩
    intro n t ht
    by_cases hready : ∃ c ∈ job.cpuIndexes, slotTime slots c ≤ t
    · have hcount := h.counted n t hready (by omega)
      rw [cpusAt, htotal, if_pos ⟨hready, last, hlast, by omega⟩] at hcount
      exact_mod_cast hcount
    · -- before the first CPU is free there is nothing to count
      rw [readyCpus_eq, readyCount, List.filter_eq_nil_iff.mpr]
      · rfl
      · intro c hc hboth
        exact hready ⟨c, hc, (of_decide_eq_true hboth).2⟩
  · rintro ⟨heq, hdistinct⟩
    refine ⟨?_, ?_⟩
    · intro n t hready ht
      rw [cpusAt, htotal, if_pos ⟨hready, last, hlast, by omega⟩, hdistinct n t (by omega)]
    · intro gap hgap t hcovers
      constructor
      · rcases gapsOfJob_starts _ hgaps gap hgap with ⟨hset, -⟩ | ⟨c, hc, hs⟩
        · exact absurd rfl hset
        · exact ⟨c, hc, hs ▸ hcovers.1⟩
      · obtain ⟨-, c, hc, -, hend⟩ := gapsOfJob_spec _ hsorted (Or.inl rfl) hgaps gap hgap
        have hbefore := hcovers.2
        have := hle c hc
        omega

section placement

variable {conf : LimitsForClusters} {cluster : PlanCluster} {values : LimitsValues}
  {limits : List PlanLimit} {slots : List FirstFreeSlot} {job : PlanJob} {update : JobUpdate}

/-- The limits delay a job that would start at `t`. -/
def LimitsDelay (conf : LimitsForClusters) (cluster : PlanCluster) (values : LimitsValues)
    (limits : List PlanLimit) (job : PlanJob) (t : ℤ) : Prop :=
  ∃ foundLimit, walltimeSuitsToLimit conf job.estimatedProcessing cluster = .ok foundLimit ∧
    InTheWay values foundLimit limits (job.startAt t)

/-- The choice of CPUs leaves the account. -/
theorem placeShared_accountId {placed : PlanJob}
    (h : placeShared cluster job slots = .ok (some placed)) : placed.accountId = job.accountId := by
  obtain ⟨avail, sel, -, -, rfl⟩ := placeShared_ok h
  rfl

/-- The limits read nothing of a placement but its times. -/
theorem SharedPlacement.inTheWay_iff {placed : PlanJob} {foundLimit : ℕ}
    (h : SharedPlacement slots job placed) (haccount : placed.accountId = job.accountId) :
    InTheWay values foundLimit limits placed ↔
      InTheWay values foundLimit limits (job.startAt placed.startTime) := by
  have hcpus : placed.limitCpus = job.limitCpus := by
    rw [PlanJob.limitCpus, h.reqPpn_eq, h.reqNumNodes_eq, PlanJob.limitCpus]
  have hcompletion : placed.completionTime = (job.startAt placed.startTime).completionTime := by
    rw [h.completion, h.estimatedProcessing_eq]
    rfl
  have hover : ∀ limit : PlanLimit, limit.Overflows values foundLimit placed ↔
      limit.Overflows values foundLimit (job.startAt placed.startTime) := by
    intro limit
    unfold PlanLimit.Overflows PlanLimit.ClassOverflows PlanLimit.AccountOverflows
    rw [hcpus, haccount]
    rfl
  have hconcerns : ∀ (limit : PlanLimit) (next : Option PlanLimit), limit.concerns next placed ↔
      limit.concerns next (job.startAt placed.startTime) := by
    intro limit next
    unfold PlanLimit.concerns
    rw [hcompletion]
    rfl
  unfold InTheWay
  simp only [hover, hconcerns]

/-- The loop never takes a CPU that the array still has. -/
def NeverRepeats (cluster : PlanCluster) (slots : List FirstFreeSlot) (job : PlanJob) : Prop :=
  ∀ sel₀ sel c slot, LoopStarts cluster slots job sel₀ →
    LoopReaches cluster slots job (wipeFixedNodes job).2 sel₀ sel →
    sel.cpuIndexes.length < job.usage → ithSmallest slots sel = some c → slots[c]? = some slot →
    c ∉ (considerNode job sel c slot.ninfo).cpuIndexes

/-- If every cut is clean, no CPU comes back while the array has it. -/
theorem CleanCuts.neverRepeats (hclean : CleanCuts cluster slots job)
    (hnodes : job.ninfoArr.length = job.reqNumNodes) : NeverRepeats cluster slots job := by
  intro sel₀ sel c slot hstart hreach hlt hc hslot hmem
  obtain ⟨complete, hinv, -⟩ := hreach.chosenInv hclean hnodes hstart
  obtain ⟨slot', hslot', hok⟩ := ithSmallest_spec hc
  have hkept : c ∈ sel.cpuIndexes := by
    unfold considerNode at hmem
    split at hmem
    · exact List.mem_of_mem_take hmem
    · exact hmem
  exact hinv.chosen_new hok (hinv.perm.mem_iff.mp hkept)

/-- Then the array never has a CPU twice. -/
theorem LoopReaches.nodup {sel₀ sel : Selection} (hnever : NeverRepeats cluster slots job)
    (hstart : LoopStarts cluster slots job sel₀)
    (h : LoopReaches cluster slots job (wipeFixedNodes job).2 sel₀ sel) :
    sel.cpuIndexes.Nodup := by
  induction h with
  | start =>
      obtain ⟨avail, -, rfl⟩ := hstart
      exact List.nodup_nil
  | @pass sel sel' c hreach hlt hc hstep ih =>
      obtain ⟨slot, hslot⟩ := exists_slot_of_takeCpu hstep
      have hnew := hnever _ _ _ slot hstart hreach hlt hc hslot
      have hkept : (considerNode job sel c slot.ninfo).cpuIndexes.Nodup := by
        unfold considerNode
        split
        · exact ih.sublist (List.take_sublist _ _)
        · exact ih
      have hentered : (enterCpu slots (considerNode job sel c slot.ninfo) c).cpuIndexes.Nodup :=
        (perm_insertByTime _ c _).nodup_iff.mpr (List.nodup_cons.mpr ⟨hnew, hkept⟩)
      rw [takeCpu_eq hslot rfl] at hstep
      split at hstep
      · obtain ⟨-, -, hcpus, -⟩ := completeChunk_spec hstep
        rw [hcpus]
        exact hentered
      · cases hstep
        exact hentered

/-- The result of the loop, from any state that it goes through. -/
theorem LoopReaches.result {wiped : Bool} {sel₀ sel : Selection} {result : Option Selection}
    (h : LoopReaches cluster slots job wiped sel₀ sel) :
    ∀ fuel, selectCpus cluster slots job wiped fuel sel₀ = .ok result →
      ∃ fuel', selectCpus cluster slots job wiped fuel' sel = .ok result := by
  induction h with
  | start => exact fun fuel hrun => ⟨fuel, hrun⟩
  | @pass sel sel' c _ hlt hc hstep ih =>
      intro fuel hrun
      obtain ⟨fuel', hrun'⟩ := ih fuel hrun
      cases fuel' with
      | zero => cases hrun'
      | succ fuel' =>
          rw [selectCpus, if_pos hlt, hc] at hrun'
          dsimp only at hrun'
          rw [hstep] at hrun'
          exact ⟨fuel', hrun'⟩

/-- The limits delay the start with which the loop ends. -/
def StartDelayed (conf : LimitsForClusters) (cluster : PlanCluster) (values : LimitsValues)
    (limits : List PlanLimit) (slots : List FirstFreeSlot) (job : PlanJob) : Prop :=
  ∃ sel₀ sel, LoopStarts cluster slots job sel₀ ∧
    LoopReaches cluster slots job (wipeFixedNodes job).2 sel₀ sel ∧
    job.usage ≤ sel.cpuIndexes.length ∧
    LimitsDelay conf cluster values limits job sel.startTime

/-- The choice of CPUs ends in one state of the loop, with the start of the job and its CPUs. -/
theorem placeShared_endState {placed : PlanJob}
    (h : placeShared cluster job slots = .ok (some placed)) :
    ∃ sel₀ sel, LoopStarts cluster slots job sel₀ ∧
      LoopReaches cluster slots job (wipeFixedNodes job).2 sel₀ sel ∧
      placed.cpuIndexes = sel.cpuIndexes ∧
      (StartDelayed conf cluster values limits slots job ↔
        LimitsDelay conf cluster values limits job placed.startTime) := by
  obtain ⟨avail, sel, havail, hselected, rfl⟩ := placeShared_ok h
  have hstart : LoopStarts cluster slots job
      (Selection.initial job (wipeFixedNodes job).1 avail) := ⟨avail, havail, rfl⟩
  have hreach := selectCpus_reaches _ .start hselected
  obtain ⟨-, hlength⟩ := selectCpus_inv _ (initial_inv havail _) (Nat.zero_le _) hselected
  refine ⟨_, sel, hstart, hreach, rfl, ?_⟩
  constructor
  · rintro ⟨sel₀, sel', ⟨avail', havail', rfl⟩, hreach', hended, hdelay⟩
    obtain rfl := Except.ok.inj (havail.symm.trans havail')
    obtain ⟨fuel, hrun⟩ := hreach'.result _ hselected
    cases fuel with
    | zero => cases hrun
    | succ fuel =>
        rw [selectCpus, if_neg (not_lt.mpr hended)] at hrun
        cases hrun
        exact hdelay
  · exact fun hdelay => ⟨_, sel, hstart, hreach, hlength.ge, hdelay⟩

/-- **The gaps that `update_job` returns are never the idle time of the job's CPUs if the limits
delay the start, and are otherwise, if the loop takes no CPU that the array still has.** -/
theorem updateJob_givesBack_iff (hshared : job.jinfo.isExclusive = false)
    (husage : job.usage = job.reqPpn * job.reqNumNodes)
    (hinc : Increasing PlanLimit.timestamp limits)
    (h : updateJob conf cluster values limits slots job = .ok (some update)) :
    (StartDelayed conf cluster values limits slots job →
      ¬ GivesBack slots update.job update.gaps) ∧
    (NeverRepeats cluster slots job →
      (GivesBack slots update.job update.gaps ↔
        ¬ StartDelayed conf cluster values limits slots job)) := by
  rw [updateJob_shared hshared] at h
  obtain ⟨placed, hplaced, hnodes, hadjust, hdelay, hgaps, -⟩ := updateSharedJob_parts hinc h
  have hplace := placeShared_placement hplaced hnodes
  obtain ⟨hfinal, -, -⟩ := updateSharedJob_spec hinc h
  have hcpus : update.job.cpuIndexes = placed.cpuIndexes := by
    rcases hdelay with heq | ⟨t, -, heq⟩ <;> rw [heq]
    rfl
  -- the CPUs are free together at the start that the placement chose
  have hlatest : IsGreatest {t | ∃ c ∈ update.job.cpuIndexes, slotTime slots c = t}
      placed.startTime := by
    rw [hcpus]
    refine ⟨placeShared_start hplaced hnodes husage, ?_⟩
    rintro t ⟨c, hc, rfl⟩
    refine hplace.start_latest ?_ c hc
    rw [hplace.usage_eq, hplace.reqPpn_eq, hplace.reqNumNodes_eq]
    exact husage.le
  have hstart : placed.startTime ≤ update.job.startTime := by
    rcases hdelay with heq | ⟨t, ht, heq⟩ <;> rw [heq]
    exact ht.le
  have hgives := givesBack_iff hfinal.byTime hfinal.chosen_free hgaps hlatest hstart
  obtain ⟨sel₀, sel, hstarts, hreach, hchosen, hdelayed⟩ :=
    @placeShared_endState conf cluster values limits slots job placed hplaced
  unfold adjustJobStarttimeAccordingToLimits at hadjust
  obtain ⟨foundLimit, hfound, hadjust⟩ := bind_ok.mp hadjust
  rw [hplace.estimatedProcessing_eq] at hfound
  have hway : InTheWay values foundLimit limits placed ↔
      LimitsDelay conf cluster values limits job placed.startTime := by
    rw [hplace.inTheWay_iff (placeShared_accountId hplaced)]
    constructor
    · intro hdelays
      exact ⟨foundLimit, hfound, hdelays⟩
    · rintro ⟨found, hfound', hdelays⟩
      rwa [Except.ok.inj (hfound.symm.trans hfound')]
  rw [adjustToLimits_same_iff limits hinc hadjust, hway, ← hdelayed] at hgives
  refine ⟨fun hdelays hback => (hgives.mp hback).1 hdelays, ?_⟩
  intro hnever
  rw [hgives, and_iff_left]
  rw [hcpus, hchosen]
  exact (hreach.nodup hnever hstarts).filter _

end placement

/-- Two CPUs, free at `0` and at `10`, and nobody else in the limits: the gap from `0` to `10`
has the first one. -/
theorem updateJob_givesBack_two :
    ∃ update, updateJob oneClass (nodesOf [2]) ⟨[4], [4]⟩ [] (slotsAt [(0, 0), (0, 10)])
        (PlanJob.filled 0 default 2 1 (by decide) 0 100 0 0) = .ok (some update) ∧
      GivesBack (slotsAt [(0, 0), (0, 10)]) update.job update.gaps := by
  have hrun : (do
      let update ← updateJob oneClass (nodesOf [2]) ⟨[4], [4]⟩ [] (slotsAt [(0, 0), (0, 10)])
        (PlanJob.filled 0 default 2 1 (by decide) 0 100 0 0)
      return update.map (fun update => update.job.cpuIndexes) : Run (Option (List ℕ)))
      = .ok (some [0, 1]) := by
    decide +kernel
  obtain ⟨update, hupdate, hresult⟩ := bind_ok.mp hrun
  obtain ⟨update, rfl, -⟩ := Option.map_eq_some_iff.mp (pure_ok.mp hresult)
  refine ⟨update, hupdate, ((updateJob_givesBack_iff rfl rfl List.Pairwise.nil hupdate).2
    ((cleanCuts_of_one_chunk rfl rfl).neverRepeats rfl)).mpr ?_⟩
  rintro ⟨sel₀, sel, -, -, -, found, -, pre, limit, rest, heq, -⟩
  cases pre <;> cases heq

/-- The same CPUs, with three of four CPUs in use by others until `50`: the job starts at `50`,
and from `10` to `50` its CPUs are idle and in no gap.  And on three nodes with three CPUs each, the
first CPU of node `0` is taken up again while it is in the array: at `1` one CPU is free and the gap
has two. -/
theorem delayed_job_loses_idle_time :
    (∃ update, updateJob oneClass (nodesOf [2]) ⟨[4], [4]⟩
        [⟨0, [⟨7, [3, 0, 0, 0, 0, 0, 0, 0], rfl⟩]⟩, ⟨50, []⟩] (slotsAt [(0, 0), (0, 10)])
        (PlanJob.filled 0 default 2 1 (by decide) 0 100 0 0) = .ok (some update) ∧
      ¬ GivesBack (slotsAt [(0, 0), (0, 10)]) update.job update.gaps) ∧
    (∃ update, updateJob oneClass (nodesOf [3, 3, 3]) ⟨[], []⟩ []
        (slotsAt [(0, 1), (0, 5), (0, 20), (1, 2), (1, 3), (1, 4), (2, 10), (2, 11), (2, 12)])
        (PlanJob.filled 0 default 9 3 (by decide) 0 100 0 0) = .ok (some update) ∧
      ¬ GivesBack
        (slotsAt [(0, 1), (0, 5), (0, 20), (1, 2), (1, 3), (1, 4), (2, 10), (2, 11), (2, 12)])
        update.job update.gaps) := by
  constructor
  · have hrun : (do
        let update ← updateJob oneClass (nodesOf [2]) ⟨[4], [4]⟩
          [⟨0, [⟨7, [3, 0, 0, 0, 0, 0, 0, 0], rfl⟩]⟩, ⟨50, []⟩] (slotsAt [(0, 0), (0, 10)])
          (PlanJob.filled 0 default 2 1 (by decide) 0 100 0 0)
        return update.map (fun update => (update.job.cpuIndexes, update.job.startTime,
          cpusAt update.gaps 0 20)) : Run (Option (List ℕ × ℤ × ℤ)))
        = .ok (some ([0, 1], 50, 0)) := by
      decide +kernel
    obtain ⟨update, hupdate, hresult⟩ := bind_ok.mp hrun
    obtain ⟨update, rfl, hvalues⟩ := Option.map_eq_some_iff.mp (pure_ok.mp hresult)
    simp only [Prod.mk.injEq] at hvalues
    obtain ⟨hcpus, hstart, hcount⟩ := hvalues
    refine ⟨update, hupdate, ?_⟩
    intro h
    have hcounted := h.counted 0 20 (by rw [hcpus]; exact ⟨0, by decide, by decide⟩)
      (by rw [hstart]; decide)
    rw [hcount, hcpus, readyCpus_eq] at hcounted
    exact absurd hcounted (by decide)
  · have hrun : (do
        let update ← updateJob oneClass (nodesOf [3, 3, 3]) ⟨[], []⟩ []
          (slotsAt [(0, 1), (0, 5), (0, 20), (1, 2), (1, 3), (1, 4), (2, 10), (2, 11), (2, 12)])
          (PlanJob.filled 0 default 9 3 (by decide) 0 100 0 0)
        return update.map (fun update => (update.job.cpuIndexes, update.job.startTime,
          cpusAt update.gaps 0 1)) : Run (Option (List ℕ × ℤ × ℤ)))
        = .ok (some ([0, 0, 3, 4, 1, 6, 7, 8, 2], 20, 2)) := by
      decide +kernel
    obtain ⟨update, hupdate, hresult⟩ := bind_ok.mp hrun
    obtain ⟨update, rfl, hvalues⟩ := Option.map_eq_some_iff.mp (pure_ok.mp hresult)
    simp only [Prod.mk.injEq] at hvalues
    obtain ⟨hcpus, hstart, hcount⟩ := hvalues
    refine ⟨update, hupdate, ?_⟩
    intro h
    have hcounted := h.counted 0 1 (by rw [hcpus]; exact ⟨0, by decide, by decide⟩)
      (by rw [hstart]; decide)
    rw [hcount, hcpus, readyCpus_eq] at hcounted
    exact absurd hcounted (by decide)

end PlanSched
