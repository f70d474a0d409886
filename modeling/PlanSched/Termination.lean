/-
# Every rebuild of a plan ends

The loops of `update_sched` and of what it calls are modelled with budgets.  This
module shows that no budget ever runs out, so that a call of `update_sched` either
returns or reaches one of the faults of the source itself.

The loop of `update_job` is the one whose end is not obvious, since it may look at
a CPU again after the node was abandoned.  Every pass takes a CPU that was never
tried, or one that was not tried in the present attempt; `selectionMeasure` counts
both, the former with a weight above all of the latter.
-/
import PlanSched.UpdateSched

namespace PlanSched

open CheckedRun

/-! ## The choice of CPUs -/

/-- The slot was never tried for this job. -/
def SlotAvailability.fresh : SlotAvailability → Bool
  | .free | .notEnoughAvailableMem => true
  | _ => false

/-- The slot was tried for this job, but not in attempt `attemptCount`. -/
def SlotAvailability.stale (attemptCount : ℕ) : SlotAvailability → Bool
  | .tried attempt => decide (attempt < attemptCount)
  | _ => false

/-- The passes the loop can still make. -/
def selectionMeasure (sel : Selection) : ℕ :=
  sel.avail.countP SlotAvailability.fresh * (sel.avail.length + 1) +
    sel.avail.countP (SlotAvailability.stale sel.attemptCount)

/-- A count only goes down when every counted cell was there before. -/
theorem countP_le_of_getElem? {α : Type} {p : α → Bool} (xs : List α) :
    ∀ {ys : List α}, ys.length = xs.length →
      (∀ (i : ℕ) (a : α), ys[i]? = some a → p a = true → xs[i]? = some a) →
      ys.countP p ≤ xs.countP p := by
  induction xs with
  | nil =>
      intro ys hlength _
      rw [List.length_nil] at hlength
      rw [List.length_eq_zero_iff.mp hlength]
  | cons x xs ih =>
      intro ys hlength h
      cases ys with
      | nil => exact Nat.zero_le _
      | cons y ys =>
          have htail : ys.countP p ≤ xs.countP p := by
            refine ih (Nat.succ.inj hlength) ?_
            intro i a hget hp
            exact h (i + 1) a hget hp
          rw [List.countP_cons, List.countP_cons]
          by_cases hy : p y = true
          · have hx := h 0 y rfl hy
            cases hx
            omega
          · rw [if_neg hy]
            omega

/-- A complete chunk leaves no more passes than before. -/
theorem completeChunk_measure_le {cluster : PlanCluster} {slots : List FirstFreeSlot}
    {job : PlanJob} {wiped : Bool} {sel sel' : Selection} {ninfo : ℕ}
    (h : completeChunk cluster slots job wiped sel ninfo = .ok sel') :
    selectionMeasure sel' ≤ selectionMeasure sel := by
  have hreset := completeChunk_reset h
  have hlength := hreset.avail_length
  obtain ⟨-, -, -, -, -, -, havail⟩ := completeChunk_spec h
  have hfresh : sel'.avail.countP SlotAvailability.fresh
      ≤ sel.avail.countP SlotAvailability.fresh := by
    refine countP_le_of_getElem? _ hlength ?_
    intro i a ha hp
    refine havail i a ha ?_
    cases a <;> first | rfl | cases hp
  have hstale : sel'.avail.countP (SlotAvailability.stale sel.attemptCount)
      ≤ sel.avail.countP (SlotAvailability.stale sel.attemptCount) := by
    refine countP_le_of_getElem? _ hlength ?_
    intro i a ha hp
    refine havail i a ha ?_
    cases a <;> first | rfl | cases hp
  unfold selectionMeasure
  rw [hlength, hreset.attempt_eq]
  exact Nat.add_le_add (Nat.mul_le_mul_right _ hfresh) hstale

/-- The chosen slot is marked with the present attempt, which is a new one only when
a node is abandoned. -/
theorem considerNode_attempt (job : PlanJob) (sel : Selection) (c ninfo : ℕ) :
    (considerNode job sel c ninfo).avail =
        sel.avail.set c (.tried (considerNode job sel c ninfo).attemptCount) ∧
      (sel.consideredNode = some ninfo →
        (considerNode job sel c ninfo).attemptCount = sel.attemptCount) := by
  unfold considerNode
  split
  · next habandon => exact ⟨rfl, fun hsame => absurd hsame habandon.2⟩
  · exact ⟨rfl, fun _ => rfl⟩

/-- Entering a CPU that may be chosen uses up a pass. -/
theorem considerNode_measure_lt {slots : List FirstFreeSlot} {job : PlanJob} {sel : Selection}
    {c : ℕ} {slot : FirstFreeSlot} (hok : eligible slots sel c slot = true) :
    selectionMeasure (considerNode job sel c slot.ninfo) < selectionMeasure sel := by
  obtain ⟨havail, hattempt⟩ := considerNode_attempt job sel c slot.ninfo
  generalize considerNode job sel c slot.ninfo = sel' at havail hattempt
  have hlength : sel'.avail.length = sel.avail.length := by rw [havail, List.length_set]
  have hnewstale : sel'.avail.countP (SlotAvailability.stale sel'.attemptCount)
      ≤ sel.avail.length := by
    rw [← hlength]
    exact List.countP_le_length
  unfold selectionMeasure
  rw [hlength]
  unfold eligible at hok
  cases ha : sel.avail[c]? with
  | none =>
      rw [ha] at hok
      cases hok
  | some a =>
      obtain ⟨hc, hget⟩ := List.getElem?_eq_some_iff.mp ha
      have hcount : ∀ p : SlotAvailability → Bool, sel'.avail.countP p = sel.avail.countP p -
          (if p a = true then 1 else 0) +
            (if p (.tried sel'.attemptCount) = true then 1 else 0) := by
        intro p
        rw [havail, List.countP_set hc, hget]
      have hpos : ∀ p : SlotAvailability → Bool, p a = true → 0 < sel.avail.countP p := by
        intro p hp
        exact List.countP_pos_iff.mpr ⟨a, List.mem_of_getElem? ha, hp⟩
      rw [ha] at hok
      cases hfresh : a.fresh with
      | true =>
          -- the slot was never tried: the weighted count goes down
          have hdown : sel'.avail.countP SlotAvailability.fresh + 1
              = sel.avail.countP SlotAvailability.fresh := by
            have := hpos SlotAvailability.fresh hfresh
            rw [hcount SlotAvailability.fresh, hfresh]
            simp only [SlotAvailability.fresh, if_true, Bool.false_eq_true, if_false]
            omega
          rw [← hdown, Nat.add_mul, one_mul]
          omega
      | false =>
          -- the slot was tried before, on the node under consideration
          cases a with
          | tried attempt =>
              simp only [Bool.and_eq_true, decide_eq_true_eq, beq_iff_eq] at hok
              have hsame := hattempt hok.2.symm
              have hfresh' := hcount SlotAvailability.fresh
              have hstale := hcount (SlotAvailability.stale sel.attemptCount)
              have hold := hpos (SlotAvailability.stale sel.attemptCount)
                (by simpa [SlotAvailability.stale] using hok.1)
              rw [hsame] at hstale hfresh' ⊢
              simp only [SlotAvailability.fresh, SlotAvailability.stale, hok.1, decide_true,
                if_true, Bool.false_eq_true, if_false, lt_irrefl, decide_false] at hfresh' hstale
              rw [hfresh', Nat.sub_zero, Nat.add_zero]
              omega
          | free => cases hfresh
          | notEnoughAvailableMem => cases hfresh
          | nodeDown => cases hok
          | notEnoughCpus => cases hok
          | notEnoughMem => cases hok
          | alreadyUsed => cases hok
          | prohibitedNode => cases hok
          | availBefore => cases hok
          | walltimeLimit => cases hok

/-- Every pass of the loop of `update_job` uses up a pass. -/
theorem takeCpu_measure_lt {cluster : PlanCluster} {slots : List FirstFreeSlot} {job : PlanJob}
    {wiped : Bool} {sel sel' : Selection} {c : ℕ} (hc : ithSmallest slots sel = some c)
    (h : takeCpu cluster slots job wiped sel c = .ok sel') :
    selectionMeasure sel' < selectionMeasure sel := by
  obtain ⟨slot, hslot, hok⟩ := ithSmallest_spec hc
  rw [takeCpu_eq hslot rfl] at h
  have hlt : selectionMeasure (enterCpu slots (considerNode job sel c slot.ninfo) c)
      < selectionMeasure sel := considerNode_measure_lt hok
  split at h
  · exact lt_of_le_of_lt (completeChunk_measure_le h) hlt
  · rw [← Except.ok.inj h]
    exact hlt

/-- A pass of the loop of `update_job` ends. -/
theorem takeCpu_ends (cluster : PlanCluster) (slots : List FirstFreeSlot) (job : PlanJob)
    (wiped : Bool) (sel : Selection) (c : ℕ) :
    Avoids .outOfSteps (takeCpu cluster slots job wiped sel c) := by
  unfold takeCpu
  refine (getAt_ends _ _).bind (fun slot _ => ?_)
  dsimp only
  split
  · unfold completeChunk
    split
    · exact avoids_error (by decide)
    · refine (getAt_ends _ _).bind (fun node _ => ?_)
      refine (deref_ends _).bind (fun last _ => ?_)
      exact (deref_ends _).bind (fun latest _ => avoids_ok _ _)
  · exact avoids_ok _ _

/-- The loop of `update_job` ends within a budget above its measure. -/
theorem selectCpus_ends (cluster : PlanCluster) (slots : List FirstFreeSlot) (job : PlanJob)
    (wiped : Bool) (fuel : ℕ) : ∀ sel : Selection, selectionMeasure sel < fuel →
      Avoids .outOfSteps (selectCpus cluster slots job wiped fuel sel) := by
  induction fuel with
  | zero =>
      intro sel hfuel
      exact absurd hfuel (Nat.not_lt_zero _)
  | succ fuel ih =>
      intro sel hfuel
      rw [selectCpus]
      split
      · split
        · exact avoids_ok _ _
        · next c hc =>
            refine (takeCpu_ends cluster slots job wiped sel c).bind (fun sel' hsel' => ?_)
            have := takeCpu_measure_lt hc hsel'
            exact ih sel' (by omega)
      · exact avoids_ok _ _

/-- The budget of `update_job` is above the measure before the loop. -/
theorem selectionMeasure_initial (job : PlanJob) (fixedNnameArr : List (Option String))
    (avail : List SlotAvailability) :
    selectionMeasure (Selection.initial job fixedNnameArr avail)
      < selectionBudget avail.length := by
  have hfresh := List.countP_le_length (p := SlotAvailability.fresh) (l := avail)
  have hstale := List.countP_le_length (p := SlotAvailability.stale 1) (l := avail)
  have hmul := Nat.mul_le_mul_right (avail.length + 1) hfresh
  show avail.countP SlotAvailability.fresh * (avail.length + 1) +
    avail.countP (SlotAvailability.stale 1) < (avail.length + 1) * (avail.length + 1) + 1
  rw [Nat.add_mul avail.length 1 (avail.length + 1)]
  omega

/-! ## The gaps -/

/-- The walk does not move when the gap in front ends in time. -/
theorem walkBack_eq_of_getLast? {pre post : List PlanGap} {startTime : ℤ}
    (hpre : ∀ last ∈ pre.getLast?, last.endTime ≤ startTime) :
    walkBack (pre ++ post) startTime pre.length = pre.length := by
  rcases List.eq_nil_or_concat pre with rfl | ⟨init, last, rfl⟩
  · rfl
  · rw [List.concat_eq_append] at hpre ⊢
    rw [List.length_append, List.length_singleton, walkBack]
    have hget : (init ++ [last] ++ post)[init.length]? = some last := by simp
    rw [hget]
    dsimp only
    rw [if_pos (hpre last (by simp))]

/-- The further calls of `insert_new_gap` end: each is made at a position behind a
gap that ends when the rest of the new gap starts, one position closer to the end of
the list. -/
theorem insertNewGapAux_ends_behind (cluster : PlanCluster) (jobs : List PlanJob) (fuel : ℕ) :
    ∀ (pre post : List PlanGap) (gapNew : PlanGap), pre ≠ [] →
      (∀ last ∈ pre.getLast?, last.endTime ≤ gapNew.startTime) → post.length < fuel →
      Avoids .outOfSteps (insertNewGapAux cluster jobs fuel (pre ++ post)
        (if post = [] then none else some pre.length) gapNew) := by
  induction fuel with
  | zero =>
      intro pre post gapNew _ _ hfuel
      exact absurd hfuel (Nat.not_lt_zero _)
  | succ fuel ih =>
      intro pre post gapNew hne hpre hfuel
      have hcall := insertNewGapAux_call cluster jobs fuel (pre ++ post)
        (if post = [] then none else some pre.length) gapNew
      generalize insertNewGapAux cluster jobs (fuel + 1) (pre ++ post)
        (if post = [] then none else some pre.length) gapNew = result at hcall ⊢
      cases hcall with
      | append => exact avoids_ok _ _
      | before => exact avoids_ok _ _
      | same => exact avoids_ok _ _
      | inside => exact avoids_ok _ _
      | beyond pre' post' front last last' gapNew' hsplit hposition hlast hpre' hmeets halign
          hend =>
          refine ih _ _ _ (by simp) ?_ ?_
          · intro gap hgap
            rw [← List.append_assoc, List.getLast?_concat] at hgap
            cases hgap
            exact le_rfl
          · cases post with
            | nil =>
                -- behind the last gap the new one would have been appended
                rw [if_pos rfl, Option.getD_none, List.append_nil,
                  ← List.getLast?_eq_getElem?] at hlast
                have hget := List.getLast?_eq_some_getLast hne
                have := hpre _ hget
                have := hlast _ hget
                omega
            | cons next post =>
                rw [if_neg (List.cons_ne_nil _ _), Option.getD_some,
                  walkBack_eq_of_getLast? hpre] at hposition
                have hlengths := congrArg List.length hsplit
                simp only [List.length_append, List.length_cons] at hlengths hfuel
                omega

/-- Every call of `insert_new_gap` ends. -/
theorem insertNewGap_ends (cluster : PlanCluster) (jobs : List PlanJob) (gaps : List PlanGap)
    (gapNew : PlanGap) : Avoids .outOfSteps (insertNewGap cluster jobs gaps gapNew) := by
  unfold insertNewGap
  have hcall := insertNewGapAux_call cluster jobs (gaps.length + 1) gaps none gapNew
  generalize insertNewGapAux cluster jobs (gaps.length + 2) gaps none gapNew = result at hcall ⊢
  cases hcall with
  | append => exact avoids_ok _ _
  | before => exact avoids_ok _ _
  | same => exact avoids_ok _ _
  | inside => exact avoids_ok _ _
  | beyond pre post front last last' gapNew' hsplit hposition hlast hpre hmeets halign hend =>
      refine insertNewGapAux_ends_behind cluster jobs _ _ _ _ (by simp) ?_ ?_
      · intro gap hgap
        rw [← List.append_assoc, List.getLast?_concat] at hgap
        cases hgap
        exact le_rfl
      · have hlengths := congrArg List.length hsplit
        simp only [List.length_append, List.length_cons] at hlengths
        omega

/-- The gaps in front of a job end. -/
theorem gapsOfJob_ends (job : PlanJob) (slots : List FirstFreeSlot) (cpus : List ℕ) :
    ∀ gapStart : ℤ, Avoids .outOfSteps (gapsOfJob job slots cpus gapStart) := by
  induction cpus with
  | nil =>
      intro gapStart
      exact avoids_ok _ _
  | cons c cpus ih =>
      intro gapStart
      rw [gapsOfJob]
      refine (getAt_ends _ _).bind (fun slot _ => ?_)
      dsimp only
      generalize (if gapStart = -1 then slot.time else gapStart) = start
      split
      · refine Avoids.bind ?_ (fun gap _ => ?_)
        · unfold gapMemoryCreate
          exact (avoids_mapM _ (fun _ _ => getAt_ends _ _)).bind (fun _ _ => avoids_ok _ _)
        · exact (ih _).bind (fun _ _ => avoids_ok _ _)
      · exact ih _

/-- The gaps after the last use of a CPU end. -/
theorem gapsBetweenSlots_ends (cluster : PlanCluster) (slots : List FirstFreeSlot)
    (maxCompletionTime : ℤ) (n : ℕ) : ∀ (avail : List Bool) (gapStart : ℤ),
      Avoids .outOfSteps (gapsBetweenSlots cluster slots maxCompletionTime n avail gapStart) := by
  induction n with
  | zero =>
      intro avail gapStart
      exact avoids_ok _ _
  | succ n ih =>
      intro avail gapStart
      rw [gapsBetweenSlots]
      split
      · exact ih _ _
      · next c _ =>
          dsimp only
          generalize (if gapStart = -1 then slotTime slots c else gapStart) = start
          generalize (if maxCompletionTime < slotTime slots c then maxCompletionTime
            else slotTime slots c) = gapEnd
          split
          · split
            · refine Avoids.bind ?_ (fun gap _ => ?_)
              · unfold gapMemoryCreateLast
                refine (avoids_mapM _ (fun slot _ => ?_)).bind (fun _ _ => avoids_ok _ _)
                exact (getAt_ends _ _).bind (fun _ _ => avoids_ok _ _)
              · exact (ih _ _).bind (fun _ _ => avoids_ok _ _)
            · exact ih _ _
          · exact ih _ _

/-! ## The table of slots -/

/-- Creating the slots ends. -/
theorem createNodes_ends (numCpus : ℕ) (nodes : List NodeInfo) :
    ∀ (i : ℕ) (slots : List FirstFreeSlot),
      Avoids .outOfSteps (createNodes numCpus i nodes slots) := by
  induction nodes with
  | nil =>
      intro i slots
      exact avoids_ok _ _
  | cons node nodes ih =>
      intro i slots
      rw [createNodes]
      split
      · exact avoids_error (by decide)
      · exact ih _ _

/-- Initialising one CPU ends. -/
theorem initializeCpu_ends (jobsOnCpu : List (Option JobInfo)) (time : ℤ) (slot : FirstFreeSlot)
    (j : ℕ) : Avoids .outOfSteps (initializeCpu jobsOnCpu time slot j) := by
  unfold initializeCpu
  refine (getAt_ends _ _).bind (fun cell _ => ?_)
  cases cell with
  | none => exact avoids_ok _ _
  | some jinfo =>
      dsimp only
      unfold FirstFreeSlot.busy
      refine (deref_ends _).bind (fun _ _ => ?_)
      refine (deref_ends _).bind (fun _ _ => ?_)
      refine (deref_ends _).bind (fun _ _ => ?_)
      refine (cdiv_ends _ _).bind (fun _ _ => ?_)
      exact (cdiv_ends _ _).bind (fun _ _ => avoids_ok _ _)

/-- Initialising the table ends. -/
theorem initializeNodes_ends (time : ℤ) (nodes : List NodeInfo) :
    ∀ slots : List FirstFreeSlot, Avoids .outOfSteps (initializeNodes time nodes slots) := by
  induction nodes with
  | nil =>
      intro slots
      exact avoids_ok _ _
  | cons node nodes ih =>
      intro slots
      rw [initializeNodes]
      split
      · exact avoids_error (by decide)
      · refine Avoids.bind ?_ (fun _ _ => (ih _).bind (fun _ _ => avoids_ok _ _))
        unfold initializeNode
        split
        · exact avoids_ok _ _
        · split
          · exact avoids_ok _ _
          · exact (avoids_mapM _ (fun _ _ => initializeCpu_ends _ _ _ _)).bind
              (fun _ _ => avoids_ok _ _)

/-- The initial table is reached. -/
theorem initialSlots_ends (cluster : PlanCluster) (time : ℤ) :
    Avoids .outOfSteps (initialSlots cluster time) := by
  unfold initialSlots firstFreeSlotsCreate
  refine Avoids.bind ?_ (fun _ _ => initializeNodes_ends _ _ _)
  exact (createNodes_ends _ _ _ _).bind (fun _ _ => avoids_ok _ _)

/-- The update of one node ends. -/
theorem updateNode_ends (cluster : PlanCluster) (job : PlanJob) (own : ℕ → Bool)
    (slots : List FirstFreeSlot) (firstCpuNode : ℕ) :
    Avoids .outOfSteps (updateNode cluster job own slots firstCpuNode) := by
  unfold updateNode
  refine (getAt_ends _ _).bind (fun _ _ => ?_)
  exact (getAt_ends _ _).bind (fun _ _ => avoids_ok _ _)

/-- Entering a job into the table ends. -/
theorem firstFreeSlotsUpdate_ends (cluster : PlanCluster) (job : PlanJob)
    (slots : List FirstFreeSlot) : Avoids .outOfSteps (firstFreeSlotsUpdate cluster job slots) := by
  unfold firstFreeSlotsUpdate
  refine avoids_foldlM _ (fun _ _ _ => ?_) _
  exact (getAt_ends _ _).bind (fun _ _ => updateNode_ends _ _ _ _ _)

/-- The same for an exclusive job. -/
theorem firstFreeSlotsUpdateExclusive_ends (cluster : PlanCluster) (job : PlanJob)
    (slots : List FirstFreeSlot) :
    Avoids .outOfSteps (firstFreeSlotsUpdateExclusive cluster job slots) := by
  unfold firstFreeSlotsUpdateExclusive
  refine Avoids.bind (avoids_foldlM _ (fun _ _ _ => ?_) _) (fun _ _ => avoids_ok _ _)
  refine (getAt_ends _ _).bind (fun _ _ => ?_)
  refine (deref_ends _).bind (fun _ _ => ?_)
  exact (updateNode_ends _ _ _ _ _).bind (fun _ _ => avoids_ok _ _)

/-! ## The limits -/

/-- The class of a walltime is found, or there is none. -/
theorem findLimitsForCluster_ends (limits : LimitsForClusters) (cluster : String)
    (runningCpus : ℤ) : Avoids .outOfSteps (findLimitsForCluster limits cluster runningCpus) := by
  unfold findLimitsForCluster
  refine (deref_ends _).bind (fun _ _ => ?_)
  exact (deref_ends _).bind (fun _ _ => avoids_ok _ _)

/-- The same for the class itself. -/
theorem walltimeSuitsToLimit_ends (limits : LimitsForClusters) (walltime : ℤ)
    (cluster : PlanCluster) : Avoids .outOfSteps (walltimeSuitsToLimit limits walltime cluster) :=
  (findLimitsForCluster_ends _ _ _).bind (fun _ _ => avoids_ok _ _)

/-- The search for an account ends. -/
theorem limitFindAccount_ends (limit : PlanLimit) (accountId : ℤ) :
    Avoids .outOfSteps (limitFindAccount limit accountId) := by
  obtain ⟨found, hfound, -⟩ := limitFindAccount_spec limit accountId
  rw [hfound]
  exact avoids_ok _ _

/-- Entering a job into the limit profile ends. -/
theorem addJobToLimits_ends (conf : LimitsForClusters) (cluster : PlanCluster)
    (limits : List PlanLimit) (job : PlanJob) :
    Avoids .outOfSteps (addJobToLimits conf cluster limits job) := by
  unfold addJobToLimits
  refine avoids_mapM _ (fun limit _ => ?_)
  split
  · unfold addLimitToLimit
    refine (limitFindAccount_ends _ _).bind (fun _ _ => ?_)
    refine (walltimeSuitsToLimit_ends _ _ _).bind (fun _ _ => ?_)
    refine (getAt_ends _ _).bind (fun _ _ => ?_)
    exact (getAt_ends _ _).bind (fun _ _ => avoids_ok _ _)
  · exact avoids_ok _ _

/-- One pass of the adjustment to an account's limit ends. -/
theorem adjustToAccount_ends (values : LimitsValues) (foundLimit : ℕ) (limit : PlanLimit)
    (successor : Option PlanLimit) (job : PlanJob) :
    Avoids .outOfSteps (adjustToAccount values foundLimit limit successor job) := by
  unfold adjustToAccount
  refine (limitFindAccount_ends _ _).bind (fun found _ => ?_)
  cases found with
  | none => exact avoids_ok _ _
  | some foundAccount =>
      dsimp only
      split
      · refine (getAt_ends _ _).bind (fun _ _ => ?_)
        refine (getAt_ends _ _).bind (fun _ _ => ?_)
        refine (getAt_ends _ _).bind (fun _ _ => ?_)
        split
        · exact (deref_ends _).bind (fun _ _ => avoids_ok _ _)
        · exact avoids_ok _ _
      · exact avoids_ok _ _

/-- The loop over the snapshots ends. -/
theorem adjustToLimits_ends (values : LimitsValues) (foundLimit : ℕ) (limits : List PlanLimit) :
    ∀ job : PlanJob, Avoids .outOfSteps (adjustToLimits values foundLimit limits job) := by
  induction limits with
  | nil =>
      intro job
      exact avoids_ok _ _
  | cons limit rest ih =>
      intro job
      rw [adjustToLimits]
      refine Avoids.bind ?_ (fun _ _ => ih _)
      unfold adjustToLimit
      split
      · refine Avoids.bind ?_ (fun _ _ => ?_)
        · exact avoids_foldlM _
            (fun _ _ _ => (getAt_ends _ _).bind (fun _ _ => avoids_ok _ _)) _
        · refine (getAt_ends _ _).bind (fun _ _ => ?_)
          split
          · exact (deref_ends _).bind (fun _ _ => avoids_ok _ _)
          · exact adjustToAccount_ends _ _ _ _ _
      · exact adjustToAccount_ends _ _ _ _ _

/-- The adjustment of a job to the limits ends. -/
theorem adjustJob_ends (conf : LimitsForClusters) (cluster : PlanCluster) (values : LimitsValues)
    (limits : List PlanLimit) (job : PlanJob) :
    Avoids .outOfSteps (adjustJobStarttimeAccordingToLimits conf cluster values limits job) :=
  (walltimeSuitsToLimit_ends _ _ _).bind (fun _ _ => adjustToLimits_ends _ _ _ _)

/-- Setting the limit values ends. -/
theorem updateLimitsValues_ends (conf : LimitsForClusters) (cluster : PlanCluster)
    (values : LimitsValues) : Avoids .outOfSteps (updateLimitsValues conf cluster values) := by
  unfold updateLimitsValues
  refine (findLimitsForCluster_ends _ _ _).bind (fun _ _ => avoids_foldlM _ (fun _ _ _ => ?_) _)
  refine (getAt_ends _ _).bind (fun _ _ => ?_)
  exact (getAt_ends _ _).bind (fun _ _ => avoids_ok _ _)

/-! ## One job -/

/-- The availability of a slot is found. -/
theorem slotAvailability_ends (cluster : PlanCluster) (job : PlanJob) (wiped : Bool)
    (slot : FirstFreeSlot) : Avoids .outOfSteps (slotAvailability cluster job wiped slot) := by
  unfold slotAvailability
  split
  · exact avoids_ok _ _
  · refine (getAt_ends _ _).bind (fun node _ => ?_)
    repeat' split
    all_goals exact avoids_ok _ _

/-- The choice of CPUs ends. -/
theorem placeShared_ends (cluster : PlanCluster) (job : PlanJob) (slots : List FirstFreeSlot) :
    Avoids .outOfSteps (placeShared cluster job slots) := by
  unfold placeShared
  refine (avoids_mapM _ (fun _ _ => slotAvailability_ends _ _ _ _)).bind (fun avail havail => ?_)
  have hlength : slots.length = avail.length := (forall₂_of_mapM slots avail havail).length_eq
  refine Avoids.bind (selectCpus_ends _ _ _ _ _ _ ?_) (fun selected _ => ?_)
  · rw [hlength]
    exact selectionMeasure_initial job _ avail
  · cases selected <;> exact avoids_ok _ _

/-- The choice of nodes ends. -/
theorem placeExclusive_ends (cluster : PlanCluster) (job : PlanJob)
    (slots : List FirstFreeSlot) : Avoids .outOfSteps (placeExclusive cluster job slots) := by
  unfold placeExclusive
  refine (avoids_mapM _ (fun _ _ => slotAvailability_ends _ _ _ _)).bind (fun avail _ => ?_)
  refine Avoids.bind ?_ (fun found _ => ?_)
  · unfold findEarliestNodes findEarliestNode
    refine avoids_foldlM _ (fun _ _ _ => Avoids.bind ?_ (fun _ _ => avoids_ok _ _)) _
    refine Avoids.bind (avoids_foldlM _ (fun st entry _ => ?_) _) (fun _ _ => avoids_ok _ _)
    unfold findEarliestStep
    refine (getAt_ends _ _).bind (fun _ _ => ?_)
    dsimp only
    generalize (if st.bestNode = none then some entry.1.1.ninfo else st.bestNode) = bestNode
    generalize (if st.node = none then some entry.1.1.ninfo else st.node) = node
    generalize (if node = some entry.1.1.ninfo ∧ st.latestNodeTime < entry.1.1.time
      then entry.1.1.time else st.latestNodeTime) = latest
    repeat' split
    all_goals exact avoids_ok _ _
  · obtain ⟨nodes, startTime⟩ := found
    dsimp only
    split <;> exact avoids_ok _ _

/-- `update_job` ends. -/
theorem updateJob_ends (conf : LimitsForClusters) (cluster : PlanCluster) (values : LimitsValues)
    (limits : List PlanLimit) (slots : List FirstFreeSlot) (job : PlanJob) :
    Avoids .outOfSteps (updateJob conf cluster values limits slots job) := by
  unfold updateJob
  split
  · unfold updateExclusiveJob
    refine (placeExclusive_ends _ _ _).bind (fun placed _ => ?_)
    cases placed with
    | none => exact avoids_ok _ _
    | some placed =>
        refine (adjustJob_ends _ _ _ _ _).bind (fun _ _ => ?_)
        refine (gapsOfJob_ends _ _ _ _).bind (fun _ _ => ?_)
        exact (firstFreeSlotsUpdateExclusive_ends _ _ _).bind (fun _ _ => avoids_ok _ _)
  · unfold updateSharedJob
    refine (placeShared_ends _ _ _).bind (fun placed _ => ?_)
    cases placed with
    | none => exact avoids_ok _ _
    | some placed =>
        refine (adjustJob_ends _ _ _ _ _).bind (fun _ _ => ?_)
        refine (gapsOfJob_ends _ _ _ _).bind (fun _ _ => ?_)
        exact (firstFreeSlotsUpdate_ends _ _ _).bind (fun _ _ => avoids_ok _ _)

/-! ## The whole plan -/

/-- The second loop of `update_sched` ends. -/
theorem planJobs_ends (conf : LimitsForClusters) (cluster : PlanCluster) (values : LimitsValues)
    (jobs : List PlanJob) :
    ∀ st : Planning, Avoids .outOfSteps (planJobs conf cluster values jobs st) := by
  induction jobs with
  | nil =>
      intro st
      exact avoids_ok _ _
  | cons job rest ih =>
      intro st
      rw [planJobs]
      refine Avoids.bind ?_ (fun next _ => ?_)
      · unfold planJob
        dsimp only
        split
        · unfold planQueued
          refine (updateJob_ends _ _ _ _ _ _).bind (fun updated _ => ?_)
          cases updated with
          | none => exact avoids_ok _ _
          | some update =>
              refine (addJobToLimits_ends _ _ _ _).bind (fun _ _ => ?_)
              refine (avoids_foldlM _ (fun _ _ _ => insertNewGap_ends _ _ _ _) _).bind ?_
              exact fun _ _ => avoids_ok _ _
        · split
          · exact (addJobToLimits_ends _ _ _ _).bind (fun _ _ => avoids_ok _ _)
          · exact avoids_ok _ _
      · cases next with
        | none => exact avoids_ok _ _
        | some st' => exact ih st'

/-- The closing gaps end. -/
theorem closingGaps_ends (cluster : PlanCluster) (st : Planning) :
    Avoids .outOfSteps (closingGaps cluster st) := by
  unfold closingGaps
  dsimp only
  split
  · exact Avoids.bind (avoids_ok _ _) (fun _ _ => avoids_ok _ _)
  · refine Avoids.bind (gapsBetweenSlots_ends _ _ _ _ _ _) (fun _ _ => ?_)
    refine (avoids_foldlM _ (fun _ _ _ => insertNewGap_ends _ _ _ _) _).bind ?_
    exact fun _ _ => avoids_ok _ _

/-- Every call of `update_sched` ends. -/
theorem updateSched_ends (conf : LimitsForClusters) (time : ℤ) (values : LimitsValues)
    (plan : ClusterPlan) : Avoids .outOfSteps (updateSched conf time values plan) := by
  unfold updateSched
  refine (initialSlots_ends _ _).bind (fun slots _ => ?_)
  refine (updateLimitsValues_ends _ _ _).bind (fun values' _ => ?_)
  have hmoves : preferredCount time ([] ++ plan.jobs) < plan.jobs.length + 1 := by
    rw [List.nil_append]
    exact Nat.lt_succ_of_le List.countP_le_length
  obtain ⟨jobs, hjobs⟩ := movePreferred_returns (plan.jobs.length + 1) hmoves
  rw [hjobs]
  refine (planJobs_ends _ _ _ _ _).bind (fun planned _ => ?_)
  cases planned with
  | failed st behind => exact avoids_ok _ _
  | complete st => exact (closingGaps_ends _ _).bind (fun _ _ => avoids_ok _ _)

end PlanSched
