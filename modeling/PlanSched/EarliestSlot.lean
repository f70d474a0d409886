/-
# The search for the earliest slot

Models `ith_smallest` (`plan_operations.cpp`) on the arrays as the code has them: the
availabilities are numbers, entries short of available memory are marked `-5` for the length of
a pass when one of the two exceptions applies, and the slot that is returned is marked with the
attempt.

The times are compared after they were stored in an `int`.  The table's earliest slot is found
when this keeps the order of the times, as far as it matters, and when no entry is `-5` before
the call.

* `SmallestCall.ithSmallest_run`: what the loop returns, and what it leaves in the array;
* `SmallestCall.picksEarliest_iff`: when that is the earliest eligible slot;
* `SmallestCall.ithSmallest_selection`: the search of `update_job` is this one.
-/
import PlanSched.ChunkChoice
import PlanSched.LeastIndex

namespace PlanSched

open CheckedRun LeastIndex

/-! ## The code -/

/-- The arguments of a call of `ith_smallest`: an availability for each slot of the table, and
the latest CPUs, which are slots of the table or `-1`. -/
structure SmallestCall where
  consideredNode : Option ℕ
  attemptCount : ℤ
  slots : List FirstFreeSlot
  ffsAvailability : List ℤ
  nodeLatestCpuIndex : ℤ
  totalLatestCpuIndex : ℤ
  availability_length : ffsAvailability.length = slots.length
  nodeLatest_slot : nodeLatestCpuIndex ≠ -1 →
    0 ≤ nodeLatestCpuIndex ∧ nodeLatestCpuIndex < slots.length
  totalLatest_slot : totalLatestCpuIndex ≠ -1 →
    0 ≤ totalLatestCpuIndex ∧ totalLatestCpuIndex < slots.length

/-- The variables of the loop. -/
structure SmallestState where
  ffsAvailability : List ℤ
  min : ℤ
  result : ℤ
  deriving DecidableEq, Repr

namespace SmallestCall

/-- The first exception for the slot: the latest CPU of its node is free later. -/
def nodeException (call : SmallestCall) (slot : FirstFreeSlot) : Run Bool :=
  if call.nodeLatestCpuIndex ≠ -1 ∧ some slot.ninfo = call.consideredNode then do
    let latest ← getAt call.slots call.nodeLatestCpuIndex.toNat
    return decide (latest.ninfo = slot.ninfo ∧ slot.time < latest.time)
  else return false

/-- The second exception: no CPU of the node is chosen, and the latest of all is free later. -/
def totalException (call : SmallestCall) (slot : FirstFreeSlot) : Run Bool :=
  if call.nodeLatestCpuIndex = -1 ∧ call.totalLatestCpuIndex ≠ -1 then do
    let latest ← getAt call.slots call.totalLatestCpuIndex.toNat
    return decide (slot.time < latest.time)
  else return false

/-- Mark entry `i` with `-5` if it is `-4` and the exception applies. -/
def markException (availability : List ℤ) (i : ℕ) (exception : Run Bool) : Run (List ℤ) := do
  let code ← getAt availability i
  if code = -4 then do
    let applies ← exception
    if applies then setAt availability i (-5) else return availability
  else return availability

/-- The availability allows the slot to be taken now. -/
def allows (call : SmallestCall) (code : ℤ) (slot : FirstFreeSlot) : Bool :=
  code == 0 || code == -5 ||
    (decide (0 < code) && decide (code < call.attemptCount) &&
      some slot.ninfo == call.consideredNode)

/-- Pass `i` of the loop. -/
def smallestPass (call : SmallestCall) (st : SmallestState) (i : ℕ) : Run SmallestState := do
  let slot ← getAt call.slots i
  let possibleMin := toInt slot.time
  let marked ← markException st.ffsAvailability i (call.nodeException slot)
  let marked ← markException marked i (call.totalException slot)
  let code ← getAt marked i
  let best := if possibleMin < st.min ∧ call.allows code slot = true then (possibleMin, (i : ℤ))
    else (st.min, st.result)
  -- the mark of an exception lasts to the end of the pass
  if code = -5 then do
    let restored ← setAt marked i (-4)
    return ⟨restored, best.1, best.2⟩
  else return ⟨marked, best.1, best.2⟩

/-- `ith_smallest`: the slot it returns, or `-1`, and the availabilities behind the call. -/
def ithSmallest (call : SmallestCall) : Run (ℤ × List ℤ) := do
  let st ← (List.range call.slots.length).foldlM call.smallestPass
    ⟨call.ffsAvailability, LONG_MAX, -1⟩
  if st.result = -1 then return (st.result, st.ffsAvailability)
  else do
    let availability ← setAt st.ffsAvailability st.result.toNat call.attemptCount
    return (st.result, availability)

/-! ## The earliest eligible slot -/

/-- One of the two exceptions for a slot without enough available memory. -/
def MemoryException (call : SmallestCall) (i : ℕ) : Prop :=
  (call.nodeLatestCpuIndex ≠ -1 ∧ slotNode call.slots i = call.consideredNode ∧
    slotNode call.slots call.nodeLatestCpuIndex.toNat = slotNode call.slots i ∧
    slotTime call.slots i < slotTime call.slots call.nodeLatestCpuIndex.toNat) ∨
  (call.nodeLatestCpuIndex = -1 ∧ call.totalLatestCpuIndex ≠ -1 ∧
    slotTime call.slots i < slotTime call.slots call.totalLatestCpuIndex.toNat)

instance (call : SmallestCall) (i : ℕ) : Decidable (call.MemoryException i) :=
  inferInstanceAs (Decidable (_ ∨ _))

/-- Slot `i` is free, or was looked at by an earlier attempt and belongs to the node under
consideration, or is short of available memory only and an exception applies. -/
def Eligible (call : SmallestCall) (i : ℕ) : Prop :=
  ∃ code, call.ffsAvailability[i]? = some code ∧
    (code = 0 ∨
      (0 < code ∧ code < call.attemptCount ∧ slotNode call.slots i = call.consideredNode) ∨
      (code = -4 ∧ call.MemoryException i))

/-- What the search is for: the eligible slot that is free first, the lowest of these, is
returned and marked with the attempt, and no other entry changes. -/
structure PicksEarliest (call : SmallestCall) (result : ℤ) (after : List ℤ) : Prop where
  none_iff : result = -1 ↔ ∀ i, ¬ call.Eligible i
  earliest : result ≠ -1 → ∃ c : ℕ, result = c ∧
    FirstLeast call.Eligible (slotTime call.slots) call.slots.length c
  marked : ∀ c : ℕ, result = c → after[c]? = some call.attemptCount
  kept : ∀ i : ℕ, result ≠ i → after[i]? = call.ffsAvailability[i]?

/-- The times as `int`s keep the earliest eligible slot in front: of the eligible slots with a
later time none has an earlier time as an `int`, nor the same one at a lower index. -/
def NarrowedInOrder (call : SmallestCall) : Prop :=
  ∀ c, FirstLeast call.Eligible (slotTime call.slots) call.slots.length c →
    ∀ d < call.slots.length, call.Eligible d → slotTime call.slots c < slotTime call.slots d →
      toInt (slotTime call.slots c) < toInt (slotTime call.slots d) ∨
        toInt (slotTime call.slots c) = toInt (slotTime call.slots d) ∧ c < d

/-! ## What a pass does -/

/-- The slots the loop may take: the eligible ones, and those marked `-5` before the call. -/
def Taken (call : SmallestCall) (i : ℕ) : Prop :=
  call.Eligible i ∨ call.ffsAvailability[i]? = some (-5)

/-- What is left of an entry behind its pass. -/
def restored (code : ℤ) : ℤ := if code = -5 then -4 else code

/-- The array when the passes below `n` are done. -/
def restoredBelow (call : SmallestCall) (n : ℕ) : List ℤ :=
  call.ffsAvailability.mapIdx (fun i code => if i < n then restored code else code)

/-- An index in the table reads a slot. -/
theorem getAt_index {slots : List FirstFreeSlot} {index : ℤ}
    (h : 0 ≤ index ∧ index < slots.length) :
    ∃ latest, getAt slots index.toNat = .ok latest ∧ slots[index.toNat]? = some latest := by
  have hlt : index.toNat < slots.length := by omega
  exact ⟨slots[index.toNat], getAt_ok.mpr (List.getElem?_eq_getElem hlt),
    List.getElem?_eq_getElem hlt⟩

/-- The node of a slot that is there. -/
theorem slotNode_of_getElem? {slots : List FirstFreeSlot} {c : ℕ} {slot : FirstFreeSlot}
    (h : slots[c]? = some slot) : slotNode slots c = some slot.ninfo := by
  unfold slotNode
  rw [h]
  rfl

/-- A test of a slot behind a guard returns, if the guard says that the slot is there. -/
theorem guardedTest_eq {slots : List FirstFreeSlot} {guard P : Prop} [Decidable guard] {index : ℤ}
    {test : FirstFreeSlot → Bool} (hindex : guard → 0 ≤ index ∧ index < slots.length)
    (htest : ∀ latest, slots[index.toNat]? = some latest → (test latest = true ↔ P)) :
    ∃ b, (if guard then do
        let latest ← getAt slots index.toNat
        return test latest
      else return false : Run Bool) = .ok b ∧ (b = true ↔ guard ∧ P) := by
  by_cases hguard : guard
  · obtain ⟨latest, hget, hlatest⟩ := getAt_index (hindex hguard)
    refine ⟨test latest, ?_, ?_⟩
    · rw [if_pos hguard, hget]
      rfl
    · rw [htest latest hlatest]
      exact ⟨fun h => ⟨hguard, h⟩, And.right⟩
  · refine ⟨false, if_neg hguard, ?_⟩
    constructor
    · intro h
      cases h
    · intro h
      exact absurd h.1 hguard

variable {call : SmallestCall} {i : ℕ} {slot : FirstFreeSlot}

/-- The first exception is computed as it is stated. -/
theorem nodeException_eq (hslot : call.slots[i]? = some slot) :
    ∃ b, call.nodeException slot = .ok b ∧ (b = true ↔ call.nodeLatestCpuIndex ≠ -1 ∧
      slotNode call.slots i = call.consideredNode ∧
      slotNode call.slots call.nodeLatestCpuIndex.toNat = slotNode call.slots i ∧
      slotTime call.slots i < slotTime call.slots call.nodeLatestCpuIndex.toNat) := by
  unfold nodeException
  rw [slotNode_of_getElem? hslot, slotTime_of_getElem? hslot, ← and_assoc]
  refine guardedTest_eq (fun hguard => call.nodeLatest_slot hguard.1) ?_
  intro latest hlatest
  rw [slotNode_of_getElem? hlatest, slotTime_of_getElem? hlatest, decide_eq_true_eq,
    Option.some.injEq]

/-- The second exception is computed as it is stated. -/
theorem totalException_eq (hslot : call.slots[i]? = some slot) :
    ∃ b, call.totalException slot = .ok b ∧ (b = true ↔ call.nodeLatestCpuIndex = -1 ∧
      call.totalLatestCpuIndex ≠ -1 ∧
      slotTime call.slots i < slotTime call.slots call.totalLatestCpuIndex.toNat) := by
  unfold totalException
  rw [slotTime_of_getElem? hslot, ← and_assoc]
  refine guardedTest_eq (fun hguard => call.totalLatest_slot hguard.2) ?_
  intro latest hlatest
  rw [slotTime_of_getElem? hlatest, decide_eq_true_eq]

/-- Marking an entry is an update of the array at its index. -/
theorem markException_eq {availability : List ℤ} {code : ℤ} {exception : Run Bool} {b : Bool}
    (hcode : availability[i]? = some code) (hb : exception = .ok b) :
    markException availability i exception =
      .ok (availability.set i (if code = -4 ∧ b = true then -5 else code)) := by
  have hlt := (List.getElem?_eq_some_iff.mp hcode).1
  have hsame : availability.set i code = availability := by
    rw [← (List.getElem?_eq_some_iff.mp hcode).2, List.set_getElem_self]
  unfold markException
  rw [getAt_ok.mpr hcode, hb]
  show (if code = -4 then _ else _ : Run (List ℤ)) = _
  by_cases hmem : code = -4
  · rw [if_pos hmem]
    show (if b = true then _ else _ : Run (List ℤ)) = _
    by_cases happlies : b = true
    · rw [if_pos happlies, if_pos ⟨hmem, happlies⟩]
      exact setAt_ok.mpr ⟨hlt, rfl⟩
    · rw [if_neg happlies, if_neg (fun h => happlies h.2), hsame]
      rfl
  · rw [if_neg hmem, if_neg (fun h => hmem h.1), hsame]
    rfl

/-- The entry that a pass compares: marked if one of the exceptions applies. -/
theorem marked_code {code : ℤ} {b₁ b₂ : Bool} :
    (if (if code = -4 ∧ b₁ = true then -5 else code) = -4 ∧ b₂ = true then -5
      else if code = -4 ∧ b₁ = true then -5 else code) =
    if code = -4 ∧ (b₁ = true ∨ b₂ = true) then (-5 : ℤ) else code := by
  by_cases hcode : code = -4
  · cases b₁ <;> cases b₂ <;> simp [hcode]
  · simp [hcode]

/-- Restoring entry `i` leads to the array of the next pass. -/
theorem restoredBelow_set (call : SmallestCall) {code : ℤ}
    (hcode : call.ffsAvailability[i]? = some code) :
    (call.restoredBelow i).set i (restored code) = call.restoredBelow (i + 1) := by
  apply List.ext_getElem?
  intro j
  unfold restoredBelow
  rw [List.getElem?_set, List.length_mapIdx, List.getElem?_mapIdx, List.getElem?_mapIdx]
  by_cases hij : i = j
  · subst hij
    rw [if_pos rfl, if_pos (List.getElem?_eq_some_iff.mp hcode).1, hcode, Option.map_some,
      if_pos (Nat.lt_succ_self i)]
  · rw [if_neg hij]
    congr 1
    funext code'
    by_cases hj : j < i
    · rw [if_pos hj, if_pos (Nat.lt_succ_of_lt hj)]
    · rw [if_neg hj, if_neg (by omega)]

/-- Before its pass an entry is what it was before the call. -/
theorem restoredBelow_getElem? (call : SmallestCall) (i : ℕ) :
    (call.restoredBelow i)[i]? = call.ffsAvailability[i]? := by
  unfold restoredBelow
  rw [List.getElem?_mapIdx]
  cases call.ffsAvailability[i]? with
  | none => rfl
  | some code =>
      rw [Option.map_some, if_neg (Nat.lt_irrefl i)]

/-- The slots the loop may take, by the entry before the call and the exceptions. -/
theorem taken_iff (hslot : call.slots[i]? = some slot) {code : ℤ}
    (hcode : call.ffsAvailability[i]? = some code) :
    call.Taken i ↔
      call.allows (if code = -4 ∧ call.MemoryException i then -5 else code) slot = true := by
  unfold Taken Eligible
  rw [hcode, slotNode_of_getElem? hslot]
  by_cases hexception : code = -4 ∧ call.MemoryException i
  · rw [if_pos hexception]
    constructor
    · intro _
      rfl
    · intro _
      exact Or.inl ⟨code, rfl, Or.inr (Or.inr hexception)⟩
  · rw [if_neg hexception]
    unfold allows
    rw [Bool.or_eq_true, Bool.or_eq_true, Bool.and_eq_true, Bool.and_eq_true, beq_iff_eq,
      beq_iff_eq, beq_iff_eq, decide_eq_true_eq, decide_eq_true_eq, Option.some.injEq]
    constructor
    · rintro (⟨code', hcode', hfree | htried | hshort⟩ | hmarked)
      · cases hcode'
        exact Or.inl (Or.inl hfree)
      · cases hcode'
        exact Or.inr ⟨⟨htried.1, htried.2.1⟩, htried.2.2⟩
      · cases hcode'
        exact absurd hshort hexception
      · exact Or.inl (Or.inr hmarked)
    · rintro ((hfree | hmarked) | htried)
      · exact Or.inl ⟨code, rfl, Or.inl hfree⟩
      · exact Or.inr hmarked
      · exact Or.inl ⟨code, rfl, Or.inr (Or.inl ⟨htried.1.1, htried.1.2, htried.2⟩)⟩

/-- The loop so far: nothing was taken, or the slot whose time is least as an `int`. -/
structure PassInv (call : SmallestCall) (n : ℕ) (st : SmallestState) : Prop where
  availability : st.ffsAvailability = call.restoredBelow n
  best : (st.result = -1 ∧ st.min = LONG_MAX ∧ ∀ d < n, ¬ call.Taken d) ∨
    ∃ c : ℕ, st.result = c ∧ st.min = toInt (slotTime call.slots c) ∧
      FirstLeast call.Taken (fun d => toInt (slotTime call.slots d)) n c

/-- A pass compares the slot with the best so far and restores its entry. -/
theorem smallestPass_eq {st : SmallestState} (hslot : call.slots[i]? = some slot)
    (havail : st.ffsAvailability = call.restoredBelow i) :
    ∃ best : ℤ × ℤ, call.smallestPass st i =
        .ok ⟨call.restoredBelow (i + 1), best.1, best.2⟩ ∧
      (toInt slot.time < st.min ∧ call.Taken i ∧ best = (toInt slot.time, (i : ℤ)) ∨
        ¬ (toInt slot.time < st.min ∧ call.Taken i) ∧ best = (st.min, st.result)) := by
  have hi : i < call.ffsAvailability.length := by
    rw [call.availability_length]
    exact (List.getElem?_eq_some_iff.mp hslot).1
  obtain ⟨code, hcode⟩ : ∃ code, call.ffsAvailability[i]? = some code :=
    ⟨_, List.getElem?_eq_getElem hi⟩
  obtain ⟨b₁, hb₁, hnode⟩ := nodeException_eq hslot
  obtain ⟨b₂, hb₂, htotal⟩ := totalException_eq hslot
  have hexception : call.MemoryException i ↔ b₁ = true ∨ b₂ = true := by
    rw [hnode, htotal]
    exact Iff.rfl
  -- both marks together
  have hbefore : st.ffsAvailability[i]? = some code := by
    rw [havail, restoredBelow_getElem?, hcode]
  have hlength : i < st.ffsAvailability.length := (List.getElem?_eq_some_iff.mp hbefore).1
  have hfirst := markException_eq hbefore hb₁
  have hsecond := markException_eq
    (List.getElem?_set_self (a := if code = -4 ∧ b₁ = true then -5 else code) hlength) hb₂
  rw [List.set_set, marked_code] at hsecond
  have hmark : (if code = -4 ∧ (b₁ = true ∨ b₂ = true) then -5 else code) =
      if code = -4 ∧ call.MemoryException i then -5 else code :=
    if_congr (and_congr_right (fun _ => hexception.symm)) rfl rfl
  rw [hmark] at hsecond
  have htaken := taken_iff hslot hcode
  set marked : ℤ := if code = -4 ∧ call.MemoryException i then -5 else code with hmarked
  have hrestored : (if marked = -5 then -4 else marked) = restored code := by
    rw [hmarked]
    unfold restored
    split_ifs <;> omega
  have hafter : st.ffsAvailability.set i (restored code) = call.restoredBelow (i + 1) := by
    rw [havail, restoredBelow_set call hcode]
  refine ⟨if toInt slot.time < st.min ∧ call.allows marked slot = true then
    (toInt slot.time, (i : ℤ)) else (st.min, st.result), ?_, ?_⟩
  · unfold smallestPass
    rw [getAt_ok.mpr hslot]
    refine bind_ok.mpr ⟨slot, rfl, ?_⟩
    refine bind_ok.mpr ⟨_, hfirst, ?_⟩
    refine bind_ok.mpr ⟨_, hsecond, ?_⟩
    refine bind_ok.mpr ⟨marked, getAt_ok.mpr (List.getElem?_set_self hlength), ?_⟩
    dsimp only
    by_cases hdone : marked = -5
    · rw [if_pos hdone] at hrestored ⊢
      refine bind_ok.mpr ⟨call.restoredBelow (i + 1), setAt_ok.mpr ⟨?_, ?_⟩, rfl⟩
      · rwa [List.length_set]
      · rw [List.set_set, hrestored, hafter]
    · rw [if_neg hdone] at hrestored ⊢
      rw [hrestored, hafter]
      rfl
  · rw [htaken]
    by_cases htake : toInt slot.time < st.min ∧ call.allows marked slot = true
    · rw [if_pos htake]
      exact Or.inl ⟨htake.1, htake.2, rfl⟩
    · rw [if_neg htake]
      exact Or.inr ⟨htake, rfl⟩

/-- A pass keeps it. -/
theorem PassInv.pass {st : SmallestState} (hinv : PassInv call i st)
    (hi : i < call.slots.length) :
    ∃ st', call.smallestPass st i = .ok st' ∧ PassInv call (i + 1) st' := by
  have hslot := List.getElem?_eq_getElem hi
  obtain ⟨best, hpass, hbest⟩ := smallestPass_eq hslot hinv.availability
  refine ⟨_, hpass, rfl, ?_⟩
  rw [← slotTime_of_getElem? hslot] at hbest
  rcases hbest with ⟨hlt, htaken, rfl⟩ | ⟨hnot, rfl⟩
  · -- the slot is the best so far
    refine Or.inr ⟨i, rfl, rfl, FirstLeast.take htaken ?_⟩
    intro d hd htd
    rcases hinv.best with ⟨-, -, hnone⟩ | ⟨c, -, hmin, hc⟩
    · exact absurd htd (hnone d hd)
    · rw [hmin] at hlt
      exact hlt.trans_le (hc.le hd htd)
  · rcases hinv.best with ⟨hresult, hmin, hnone⟩ | ⟨c, hresult, hmin, hc⟩
    · refine Or.inl ⟨hresult, hmin, ?_⟩
      intro d hd htd
      rcases Nat.lt_succ_iff_lt_or_eq.mp hd with hlt | rfl
      · exact hnone d hlt htd
      · rw [hmin] at hnot
        exact hnot ⟨toInt_lt_LONG_MAX _, htd⟩
    · refine Or.inr ⟨c, hresult, hmin, hc.keep ?_⟩
      intro hti
      rw [hmin] at hnot
      exact not_lt.mp (fun hlt => hnot ⟨hlt, hti⟩)

/-- Nothing is restored before the loop. -/
theorem restoredBelow_zero (call : SmallestCall) :
    call.restoredBelow 0 = call.ffsAvailability := by
  apply List.ext_getElem?
  intro j
  unfold restoredBelow
  rw [List.getElem?_mapIdx]
  cases call.ffsAvailability[j]? with
  | none => rfl
  | some code => rw [Option.map_some, if_neg (Nat.not_lt_zero j)]

/-- The array behind the loop, before the slot found is marked. -/
theorem restoredBelow_length (call : SmallestCall) :
    call.restoredBelow call.slots.length = call.ffsAvailability.map restored := by
  apply List.ext_getElem?
  intro j
  unfold restoredBelow
  rw [List.getElem?_mapIdx, List.getElem?_map]
  by_cases hj : j < call.slots.length
  · congr 1
    funext code
    rw [if_pos hj]
  · have hnone : call.ffsAvailability[j]? = none := by
      rw [List.getElem?_eq_none_iff, call.availability_length]
      omega
    rw [hnone]
    rfl

/-- `ith_smallest` returns `-1` if no slot may be taken, and else the slot whose time is least
as an `int`; entries that were `-5` are `-4` behind the call. -/
theorem ithSmallest_run (call : SmallestCall) :
    ((∀ d < call.slots.length, ¬ call.Taken d) ∧
      call.ithSmallest = .ok (-1, call.ffsAvailability.map restored)) ∨
    ∃ c : ℕ, FirstLeast call.Taken (fun d => toInt (slotTime call.slots d)) call.slots.length c ∧
      call.ithSmallest =
        .ok ((c : ℤ), (call.ffsAvailability.map restored).set c call.attemptCount) := by
  obtain ⟨st, hloop, hinv⟩ := foldlM_range (PassInv call) call.slots.length
    (fun i hi s hs => hs.pass hi) (s := ⟨call.ffsAvailability, LONG_MAX, -1⟩)
    ⟨(restoredBelow_zero call).symm,
      Or.inl ⟨rfl, rfl, fun d hd => absurd hd (Nat.not_lt_zero d)⟩⟩
  have havail := hinv.availability
  rw [restoredBelow_length] at havail
  unfold ithSmallest
  rw [hloop]
  show (_ ∧ (if st.result = -1 then _ else _ : Run (ℤ × List ℤ)) = _) ∨
    ∃ c : ℕ, _ ∧ (if st.result = -1 then _ else _ : Run (ℤ × List ℤ)) = _
  rcases hinv.best with ⟨hresult, -, hnone⟩ | ⟨c, hresult, -, hc⟩
  · refine Or.inl ⟨hnone, ?_⟩
    rw [if_pos hresult, hresult, havail]
    rfl
  · refine Or.inr ⟨c, hc, ?_⟩
    rw [if_neg (by omega), hresult, havail]
    refine bind_ok.mpr ⟨_, setAt_ok.mpr ⟨?_, rfl⟩, rfl⟩
    rw [List.length_map, call.availability_length]
    exact hc.lt

/-! ## When the earliest slot is found -/

/-- An eligible slot is one of the table. -/
theorem Eligible.lt {d : ℕ} (h : call.Eligible d) : d < call.slots.length := by
  obtain ⟨code, hcode, -⟩ := h
  rw [← call.availability_length]
  exact (List.getElem?_eq_some_iff.mp hcode).1

/-- A slot marked `-5` before the call is not eligible. -/
theorem not_eligible_of_mark {d : ℕ} (h : call.ffsAvailability[d]? = some (-5)) :
    ¬ call.Eligible d := by
  rintro ⟨code, hcode, hcases⟩
  rw [h] at hcode
  cases hcode
  omega

/-- Without such marks the loop takes eligible slots only. -/
theorem taken_iff_eligible (hmark : (-5 : ℤ) ∉ call.ffsAvailability) (d : ℕ) :
    call.Taken d ↔ call.Eligible d := by
  constructor
  · rintro (h | h)
    · exact h
    · exact absurd (List.mem_of_getElem? h) hmark
  · exact Or.inl

/-- Without such marks nothing is left to restore. -/
theorem map_restored (hmark : (-5 : ℤ) ∉ call.ffsAvailability) :
    call.ffsAvailability.map restored = call.ffsAvailability := by
  refine (List.map_congr_left ?_).trans (List.map_id _)
  intro code hcode
  have hne : code ≠ -5 := by
    rintro rfl
    exact hmark hcode
  exact if_neg hne

/-- `ith_smallest` picks the earliest eligible slot exactly when no entry is marked `-5` before
the call and the times as `int`s keep the earliest eligible slot in front. -/
theorem picksEarliest_iff (call : SmallestCall) :
    (∃ result after, call.ithSmallest = .ok (result, after) ∧
      PicksEarliest call result after) ↔
    (-5 : ℤ) ∉ call.ffsAvailability ∧ call.NarrowedInOrder := by
  constructor
  · rintro ⟨result, after, hrun, hpicks⟩
    have hmark : (-5 : ℤ) ∉ call.ffsAvailability := by
      intro hmem
      obtain ⟨i, hi⟩ := List.getElem?_of_mem hmem
      by_cases hresult : result = i
      · -- the marked slot was chosen
        obtain ⟨c, hc, hleast⟩ := hpicks.earliest (by omega)
        have hci : c = i := by omega
        rw [hci] at hleast
        exact not_eligible_of_mark hi hleast.holds
      · -- its mark was taken off
        have hkept := hpicks.kept i hresult
        rcases call.ithSmallest_run with ⟨-, heq⟩ | ⟨c, -, heq⟩
        · rw [hrun] at heq
          cases heq
          rw [List.getElem?_map, hi] at hkept
          cases hkept
        · rw [hrun] at heq
          cases heq
          rw [List.getElem?_set_ne (by omega), List.getElem?_map, hi] at hkept
          cases hkept
    refine ⟨hmark, ?_⟩
    intro c hc
    refine (hc.comp_iff toInt).mp ?_
    rcases call.ithSmallest_run with ⟨hnone, -⟩ | ⟨c', hc', heq⟩
    · exact absurd ((taken_iff_eligible hmark c).mpr hc.holds) (hnone c hc.lt)
    · rw [hrun] at heq
      cases heq
      obtain ⟨c'', heq, hleast⟩ := hpicks.earliest (by omega)
      have hsame : c' = c := by
        have := hleast.unique hc
        omega
      rw [← hsame]
      exact hc'.of_iff (taken_iff_eligible hmark)
  · rintro ⟨hmark, hnarrow⟩
    have htaken := taken_iff_eligible hmark
    rcases call.ithSmallest_run with ⟨hnone, hrun⟩ | ⟨c, hc, hrun⟩
    · rw [map_restored hmark] at hrun
      refine ⟨_, _, hrun, ⟨?_, ?_, ?_, fun i _ => rfl⟩⟩
      · refine iff_of_true rfl ?_
        intro d hd
        exact hnone d hd.lt ((htaken d).mpr hd)
      · intro h
        exact absurd rfl h
      · intro d hd
        omega
    · rw [map_restored hmark] at hrun
      have heligible := hc.of_iff htaken
      obtain ⟨e, he⟩ := exists_firstLeast (p := call.Eligible) (slotTime call.slots)
        ⟨c, hc.lt, heligible.holds⟩
      have hec : e = c := ((he.comp_iff toInt).mpr (hnarrow e he)).unique heligible
      rw [hec] at he
      refine ⟨_, _, hrun, ⟨?_, ?_, ?_, ?_⟩⟩
      · refine iff_of_false (by omega) ?_
        intro hall
        exact hall c heligible.holds
      · intro _
        exact ⟨c, rfl, he⟩
      · intro d hd
        have hdc : d = c := by omega
        rw [hdc, List.getElem?_set_self]
        rw [call.availability_length]
        exact hc.lt
      · intro i hi
        rw [List.getElem?_set_ne (by omega)]

/-- A call on two free slots, of which the first is free at `time` and the second at `5`. -/
def twoFreeSlots (time : ℤ) : SmallestCall where
  consideredNode := none
  attemptCount := 1
  slots := [{ (default : FirstFreeSlot) with time := time },
    { (default : FirstFreeSlot) with time := 5 }]
  ffsAvailability := [0, 0]
  nodeLatestCpuIndex := -1
  totalLatestCpuIndex := -1
  availability_length := rfl
  nodeLatest_slot := fun h => absurd rfl h
  totalLatest_slot := fun h => absurd rfl h

/-- The first second that no `int` holds counts as earlier than all others. -/
theorem late_slot_picked :
    ¬ ∃ result after, (twoFreeSlots 2147483648).ithSmallest = .ok (result, after) ∧
      PicksEarliest (twoFreeSlots 2147483648) result after := by
  rintro ⟨result, after, hrun, hpicks⟩
  have heq : (twoFreeSlots 2147483648).ithSmallest = .ok (0, [1, 0]) := by decide
  rw [hrun] at heq
  cases heq
  obtain ⟨c, hc, hleast⟩ := hpicks.earliest (by decide)
  have hzero : c = 0 := by omega
  rw [hzero] at hleast
  have hle := hleast.le (d := 1) (by decide) ⟨0, rfl, Or.inl rfl⟩
  exact absurd hle (by decide)

/-- The order is kept while the times of the eligible slots are numbers of an `int`. -/
theorem narrowedInOrder_of_int
    (h : ∀ d < call.slots.length, call.Eligible d →
      -(2 ^ 31) ≤ slotTime call.slots d ∧ slotTime call.slots d < 2 ^ 31) :
    call.NarrowedInOrder := by
  intro c hc d hd hde hlt
  obtain ⟨hclo, hchi⟩ := h c hc.lt hc.holds
  obtain ⟨hdlo, hdhi⟩ := h d hd hde
  rw [toInt_of_range hclo hchi, toInt_of_range hdlo hdhi]
  exact Or.inl hlt

/-! ## The search of `update_job` -/

end SmallestCall

/-- The number that `first_free_slot_availability` holds. -/
def SlotAvailability.code : SlotAvailability → ℤ
  | .nodeDown => -1
  | .notEnoughCpus => -2
  | .notEnoughMem => -3
  | .notEnoughAvailableMem => -4
  | .alreadyUsed => -6
  | .prohibitedNode => -7
  | .availBefore => -8
  | .walltimeLimit => -9
  | .free => 0
  | .tried attempt => attempt

/-- An index that may be missing, as an `int`. -/
def indexOf : Option ℕ → ℤ
  | none => -1
  | some c => c

/-- The call of `ith_smallest` that the loop of `update_job` makes: its latest CPUs are slots
of the table, and there is an availability for each slot. -/
structure Selection.Calls (sel : Selection) (call : SmallestCall) : Prop where
  consideredNode : call.consideredNode = sel.consideredNode
  attemptCount : call.attemptCount = sel.attemptCount
  ffsAvailability : call.ffsAvailability = sel.avail.map SlotAvailability.code
  nodeLatest : call.nodeLatestCpuIndex = indexOf sel.nodeLatest
  totalLatest : call.totalLatestCpuIndex = indexOf sel.totalLatest
  tried : ∀ attempt, SlotAvailability.tried attempt ∈ sel.avail → 0 < attempt

namespace SmallestCall

variable {sel : Selection}

/-- The attempts are numbered from `1` on, so none counts as free; and no entry is `-5`. -/
theorem not_mem_marked (h : sel.Calls call) : (-5 : ℤ) ∉ call.ffsAvailability := by
  rw [h.ffsAvailability]
  intro hmem
  obtain ⟨a, -, ha⟩ := List.mem_map.mp hmem
  cases a <;> cases ha

/-- The memory exceptions of the choice are those of the call. -/
theorem memoryException_iff (h : sel.Calls call) (hslot : call.slots[i]? = some slot) :
    memoryException call.slots sel slot = true ↔ call.MemoryException i := by
  unfold memoryException MemoryException
  rw [h.nodeLatest, h.totalLatest, h.consideredNode, slotNode_of_getElem? hslot,
    slotTime_of_getElem? hslot]
  cases sel.nodeLatest with
  | some latest => simp [indexOf, and_assoc]
  | none =>
      cases sel.totalLatest with
      | some latest => simp [indexOf]
      | none => simp [indexOf]

/-- A slot may be chosen exactly if it is eligible in the call. -/
theorem eligible_iff (h : sel.Calls call) (hslot : call.slots[i]? = some slot) :
    eligible call.slots sel i slot = true ↔ call.Eligible i := by
  have hexception := memoryException_iff h hslot
  unfold eligible Eligible
  rw [h.ffsAvailability, List.getElem?_map, h.attemptCount, h.consideredNode,
    slotNode_of_getElem? hslot]
  cases hi : sel.avail[i]? with
  | none => simp
  | some a =>
      cases a with
      | free => simp [SlotAvailability.code]
      | notEnoughAvailableMem => simp [SlotAvailability.code, hexception]
      | tried attempt =>
          have hpos := h.tried attempt (List.mem_of_getElem? hi)
          have hzero : attempt ≠ 0 := by omega
          have hshort : (attempt : ℤ) ≠ -4 := by omega
          simp [SlotAvailability.code, hpos, hzero, hshort]
      | _ => simp [SlotAvailability.code]

/-- The search of the choice of CPUs returns what the code returns, and the array is marked at
that slot only. -/
theorem ithSmallest_selection (h : sel.Calls call) :
    call.ithSmallest = .ok (match PlanSched.ithSmallest call.slots sel with
      | none => (-1, call.ffsAvailability)
      | some c => (c, call.ffsAvailability.set c call.attemptCount)) := by
  have hmark := not_mem_marked h
  have hrun := call.ithSmallest_run
  rw [map_restored hmark] at hrun
  cases hchoice : PlanSched.ithSmallest call.slots sel with
  | none =>
      rcases hrun with ⟨-, hrun⟩ | ⟨c, hc, -⟩
      · exact hrun
      · have hslot := List.getElem?_eq_getElem hc.lt
        have hchoose := (eligible_iff h hslot).mpr ((taken_iff_eligible hmark c).mp hc.holds)
        exact absurd hchoice (ithSmallest_ne_none hslot hchoose)
  | some d =>
      obtain ⟨slot, hslot, hok⟩ := ithSmallest_spec hchoice
      have hd := (taken_iff_eligible hmark d).mpr ((eligible_iff h hslot).mp hok)
      have hlt := (List.getElem?_eq_some_iff.mp hslot).1
      rcases hrun with ⟨hnone, -⟩ | ⟨c, hc, hrun⟩
      · exact absurd hd (hnone d hlt)
      · -- both are the first slot in the order of the narrowed times
        have hcslot := List.getElem?_eq_getElem hc.lt
        have hchoose := (eligible_iff h hcslot).mpr ((taken_iff_eligible hmark c).mp hc.holds)
        have hsame : c = d := by
          rcases ithSmallest_sooner hchoice hcslot hchoose with heq | hsooner
          · exact heq
          · have hleast := hc.least d hlt hd
            unfold Sooner at hsooner
            omega
        rw [hrun, hsame]

end SmallestCall

end PlanSched
