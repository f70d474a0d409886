/-
# Capacity of the gap list

`insert_new_gap` splits the gaps that the new one overlaps and merges the pieces that have
the same interval.  Seen at one time this is an addition: a gap list stands for the function
that gives the free CPUs of every node at every time, and a new gap is added to it on its own
interval and nowhere else.

* `GapWeight`: what splitting leaves alone and merging adds up;
* `insertNewGapAux_totalAt`: every such quantity is added, at every time;
* `insertNewGap_adds`: the call returns, the list stays in order, and the CPUs of every node
  and the usage are those of before and those of the new gap.
-/
import PlanSched.Termination
import PlanSched.GapCounts

namespace PlanSched

open CheckedRun KeyedRecords

/-! ## Totals at one time -/

/-- The gap covers the time `t`. -/
def PlanGap.covers (gap : PlanGap) (t : ℤ) : Prop := gap.startTime ≤ t ∧ t < gap.endTime

instance (gap : PlanGap) (t : ℤ) : Decidable (gap.covers t) :=
  inferInstanceAs (Decidable (_ ∧ _))

/-- What a gap counts for at time `t`. -/
def PlanGap.valueAt (w : PlanGap → ℤ) (gap : PlanGap) (t : ℤ) : ℤ :=
  if gap.covers t then w gap else 0

theorem valueAt_eq (w : PlanGap → ℤ) (gap : PlanGap) (t : ℤ) :
    gap.valueAt w t = if gap.startTime ≤ t ∧ t < gap.endTime then w gap else 0 := rfl

/-- The total over the gaps that cover `t`. -/
def totalAt (w : PlanGap → ℤ) (gaps : List PlanGap) (t : ℤ) : ℤ :=
  (gaps.map (fun gap => gap.valueAt w t)).sum

/-- The CPUs of node `n` in the gap. -/
def PlanGap.cpusOn (n : ℕ) (gap : PlanGap) : ℤ :=
  (gap.nodesMemory.map (fun m => if m.ninfo = n then (m.numCpus : ℤ) else 0)).sum

@[simp] theorem totalAt_nil (w : PlanGap → ℤ) (t : ℤ) : totalAt w [] t = 0 := rfl

@[simp] theorem totalAt_cons (w : PlanGap → ℤ) (gap : PlanGap) (gaps : List PlanGap) (t : ℤ) :
    totalAt w (gap :: gaps) t = gap.valueAt w t + totalAt w gaps t := by
  unfold totalAt
  rw [List.map_cons, List.sum_cons]

@[simp] theorem totalAt_append (w : PlanGap → ℤ) (gaps gaps' : List PlanGap) (t : ℤ) :
    totalAt w (gaps ++ gaps') t = totalAt w gaps t + totalAt w gaps' t := by
  unfold totalAt
  rw [List.map_append, List.sum_append]

/-! ## Weights -/

/-- A quantity of gaps that splitting and the new memory numbers leave alone, and that
merging adds up. -/
structure GapWeight (w : PlanGap → ℤ) : Prop where
  upTo : ∀ gap t, w (gap.upTo t) = w gap
  «from» : ∀ gap t, w (gap.from t) = w gap
  merge : ∀ gap gap', w (addMemGapToGap gap gap') = w gap + w gap'
  adjust : ∀ cluster jobs gap last, w (adjustGapMemory cluster jobs gap last) = w gap

/-- Adding an entry adds its CPUs to its node. -/
theorem sum_addNodeMem (n : ℕ) (source : PlanGapMem) (nodesMemory : List PlanGapMem) :
    ((addNodeMem nodesMemory source).map
      (fun m => if m.ninfo = n then (m.numCpus : ℤ) else 0)).sum =
      (nodesMemory.map (fun m => if m.ninfo = n then (m.numCpus : ℤ) else 0)).sum +
        if source.ninfo = n then (source.numCpus : ℤ) else 0 := by
  rw [addNodeMem_eq]
  refine sum_upsert ?_ ?_ nodesMemory
  · dsimp only
    rw [Nat.zero_add]
  · intro m hm
    dsimp only
    rw [hm]
    split
    · exact Nat.cast_add _ _
    · exact (add_zero _).symm

/-- The new memory numbers of an entry leave its node and its CPUs alone. -/
theorem adjustNodeMem_counts (cluster : PlanCluster) (neighbours : List PlanJob) (m : PlanGapMem) :
    (adjustNodeMem cluster neighbours m).ninfo = m.ninfo ∧
      (adjustNodeMem cluster neighbours m).numCpus = m.numCpus := by
  unfold adjustNodeMem
  dsimp only
  split
  · exact ⟨rfl, rfl⟩
  · exact ⟨rfl, rfl⟩

/-- The CPUs on a node are a weight. -/
theorem gapWeight_cpusOn (n : ℕ) : GapWeight (PlanGap.cpusOn n) := by
  refine ⟨fun _ _ => rfl, fun _ _ => rfl, ?_, ?_⟩
  · intro gap gap'
    unfold PlanGap.cpusOn addMemGapToGap
    dsimp only
    -- the entries are added one after the other
    generalize gap.nodesMemory = target
    induction gap'.nodesMemory generalizing target with
    | nil =>
        rw [List.foldl_nil, List.map_nil, List.sum_nil]
        omega
    | cons m rest ih =>
        rw [List.foldl_cons, ih, sum_addNodeMem, List.map_cons, List.sum_cons]
        omega
  · intro cluster jobs gap last
    unfold adjustGapMemory
    split
    · rfl
    · next ptr _ =>
        unfold PlanGap.cpusOn
        dsimp only
        rw [List.map_map]
        congr 1
        apply List.map_congr_left
        intro m _
        obtain ⟨hninfo, hcpus⟩ := adjustNodeMem_counts cluster (jobsStartingWith jobs ptr) m
        show (if (adjustNodeMem cluster (jobsStartingWith jobs ptr) m).ninfo = n then _ else _) = _
        rw [hninfo, hcpus]

/-- So is the usage. -/
theorem gapWeight_usage : GapWeight PlanGap.usage := by
  refine ⟨fun _ _ => rfl, fun _ _ => rfl, fun _ _ => rfl, ?_⟩
  intro cluster jobs gap last
  unfold adjustGapMemory
  split
  · rfl
  · rfl

/-! ## Splitting and merging -/

/-- The times of two aligned gaps. -/
theorem alignStarts_times {last gapNew last' gapNew' : PlanGap} {front : List PlanGap}
    (h : alignStarts last gapNew = (front, last', gapNew')) :
    last'.startTime = gapNew'.startTime ∧ last'.endTime = last.endTime ∧
      gapNew'.endTime = gapNew.endTime ∧
      last'.startTime = max last.startTime gapNew.startTime := by
  cases alignStarts_call h with
  | newEarlier hlt => exact ⟨rfl, rfl, rfl, (max_eq_left hlt.le).symm⟩
  | lastEarlier hlt => exact ⟨rfl, rfl, rfl, (max_eq_right hlt.le).symm⟩
  | together heq => exact ⟨heq, rfl, rfl, (max_eq_left heq.ge).symm⟩

/-- The piece cut off in front begins before the common start. -/
theorem alignStarts_front {last gapNew last' gapNew' : PlanGap} {front : List PlanGap}
    (h : alignStarts last gapNew = (front, last', gapNew')) {gap : PlanGap} (hgap : gap ∈ front) :
    gap.startTime < gap.endTime := by
  cases alignStarts_call h with
  | newEarlier hlt =>
      rw [List.mem_singleton.mp hgap]
      exact hlt
  | lastEarlier hlt =>
      rw [List.mem_singleton.mp hgap]
      exact hlt
  | together => cases hgap

section Totals

variable {w : PlanGap → ℤ} {cluster : PlanCluster} {jobs : List PlanJob}

/-- Splitting two gaps at their common start changes no total. -/
theorem alignStarts_totalAt (hw : GapWeight w) {last gapNew last' gapNew' : PlanGap}
    {front : List PlanGap}
    (hmeets : gapNew.startTime < last.endTime ∧ last.startTime < gapNew.endTime)
    (h : alignStarts last gapNew = (front, last', gapNew')) (t : ℤ) :
    totalAt w front t + last'.valueAt w t + gapNew'.valueAt w t =
      last.valueAt w t + gapNew.valueAt w t := by
  cases alignStarts_call h with
  | newEarlier hlt =>
      rw [totalAt_cons, totalAt_nil]
      simp only [valueAt_eq]
      rw [hw.upTo, hw.from]
      show (if gapNew.startTime ≤ t ∧ t < last.startTime then w gapNew else 0) + 0 + _ +
        (if last.startTime ≤ t ∧ t < gapNew.endTime then w gapNew else 0) = _
      split_ifs <;> omega
  | lastEarlier hlt =>
      rw [totalAt_cons, totalAt_nil]
      simp only [valueAt_eq]
      rw [hw.upTo, hw.from]
      show (if last.startTime ≤ t ∧ t < gapNew.startTime then w last else 0) + 0 +
        (if gapNew.startTime ≤ t ∧ t < last.endTime then w last else 0) + _ = _
      split_ifs <;> omega
  | together heq =>
      rw [totalAt_nil]
      omega

/-- Two gaps with one interval are merged. -/
theorem valueAt_merge (hw : GapWeight w) {gap gap' : PlanGap}
    (hstart : gap.startTime = gap'.startTime) (hend : gap.endTime = gap'.endTime) (t : ℤ) :
    (addMemGapToGap gap gap').valueAt w t = gap.valueAt w t + gap'.valueAt w t := by
  simp only [valueAt_eq]
  rw [hw.merge, ← hstart, ← hend]
  show (if gap.startTime ≤ t ∧ t < gap.endTime then _ else _) = _
  split
  · rfl
  · rfl

/-- A gap that ends inside the one it starts with is merged with a part of it. -/
theorem valueAt_inside (hw : GapWeight w) {gap gap' : PlanGap}
    (hstart : gap.startTime = gap'.startTime) (hnew : gap'.startTime < gap'.endTime)
    (hend : gap'.endTime < gap.endTime) (t : ℤ) :
    (addMemGapToGap (gap.upTo gap'.endTime) gap').valueAt w t +
      (gap.from gap'.endTime).valueAt w t = gap.valueAt w t + gap'.valueAt w t := by
  rw [@valueAt_merge w hw (gap.upTo gap'.endTime) gap' hstart rfl t]
  simp only [valueAt_eq]
  rw [hw.upTo, hw.from]
  show (if gap.startTime ≤ t ∧ t < gap'.endTime then w gap else 0) + _ +
    (if gap'.endTime ≤ t ∧ t < gap.endTime then w gap else 0) = _
  split_ifs <;> omega

/-- A gap that ends behind the one it starts with is merged up to that end, and its rest
remains. -/
theorem valueAt_beyond (hw : GapWeight w) {gap gap' : PlanGap}
    (hstart : gap.startTime = gap'.startTime) (hproper : gap.startTime < gap.endTime)
    (hend : gap.endTime < gap'.endTime) (t : ℤ) :
    (addMemGapToGap gap gap').valueAt w t +
      ((adjustGapMemory cluster jobs gap' gap).from gap.endTime).valueAt w t =
        gap.valueAt w t + gap'.valueAt w t := by
  obtain ⟨-, hends, -⟩ := adjustGapMemory_times cluster jobs gap' gap
  simp only [valueAt_eq]
  rw [hw.merge, hw.from, hw.adjust]
  show (if gap.startTime ≤ t ∧ t < gap.endTime then _ else _) + (if gap.endTime ≤ t ∧
    t < (adjustGapMemory cluster jobs gap' gap).endTime then _ else _) = _
  rw [hends]
  split_ifs <;> omega

/-- The new memory numbers leave the totals alone. -/
theorem valueAt_adjust (hw : GapWeight w) (gap last : PlanGap) (t : ℤ) :
    (adjustGapMemory cluster jobs gap last).valueAt w t = gap.valueAt w t := by
  obtain ⟨hstart, hend, -⟩ := adjustGapMemory_times cluster jobs gap last
  simp only [valueAt_eq]
  rw [hw.adjust, hstart, hend]

/-! ## Inserting a gap -/

/-- `insert_new_gap` adds the new gap, at every time. -/
theorem insertNewGapAux_totalAt (hw : GapWeight w) (t : ℤ) (fuel : ℕ) :
    ∀ {gaps gaps' : List PlanGap} {lastGap : Option ℕ} {gapNew : PlanGap},
      gapNew.startTime < gapNew.endTime → (∀ gap ∈ gaps, gap.startTime < gap.endTime) →
      insertNewGapAux cluster jobs fuel gaps lastGap gapNew = .ok gaps' →
      totalAt w gaps' t = totalAt w gaps t + gapNew.valueAt w t := by
  induction fuel with
  | zero =>
      intro gaps gaps' lastGap gapNew _ _ h
      rw [insertNewGapAux] at h
      cases h
  | succ fuel ih =>
      intro gaps gaps' lastGap gapNew hnew hgaps h
      have hcall := insertNewGapAux_call cluster jobs fuel gaps lastGap gapNew
      rw [h] at hcall
      generalize hresult : (Except.ok gaps' : Run (List PlanGap)) = result at hcall
      cases hcall with
      | append adjusted hadjusted hlast =>
          rw [Except.ok.inj hresult, totalAt_append, totalAt_cons, totalAt_nil]
          rcases hadjusted with rfl | ⟨last, rfl⟩
          · omega
          · rw [valueAt_adjust hw]
            omega
      | before pre post last hsplit hpre hafter =>
          rw [Except.ok.inj hresult, hsplit]
          simp only [totalAt_append, totalAt_cons, totalAt_nil]
          omega
      | same pre post front last last' gapNew' hsplit hpre hmeets halign hend =>
          obtain ⟨hstart, hlastEnd, hnewEnd, -⟩ := alignStarts_times halign
          have htotal := alignStarts_totalAt hw hmeets halign t
          rw [Except.ok.inj hresult, hsplit]
          simp only [totalAt_append, totalAt_cons, totalAt_nil]
          rw [valueAt_merge hw hstart hend]
          omega
      | inside pre post front last last' gapNew' hsplit hpre hmeets halign hend =>
          obtain ⟨hstart, hlastEnd, hnewEnd, hmax⟩ := alignStarts_times halign
          have htotal := alignStarts_totalAt hw hmeets halign t
          have hinside := valueAt_inside hw hstart (by omega) hend t
          rw [Except.ok.inj hresult, hsplit]
          simp only [totalAt_append, totalAt_cons, totalAt_nil]
          omega
      | beyond pre post front last last' gapNew' hsplit hposition hlast hpre hmeets halign hend =>
          obtain ⟨hstart, hlastEnd, hnewEnd, hmax⟩ := alignStarts_times halign
          obtain ⟨-, hends, -⟩ := adjustGapMemory_times cluster jobs gapNew' last'
          have hlastGap : last.startTime < last.endTime := hgaps last (by simp [hsplit])
          have htotal := alignStarts_totalAt hw hmeets halign t
          have hbeyond := @valueAt_beyond w cluster jobs hw last' gapNew' hstart (by omega) hend t
          -- what is left of the new gap, from the end of `last'` on, is added by the next call
          have hrest : totalAt w gaps' t =
              totalAt w (pre ++ (front ++ [addMemGapToGap last' gapNew']) ++ post) t +
                ((adjustGapMemory cluster jobs gapNew' last').from last'.endTime).valueAt w t := by
            refine ih ?_ ?_ hresult.symm
            · show last'.endTime < (adjustGapMemory cluster jobs gapNew' last').endTime
              omega
            · intro gap hgap
              rw [hsplit] at hgaps
              simp only [List.mem_append, List.mem_singleton] at hgap
              rcases hgap with (hgap | hgap | rfl) | hgap
              · exact hgaps gap (by simp [hgap])
              · exact alignStarts_front halign hgap
              · show last'.startTime < last'.endTime
                omega
              · exact hgaps gap (by simp [hgap])
          rw [hrest, hsplit]
          simp only [totalAt_append, totalAt_cons, totalAt_nil]
          omega

end Totals

/-- Apart from its budget, nothing stops `insert_new_gap`. -/
theorem insertNewGapAux_returns (cluster : PlanCluster) (jobs : List PlanJob) (fuel : ℕ) :
    ∀ (gaps : List PlanGap) (lastGap : Option ℕ) (gapNew : PlanGap),
      insertNewGapAux cluster jobs fuel gaps lastGap gapNew = .error .outOfSteps ∨
        ∃ gaps', insertNewGapAux cluster jobs fuel gaps lastGap gapNew = .ok gaps' := by
  induction fuel with
  | zero =>
      intro gaps lastGap gapNew
      exact Or.inl rfl
  | succ fuel ih =>
      intro gaps lastGap gapNew
      have hcall := insertNewGapAux_call cluster jobs fuel gaps lastGap gapNew
      generalize insertNewGapAux cluster jobs (fuel + 1) gaps lastGap gapNew = result at hcall ⊢
      cases hcall with
      | append => exact Or.inr ⟨_, rfl⟩
      | before => exact Or.inr ⟨_, rfl⟩
      | same => exact Or.inr ⟨_, rfl⟩
      | inside => exact Or.inr ⟨_, rfl⟩
      | beyond => exact ih _ _ _

/-- The CPUs of node `n` that the gap list offers at time `t`. -/
def cpusAt (gaps : List PlanGap) (n : ℕ) (t : ℤ) : ℤ := totalAt (PlanGap.cpusOn n) gaps t

/-- The usage that the gap list offers at time `t`. -/
def usageAt (gaps : List PlanGap) (t : ℤ) : ℤ := totalAt PlanGap.usage gaps t

/-- `insert_new_gap` on an ordered list returns an ordered list, in which at every time the
CPUs of every node and the usage are those of before, and on the interval of the new gap those
of the new gap in addition. -/
theorem insertNewGap_adds (cluster : PlanCluster) (jobs : List PlanJob) {gaps : List PlanGap}
    {gapNew : PlanGap} (hgaps : OrderedGaps gaps) (hnew : gapNew.Proper) :
    ∃ gaps', insertNewGap cluster jobs gaps gapNew = .ok gaps' ∧ OrderedGaps gaps' ∧
      ∀ t, (∀ n, cpusAt gaps' n t =
          cpusAt gaps n t + if gapNew.covers t then gapNew.cpusOn n else 0) ∧
        usageAt gaps' t = usageAt gaps t + if gapNew.covers t then gapNew.usage else 0 := by
  obtain ⟨gaps', hgaps'⟩ : ∃ gaps', insertNewGap cluster jobs gaps gapNew = .ok gaps' := by
    rcases insertNewGapAux_returns cluster jobs (gaps.length + 2) gaps none gapNew with
      hsteps | hreturns
    · exact absurd hsteps (insertNewGap_ends cluster jobs gaps gapNew)
    · exact hreturns
  have hlengths : ∀ gap ∈ gaps, gap.startTime < gap.endTime :=
    fun gap hgap => (hgaps.proper gap hgap).1
  refine ⟨gaps', hgaps', ?_, ?_⟩
  · apply insertNewGapAux_ordered _ hgaps hnew ?_ hgaps'
    intro p hp
    cases hp
  · intro t
    constructor
    · intro n
      exact insertNewGapAux_totalAt (gapWeight_cpusOn n) t _ hnew.1 hlengths hgaps'
    · exact insertNewGapAux_totalAt gapWeight_usage t _ hnew.1 hlengths hgaps'

/-- A gap with CPUs of the first node. -/
def firstNodeGap (startTime endTime : ℤ) (numCpus : ℕ) : PlanGap :=
  { gapFillin startTime endTime none with
    usage := numCpus
    nodesMemory := [⟨0, numCpus, 8, 0⟩] }

/-- Two gaps that overlap become three. -/
theorem insertNewGap_adds_overlap :
    ∃ gaps', insertNewGap ⟨"zubat", [], 0, 0, 0⟩ [] [firstNodeGap 0 10 2] (firstNodeGap 5 15 1)
        = .ok gaps' ∧
      gaps'.map (fun gap => (gap.startTime, gap.endTime)) = [(0, 5), (5, 10), (10, 15)] ∧
      cpusAt gaps' 0 4 = 2 ∧ cpusAt gaps' 0 7 = 3 ∧ cpusAt gaps' 0 12 = 1 := by
  obtain ⟨gaps', hgaps', -, hadds⟩ := @insertNewGap_adds ⟨"zubat", [], 0, 0, 0⟩ []
    [firstNodeGap 0 10 2] (firstNodeGap 5 15 1)
    (orderedGaps_singleton ⟨by decide, by decide⟩) ⟨by decide, by decide⟩
  have hrun : (insertNewGap ⟨"zubat", [], 0, 0, 0⟩ [] [firstNodeGap 0 10 2] (firstNodeGap 5 15 1)
      >>= fun gaps => pure (gaps.map (fun gap => (gap.startTime, gap.endTime))))
      = .ok [(0, 5), (5, 10), (10, 15)] := by
    decide +kernel
  refine ⟨gaps', hgaps', ?_, ?_, ?_, ?_⟩
  · rw [hgaps'] at hrun
    exact pure_ok.mp hrun
  · rw [(hadds 4).1 0]
    rfl
  · rw [(hadds 7).1 0]
    rfl
  · rw [(hadds 12).1 0]
    rfl

end PlanSched
