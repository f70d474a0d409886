/-
# CPUs in the gaps

What the gap list of a plan says about the nodes in it: which properties of single gaps
the operations of `insert_new_gap` keep, and that a gap has one entry for each of its
nodes.

* `updateSched_gaps_forall`: a property of gaps that splitting and merging keep holds of
  the whole list;
* `updateSched_nodesOnce`: a gap lists every node once.
-/
import PlanSched.UpdateSched
import PlanSched.KeyedRecords

namespace PlanSched

open CheckedRun KeyedRecords

/-! ## Properties of all gaps -/

/-- A property of gaps that all operations on gap lists keep. -/
structure GapClosed (G : PlanGap → Prop) : Prop where
  upTo : ∀ gap t, G gap → G (gap.upTo t)
  «from» : ∀ gap t, G gap → G (gap.from t)
  merge : ∀ gap gap', G gap → G gap' → G (addMemGapToGap gap gap')
  adjust : ∀ cluster jobs gap last, G gap → G (adjustGapMemory cluster jobs gap last)

/-- The pieces `insert_new_gap` aligns have the property. -/
theorem GapClosed.alignStarts {G : PlanGap → Prop} (hG : GapClosed G)
    {last gapNew last' gapNew' : PlanGap} {front : List PlanGap} (hlast : G last)
    (hnew : G gapNew) (h : alignStarts last gapNew = (front, last', gapNew')) :
    G last' ∧ G gapNew' ∧ ∀ gap ∈ front, G gap := by
  cases alignStarts_call h with
  | newEarlier => exact ⟨hlast, hG.from _ _ hnew, by simpa using hG.upTo _ _ hnew⟩
  | lastEarlier => exact ⟨hG.from _ _ hlast, hnew, by simpa using hG.upTo _ _ hlast⟩
  | together => exact ⟨hlast, hnew, by simp⟩

/-- `insert_new_gap` keeps the property. -/
theorem GapClosed.insertNewGapAux {G : PlanGap → Prop} (hG : GapClosed G) {cluster : PlanCluster}
    {jobs : List PlanJob} (fuel : ℕ) :
    ∀ {gaps gaps' : List PlanGap} {lastGap : Option ℕ} {gapNew : PlanGap},
      (∀ gap ∈ gaps, G gap) → G gapNew →
      insertNewGapAux cluster jobs fuel gaps lastGap gapNew = .ok gaps' → ∀ gap ∈ gaps', G gap := by
  induction fuel with
  | zero =>
      intro gaps gaps' lastGap gapNew _ _ h
      rw [PlanSched.insertNewGapAux] at h
      cases h
  | succ fuel ih =>
      intro gaps gaps' lastGap gapNew hgaps hnew h
      have hcall := insertNewGapAux_call cluster jobs fuel gaps lastGap gapNew
      rw [h] at hcall
      generalize hresult : (Except.ok gaps' : Run (List PlanGap)) = result at hcall
      -- every gap that a call makes is an old one, adjusted, cut or merged
      cases hcall with
      | append adjusted hadjusted hlast =>
          have hadj : G adjusted := by
            rcases hadjusted with rfl | ⟨last, rfl⟩
            · exact hnew
            · exact hG.adjust _ _ _ _ hnew
          rw [Except.ok.inj hresult, List.forall_mem_append, List.forall_mem_singleton]
          exact ⟨hgaps, hadj⟩
      | before pre post last hsplit hpre hafter =>
          rw [hsplit, List.forall_mem_append, List.forall_mem_cons] at hgaps
          rw [Except.ok.inj hresult, List.forall_mem_append, List.forall_mem_append,
            List.forall_mem_cons, List.forall_mem_singleton]
          exact ⟨⟨hgaps.1, hnew, hgaps.2.1⟩, hgaps.2.2⟩
      | same pre post front last last' gapNew' hsplit hpre hmeets halign hend =>
          rw [hsplit, List.forall_mem_append, List.forall_mem_cons] at hgaps
          obtain ⟨hlast', hnew', hfront⟩ := hG.alignStarts hgaps.2.1 hnew halign
          rw [Except.ok.inj hresult, List.forall_mem_append, List.forall_mem_append,
            List.forall_mem_append, List.forall_mem_singleton]
          exact ⟨⟨hgaps.1, hfront, hG.merge _ _ hlast' hnew'⟩, hgaps.2.2⟩
      | inside pre post front last last' gapNew' hsplit hpre hmeets halign hend =>
          rw [hsplit, List.forall_mem_append, List.forall_mem_cons] at hgaps
          obtain ⟨hlast', hnew', hfront⟩ := hG.alignStarts hgaps.2.1 hnew halign
          rw [Except.ok.inj hresult, List.forall_mem_append, List.forall_mem_append,
            List.forall_mem_append, List.forall_mem_cons, List.forall_mem_singleton]
          exact ⟨⟨hgaps.1, hfront, hG.merge _ _ (hG.upTo _ _ hlast') hnew', hG.from _ _ hlast'⟩,
            hgaps.2.2⟩
      | beyond pre post front last last' gapNew' hsplit _ _ hpre hmeets halign hend =>
          rw [hsplit, List.forall_mem_append, List.forall_mem_cons] at hgaps
          obtain ⟨hlast', hnew', hfront⟩ := hG.alignStarts hgaps.2.1 hnew halign
          refine ih ?_ (hG.from _ _ (hG.adjust _ _ _ _ hnew')) hresult.symm
          rw [List.forall_mem_append, List.forall_mem_append, List.forall_mem_append,
            List.forall_mem_singleton]
          exact ⟨⟨hgaps.1, hfront, hG.merge _ _ hlast' hnew'⟩, hgaps.2.2⟩

/-- So do the gaps inserted one after the other. -/
theorem GapClosed.foldlM {G : PlanGap → Prop} (hG : GapClosed G) {cluster : PlanCluster}
    {jobs : List PlanJob} {new gaps gaps' : List PlanGap} (hgaps : ∀ gap ∈ gaps, G gap)
    (hnew : ∀ gap ∈ new, G gap) (h : new.foldlM (insertNewGap cluster jobs) gaps = .ok gaps') :
    ∀ gap ∈ gaps', G gap := by
  refine foldlM_invariant (fun gs => ∀ gap ∈ gs, G gap) _ new gaps gaps' ?_ hgaps h
  intro gs gap gs' hgap hgs hstep
  exact hG.insertNewGapAux _ hgs (hnew gap hgap) hstep

/-- The gaps in front of a job have the property, if every gap made from slots has it. -/
theorem gapsOfJob_forall {G : PlanGap → Prop}
    (hslots : ∀ (gap : PlanGap) (slots : List FirstFreeSlot), G (gap.withSlots slots))
    {job : PlanJob} {slots : List FirstFreeSlot} (cpus : List ℕ) :
    ∀ {gapStart : ℤ} {gaps : List PlanGap}, gapsOfJob job slots cpus gapStart = .ok gaps →
      ∀ gap ∈ gaps, G gap := by
  induction cpus with
  | nil =>
      intro gapStart gaps h
      rw [gapsOfJob] at h
      cases h
      simp
  | cons c cpus ih =>
      intro gapStart gaps h
      rw [gapsOfJob] at h
      obtain ⟨slot, -, h⟩ := bind_ok.mp h
      dsimp only at h
      generalize (if gapStart = -1 then slot.time else gapStart) = start at h
      split at h
      · obtain ⟨first, hfirst, h⟩ := bind_ok.mp h
        obtain ⟨others, hothers, h⟩ := bind_ok.mp h
        unfold gapMemoryCreate at hfirst
        obtain ⟨own, -, hfirst⟩ := bind_ok.mp hfirst
        rw [← pure_ok.mp h, ← pure_ok.mp hfirst, List.forall_mem_cons]
        exact ⟨hslots _ _, ih hothers⟩
      · exact ih h

/-- The same for the gaps after the last use of a CPU. -/
theorem gapsBetweenSlots_forall {G : PlanGap → Prop}
    (hslots : ∀ (gap : PlanGap) (slots : List FirstFreeSlot), G (gap.withSlots slots))
    {cluster : PlanCluster} {slots : List FirstFreeSlot} {maxCompletionTime : ℤ} (n : ℕ) :
    ∀ {avail : List Bool} {gapStart : ℤ} {gaps : List PlanGap},
      gapsBetweenSlots cluster slots maxCompletionTime n avail gapStart = .ok gaps →
      ∀ gap ∈ gaps, G gap := by
  induction n with
  | zero =>
      intro avail gapStart gaps h
      rw [gapsBetweenSlots] at h
      cases h
      simp
  | succ n ih =>
      intro avail gapStart gaps h
      rw [gapsBetweenSlots] at h
      split at h
      · exact ih h
      · next c hc =>
        dsimp only at h
        generalize (if gapStart = -1 then slotTime slots c else gapStart) = start at h
        generalize (if maxCompletionTime < slotTime slots c then maxCompletionTime
          else slotTime slots c) = gapEnd at h
        split at h
        · split at h
          · obtain ⟨first, hfirst, h⟩ := bind_ok.mp h
            obtain ⟨others, hothers, h⟩ := bind_ok.mp h
            unfold gapMemoryCreateLast at hfirst
            obtain ⟨counted, -, hfirst⟩ := bind_ok.mp hfirst
            rw [← pure_ok.mp h, ← pure_ok.mp hfirst, List.forall_mem_cons]
            exact ⟨hslots _ _, ih hothers⟩
          · exact ih h
        · exact ih h

/-- The gaps `update_job` leaves are those in front of the job. -/
theorem updateJob_gaps {conf : LimitsForClusters} {cluster : PlanCluster} {values : LimitsValues}
    {limits : List PlanLimit} {slots : List FirstFreeSlot} {job : PlanJob} {update : JobUpdate}
    (h : updateJob conf cluster values limits slots job = .ok (some update)) :
    ∃ table, gapsOfJob update.job table update.job.cpuIndexes (-1) = .ok update.gaps := by
  rcases updateJob_cases h with ⟨-, placed, adjusted, claimed, hcall⟩ | ⟨-, placed, hcall⟩
  · exact ⟨claimed, hcall.gaps_ok⟩
  · exact ⟨slots, hcall.gaps_ok⟩

/-- A property of gaps that the operations keep, of gaps made from slots and of the last
gap, holds of all gaps of a plan. -/
theorem updateSched_gaps_forall {G : PlanGap → Prop} (hG : GapClosed G)
    (hslots : ∀ (gap : PlanGap) (slots : List FirstFreeSlot), G (gap.withSlots slots))
    (hlast : ∀ t cluster, G (gapCreateLast t cluster)) {conf : LimitsForClusters} {time : ℤ}
    {values : LimitsValues} {plan : ClusterPlan} {result : SchedUpdate}
    (h : updateSched conf time values plan = .ok result) (hcode : result.code = 0) :
    ∀ gap ∈ result.plan.gaps, G gap := by
  obtain ⟨slots, values', jobs, st, gaps, -, -, hplan, hclose, -, rfl⟩ :=
    updateSched_complete h hcode
  have hst : ∀ gap ∈ st.gaps, G gap := by
    refine @planJobs_invariant _ _ _ (fun s => ∀ gap ∈ s.gaps, G gap) (fun _ => True)
      (fun _ _ _ => trivial) ?_ ?_ jobs _ _ (fun _ _ => trivial) (by simp) hplan
    · intro rest s job update s' _ _ hinv hplanned
      obtain ⟨table, hgaps⟩ := updateJob_gaps hplanned.update_ok
      exact hG.foldlM hinv (gapsOfJob_forall hslots _ hgaps) hplanned.gaps_ok
    · intro s job s' _ _ hinv hpassed
      rw [hpassed.gaps_eq]
      exact hinv
  unfold closingGaps at hclose
  dsimp only at hclose
  split at hclose
  · obtain ⟨front, hfront, hclose⟩ := bind_ok.mp hclose
    rw [← pure_ok.mp hclose, ← pure_ok.mp hfront, List.forall_mem_append,
      List.forall_mem_singleton]
    exact ⟨hst, hlast _ _⟩
  · obtain ⟨new, hnew, hclose⟩ := bind_ok.mp hclose
    obtain ⟨front, hfront, hclose⟩ := bind_ok.mp hclose
    rw [← pure_ok.mp hclose, List.forall_mem_append, List.forall_mem_singleton]
    exact ⟨hG.foldlM hst (gapsBetweenSlots_forall hslots _ hnew) hfront, hlast _ _⟩

/-! ## Every node once -/

/-- The gap lists every node once. -/
def PlanGap.NodesOnce (gap : PlanGap) : Prop := (gap.nodesMemory.map PlanGapMem.ninfo).Nodup

/-- Counting a CPU changes the entry of its node, or enters it. -/
theorem countCpu_eq (slot : FirstFreeSlot) (nodesMemory : List PlanGapMem) :
    countCpu nodesMemory slot = upsert PlanGapMem.ninfo
      (fun n => ⟨n, 0, slot.availableMem, slot.availableScratchLocal⟩) slot.ninfo
      (fun m => { m with
        numCpus := m.numCpus + 1
        availableMem := slot.availableMem
        availableScratchLocal := slot.availableScratchLocal }) nodesMemory := by
  induction nodesMemory with
  | nil => rfl
  | cons m rest ih => rw [countCpu, upsert, ih]

/-- So does adding an entry. -/
theorem addNodeMem_eq (source : PlanGapMem) (nodesMemory : List PlanGapMem) :
    addNodeMem nodesMemory source = upsert PlanGapMem.ninfo
      (fun n => { source with ninfo := n, numCpus := 0 }) source.ninfo
      (fun m => { m with numCpus := m.numCpus + source.numCpus }) nodesMemory := by
  induction nodesMemory with
  | nil =>
      show [source] = [{ source with numCpus := 0 + source.numCpus }]
      rw [Nat.zero_add]
  | cons m rest ih => rw [addNodeMem, upsert, ih]

/-- A gap made from slots lists every node once. -/
theorem nodesOnce_withSlots (gap : PlanGap) (slots : List FirstFreeSlot) :
    (gap.withSlots slots).NodesOnce := by
  show ((slots.foldl countCpu []).map PlanGapMem.ninfo).Nodup
  refine List.foldlRecOn
    (motive := fun entries : List PlanGapMem => (entries.map PlanGapMem.ninfo).Nodup)
    _ _ (by simp) ?_
  intro entries hentries slot _
  rw [countCpu_eq]
  refine nodup_upsert ?_ ?_ hentries
  · rfl
  · intro m
    rfl

/-- The last gap lists every node once. -/
theorem nodesOnce_gapCreateLast (t : ℤ) (cluster : PlanCluster) :
    (gapCreateLast t cluster).NodesOnce := by
  unfold PlanGap.NodesOnce gapCreateLast
  have hsub : ((cluster.nodes.zipIdx.filterMap (fun e =>
      if e.1.isOut then none
      else some (⟨e.2, e.1.coresTotal, getNodeMem e.1, getNodeScratchLocal e.1⟩ : PlanGapMem))).map
        PlanGapMem.ninfo).Sublist (cluster.nodes.zipIdx.map Prod.snd) := by
    induction cluster.nodes.zipIdx with
    | nil => simp
    | cons e rest ih =>
        rw [List.filterMap_cons, List.map_cons]
        split
        · next hout => exact ih.cons _
        · next m hm =>
            split at hm
            · cases hm
            · cases hm
              rw [List.map_cons]
              exact ih.cons_cons _
  refine hsub.nodup ?_
  rw [List.zipIdx_map_snd]
  exact List.nodup_range'

/-- Splitting and merging gaps keeps every node once. -/
theorem gapClosed_nodesOnce : GapClosed PlanGap.NodesOnce := by
  refine ⟨fun _ _ h => h, fun _ _ h => h, ?_, ?_⟩
  · intro gap gap' h _
    show ((gap'.nodesMemory.foldl addNodeMem gap.nodesMemory).map PlanGapMem.ninfo).Nodup
    refine List.foldlRecOn
      (motive := fun entries : List PlanGapMem => (entries.map PlanGapMem.ninfo).Nodup) _ _ h ?_
    intro entries hentries m _
    rw [addNodeMem_eq]
    refine nodup_upsert ?_ ?_ hentries
    · rfl
    · intro m
      rfl
  · intro cluster jobs gap last h
    unfold adjustGapMemory
    split
    · exact h
    · next ptr _ =>
        have hninfo : ∀ m,
            (adjustNodeMem cluster (jobsStartingWith jobs ptr) m).ninfo = m.ninfo := by
          intro m
          unfold adjustNodeMem
          dsimp only
          split
          · rfl
          · rfl
        show ((gap.nodesMemory.map _).map PlanGapMem.ninfo).Nodup
        have hmap : (gap.nodesMemory.map (adjustNodeMem cluster (jobsStartingWith jobs ptr))).map
            PlanGapMem.ninfo = gap.nodesMemory.map PlanGapMem.ninfo := by
          rw [List.map_map]
          exact List.map_congr_left (fun m _ => hninfo m)
        rw [hmap]
        exact h

/-- Every gap of a plan lists every node once. -/
theorem updateSched_nodesOnce {conf : LimitsForClusters} {time : ℤ} {values : LimitsValues}
    {plan : ClusterPlan} {result : SchedUpdate}
    (h : updateSched conf time values plan = .ok result) (hcode : result.code = 0) :
    ∀ gap ∈ result.plan.gaps, gap.NodesOnce :=
  updateSched_gaps_forall gapClosed_nodesOnce nodesOnce_withSlots nodesOnce_gapCreateLast h hcode

end PlanSched
