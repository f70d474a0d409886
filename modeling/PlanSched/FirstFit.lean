/-
# What the search for a gap decides

`find_first_gap` (`plan_gaps.cpp`) runs two cursors over the gap list and keeps its counter
and the considered gaps from one node to the next.  Here this is reduced to what decides a
gap: the shortest run of gaps without a break that is long enough, whether the limits allow
the gaps of the run, and by how much each node counts in it.

* `visitNode_run`: the work on a node, from any state of the search;
* `searchGaps_first`: the gap returned is the first one that is accepted;
* `findFirstGap_fixJob`: with and without `fix_job` the search does the same.
-/
import PlanSched.FirstGap
import PlanSched.LimitsIndex
import PlanSched.GapOrder
import PlanSched.ShortestRun

namespace PlanSched

open CheckedRun ShortestRun

/-! ## Gaps that fit -/

/-- The second gap starts where the first one ends. -/
def Follows (gap gap' : PlanGap) : Prop := gap'.startTime = gap.endTime

instance : DecidableRel Follows := fun gap gap' =>
  inferInstanceAs (Decidable (gap'.startTime = gap.endTime))

/-- The shortest run of gaps without a break that is long enough for the job, from the first
of `gaps` on. -/
def JobRun (job : PlanJob) (gaps run : List PlanGap) : Prop :=
  IsShortest PlanGap.duration Follows job.estimatedProcessing gaps run

/-- The least value of `check_node_in_gap` in a run. -/
def leastChunks (job : PlanJob) (run : List PlanGap) (ninfo : ℕ) : ℤ :=
  ((run.map (fun gap =>
    checkNodeInGap gap ninfo job.reqPpn job.reqMem job.reqScratchLocal)).min?).getD 0

/-- The limits in force allow every gap of a run. -/
def RunAllowed (conf : LimitsForClusters) (cluster : PlanCluster) (limits : List PlanLimit)
    (job : PlanJob) (values : LimitsValues) (run : List PlanGap) : Prop :=
  ∀ gap ∈ run, limitsIsGapOk conf cluster values limits job gap = .ok true

/-- The limits allow the run when their values are brought up to date. -/
def LimitsAllow (conf : LimitsForClusters) (cluster : PlanCluster) (limits : List PlanLimit)
    (job : PlanJob) (values : LimitsValues) (run : List PlanGap) : Prop :=
  ∃ values', updateLimitsValues conf cluster values = .ok values' ∧
    RunAllowed conf cluster limits job values' run

/-- The entry of a gap passes the tests of its node. -/
def nodePasses (cluster : PlanCluster) (job : PlanJob) (gap : PlanGap) (m : PlanGapMem) : Bool :=
  match cluster.nodes[m.ninfo]? with
  | none => false
  | some node => !(nodeRefused job gap m node || lacksGpu job node)

/-- What the search makes of a number of chunks: an exclusive job gets one. -/
def clipChunks (job : PlanJob) (chunks : ℤ) : ℤ :=
  if job.jinfo.isExclusive ∧ 0 < chunks then 1 else chunks

/-- The number by which the search counts a node, with its sign; none for a node that has no
room in a gap behind the first one. -/
def runCount (job : PlanJob) (run : List PlanGap) (ninfo : ℕ) : Option ℤ :=
  if run.tail.any (fun gap => chunksInGap job gap ninfo == 0) then none
  else some (clipChunks job (leastChunks job run ninfo))

/-- The numbers by which the search counts the nodes of a gap, in their order. -/
def signedCounts (cluster : PlanCluster) (job : PlanJob) (gap : PlanGap) (run : List PlanGap)
    (entries : List PlanGapMem) : List ℤ :=
  entries.filterMap (fun m =>
    if nodePasses cluster job gap m then runCount job run m.ninfo else none)

/-! ## Chunks in a run -/

/-- The chunks of a gap, clipped. -/
theorem chunksInGap_eq (job : PlanJob) (gap : PlanGap) (ninfo : ℕ) :
    chunksInGap job gap ninfo
      = clipChunks job (checkNodeInGap gap ninfo job.reqPpn job.reqMem job.reqScratchLocal) :=
  rfl

/-- Nothing is clipped for a job that shares its nodes. -/
theorem clipChunks_shared {job : PlanJob} (hshared : job.jinfo.isExclusive = false) (chunks : ℤ) :
    clipChunks job chunks = chunks := by
  unfold clipChunks
  rw [hshared]
  simp

/-- Clipping keeps the smaller number smaller. -/
theorem clipChunks_min (job : PlanJob) (a b : ℤ) :
    clipChunks job (min a b) = min (clipChunks job a) (clipChunks job b) := by
  unfold clipChunks
  cases job.jinfo.isExclusive with
  | false => simp
  | true =>
      simp only [true_and]
      rcases le_total a b with h | h
      · rw [min_eq_left h]
        split_ifs <;> omega
      · rw [min_eq_right h]
        split_ifs <;> omega

/-- An exclusive job gets at most one chunk. -/
theorem clipChunks_le_share (job : PlanJob) (a : ℤ) :
    clipChunks job a ≤ if job.jinfo.isExclusive then 1 else a := by
  unfold clipChunks
  cases job.jinfo.isExclusive with
  | false => simp
  | true =>
      simp only [true_and, if_true]
      split_ifs <;> omega

/-- A clipped number is not larger. -/
theorem clipChunks_le (job : PlanJob) (a : ℤ) : clipChunks job a ≤ a := by
  unfold clipChunks
  split_ifs <;> omega

/-- The minimum the search keeps while it follows the gaps. -/
theorem foldl_min_chunks (job : PlanJob) (ninfo : ℕ) (gap : PlanGap) (tail : List PlanGap) :
    tail.foldl (fun m next => min m (chunksInGap job next ninfo)) (chunksInGap job gap ninfo)
      = clipChunks job (leastChunks job (gap :: tail) ninfo) := by
  unfold leastChunks
  rw [List.map_cons, List.min?_cons', Option.getD_some, chunksInGap_eq]
  generalize checkNodeInGap gap ninfo job.reqPpn job.reqMem job.reqScratchLocal = start
  induction tail generalizing start with
  | nil => rfl
  | cons next tail ih =>
      rw [List.foldl_cons, List.map_cons, List.foldl_cons, chunksInGap_eq, ← clipChunks_min]
      exact ih _

/-- No gap of the run has fewer chunks than the least number. -/
theorem leastChunks_le (job : PlanJob) {run : List PlanGap} (ninfo : ℕ) {gap : PlanGap}
    (hgap : gap ∈ run) :
    leastChunks job run ninfo
      ≤ checkNodeInGap gap ninfo job.reqPpn job.reqMem job.reqScratchLocal := by
  unfold leastChunks
  have hmem := List.mem_map_of_mem (f := fun gap =>
    checkNodeInGap gap ninfo job.reqPpn job.reqMem job.reqScratchLocal) hgap
  cases hmin : (run.map (fun gap =>
      checkNodeInGap gap ninfo job.reqPpn job.reqMem job.reqScratchLocal)).min? with
  | none =>
      rw [List.min?_eq_none_iff] at hmin
      rw [hmin] at hmem
      cases hmem
  | some least => exact (List.min?_eq_some_iff.mp hmin).2 _ hmem

/-- A node without room in a gap behind the first one has no count. -/
theorem runCount_of_noRoom {job : PlanJob} {gap : PlanGap} {tail : List PlanGap} {ninfo : ℕ}
    (h : ∃ next ∈ tail, chunksInGap job next ninfo = 0) :
    runCount job (gap :: tail) ninfo = none := by
  obtain ⟨next, hnext, hzero⟩ := h
  unfold runCount
  rw [if_pos]
  exact List.any_eq_true.mpr ⟨next, hnext, by simpa using hzero⟩

/-- Any other has the least number of the run. -/
theorem runCount_of_room {job : PlanJob} {gap : PlanGap} {tail : List PlanGap} {ninfo : ℕ}
    (h : ∀ next ∈ tail, chunksInGap job next ninfo ≠ 0) :
    runCount job (gap :: tail) ninfo
      = some (clipChunks job (leastChunks job (gap :: tail) ninfo)) := by
  unfold runCount
  rw [if_neg]
  intro hany
  obtain ⟨next, hnext, hzero⟩ := List.any_eq_true.mp hany
  exact h next hnext (by simpa using hzero)

/-! ## One step of the search -/

section Search

variable {conf : LimitsForClusters} {cluster : PlanCluster} {limits : List PlanLimit}
  {job : PlanJob} {fixJob : Bool} {search search' : GapSearch}

/-- What the work on a node may do to the state of the search: the array keeps its size, and
the limit values are those from before or brought up to date. -/
structure SearchFrame (conf : LimitsForClusters) (cluster : PlanCluster)
    (search search' : GapSearch) : Prop where
  length_eq : search'.fixedNnameArr.length = search.fixedNnameArr.length
  values : search'.values = search.values ∨
    updateLimitsValues conf cluster search.values = .ok search'.values

/-- Doing nothing is such a step. -/
theorem SearchFrame.refl (conf : LimitsForClusters) (cluster : PlanCluster) (search : GapSearch) :
    SearchFrame conf cluster search search := ⟨rfl, Or.inl rfl⟩

/-- Two such steps make one. -/
theorem SearchFrame.trans {search₁ search₂ search₃ : GapSearch}
    (h : SearchFrame conf cluster search₁ search₂)
    (h' : SearchFrame conf cluster search₂ search₃) :
    SearchFrame conf cluster search₁ search₃ := by
  refine ⟨h'.length_eq.trans h.length_eq, ?_⟩
  rcases h.values with h₁ | h₁
  · rcases h'.values with h₂ | h₂
    · exact Or.inl (h₂.trans h₁)
    · exact Or.inr (h₁ ▸ h₂)
  · rcases h'.values with h₂ | h₂
    · exact Or.inr (h₂ ▸ h₁)
    · -- brought up to date twice
      rw [updateLimitsValues_again h₁] at h₂
      exact Or.inr (h₁.trans h₂)

/-- The limits allow a run before such a step exactly if they do so after it. -/
theorem SearchFrame.limitsAllow_iff (h : SearchFrame conf cluster search search')
    (run : List PlanGap) :
    LimitsAllow conf cluster limits job search'.values run ↔
      LimitsAllow conf cluster limits job search.values run := by
  unfold LimitsAllow
  rcases h.values with heq | hupdate
  · rw [heq]
  · rw [updateLimitsValues_again hupdate, hupdate]

/-- The node is counted and nothing else happens. -/
theorem frame_countNode (search : GapSearch) (name : String) (max : ℤ) :
    SearchFrame conf cluster search (search.countNode fixJob job name max) := by
  refine ⟨?_, Or.inl rfl⟩
  unfold GapSearch.countNode
  dsimp only
  split
  · exact List.length_mapIdx
  · rfl

/-- The loop of `check_considered_gaps` returns true if all gaps are allowed. -/
theorem gapsAllowed_true_iff {values : LimitsValues} (gaps : List PlanGap) :
    gapsAllowed conf cluster values limits job gaps = .ok true ↔
      RunAllowed conf cluster limits job values gaps := by
  unfold RunAllowed
  induction gaps with
  | nil => simp [gapsAllowed]
  | cons gap gaps ih =>
      rw [gapsAllowed, List.forall_mem_cons, ← ih]
      constructor
      · intro h
        obtain ⟨ok, hok, h⟩ := bind_ok.mp h
        cases ok with
        | false => cases pure_ok.mp h
        | true => exact ⟨hok, h⟩
      · rintro ⟨hok, h⟩
        exact bind_ok.mpr ⟨true, hok, h⟩

/-- `check_considered_gaps` decides whether the limits allow the gaps considered. -/
theorem checkConsideredGaps_spec {ok : Bool}
    (h : checkConsideredGaps conf cluster limits job search = .ok (search', ok)) :
    ∃ values, updateLimitsValues conf cluster search.values = .ok values ∧
      search' = { search with values := values } ∧
      (ok = true ↔ RunAllowed conf cluster limits job values search.consideredGaps) := by
  unfold checkConsideredGaps at h
  obtain ⟨values, hvalues, h⟩ := bind_ok.mp h
  obtain ⟨ok', hok, h⟩ := bind_ok.mp h
  obtain ⟨rfl, rfl⟩ := Prod.mk.inj (pure_ok.mp h)
  refine ⟨values, hvalues, rfl, ?_⟩
  rw [← gapsAllowed_true_iff, hok]
  constructor
  · rintro rfl
    rfl
  · intro heq
    exact Except.ok.inj heq

/-- The last test of the work on a node, when the run was considered. -/
theorem closeNode_spec {nodeEnd : NodeEnd} {run : List PlanGap}
    (hrun : ∀ gap, gap ∈ search.consideredGaps ↔ gap ∈ run)
    (h : closeNode conf cluster limits job search = .ok (search', nodeEnd)) :
    SearchFrame conf cluster search search' ∧
      search'.consideredGaps = search.consideredGaps ∧
      search'.planNumNodes = search.planNumNodes ∧
      search'.fixedNnameArr = search.fixedNnameArr ∧ nodeEnd ≠ .nextGap ∧
      (nodeEnd = .found ↔ (job.reqNumNodes : ℤ) ≤ search.planNumNodes ∧
        LimitsAllow conf cluster limits job search.values run) ∧
      (nodeEnd = .found → RunAllowed conf cluster limits job search'.values run) := by
  unfold closeNode at h
  split at h
  · next hfull =>
      obtain ⟨⟨search₁, ok⟩, hcheck, h⟩ := bind_ok.mp h
      obtain ⟨values, hvalues, rfl, hok⟩ := checkConsideredGaps_spec hcheck
      obtain ⟨rfl, rfl⟩ := Prod.mk.inj (pure_ok.mp h)
      -- the considered gaps are those of the run, in some order
      have hallowed : RunAllowed conf cluster limits job values search.consideredGaps ↔
          RunAllowed conf cluster limits job values run := by
        unfold RunAllowed
        simp only [hrun]
      rw [hallowed] at hok
      have hfound : (if ok = true then NodeEnd.found else NodeEnd.nextNode) = NodeEnd.found ↔
          ok = true := by
        cases ok <;> simp
      refine ⟨⟨rfl, Or.inr hvalues⟩, rfl, rfl, rfl, ?_, ?_, ?_⟩
      · cases ok <;> simp
      · rw [hfound, hok]
        constructor
        · intro hrun
          exact ⟨hfull, values, hvalues, hrun⟩
        · rintro ⟨-, values', hvalues', hrun⟩
          rw [hvalues] at hvalues'
          cases hvalues'
          exact hrun
      · rw [hfound]
        exact hok.mp
  · next hopen =>
      obtain ⟨rfl, rfl⟩ := Prod.mk.inj (pure_ok.mp h)
      refine ⟨.refl _ _ _, rfl, rfl, rfl, by simp, ?_, by simp⟩
      simp [hopen]

/-! ## Following the gaps -/

/-- Without a run from here on, following the gaps comes to no end that counts. -/
theorem followGaps_noRun {ninfo : ℕ} {name : String} (hest : job.estimatedProcessing ≤ LONG_MAX)
    (behind : List PlanGap) :
    ∀ {previous : PlanGap} {duration max : ℤ} {search search' : GapSearch} {followed : Followed},
      0 ≤ duration → (∀ gap ∈ behind, 0 ≤ gap.duration) →
      extend PlanGap.duration Follows job.estimatedProcessing previous behind duration = none →
      followGaps conf cluster limits fixJob job ninfo name previous behind duration max search
        = .ok (search', followed) →
      SearchFrame conf cluster search search' ∧ ∃ gapOk total, followed = .ended gapOk total ∧
        (gapOk = true → total < job.estimatedProcessing) := by
  induction behind with
  | nil =>
      intro previous duration max search search' followed _ _ hnone h
      rw [extend] at hnone
      rw [followGaps] at h
      cases h
      refine ⟨.refl _ _ _, true, duration, rfl, ?_⟩
      intro _
      by_contra hlong
      rw [if_pos (not_lt.mp hlong)] at hnone
      cases hnone
  | cons next behind ih =>
      intro previous duration max search search' followed hnonneg hdurations hnone h
      have hnext := hdurations next List.mem_cons_self
      have hbehind : ∀ gap ∈ behind, 0 ≤ gap.duration :=
        fun gap hgap => hdurations gap (List.mem_cons_of_mem _ hgap)
      rw [extend] at hnone
      rw [followGaps] at h
      split at hnone
      · cases hnone
      · next hshort =>
          rw [if_neg hshort] at h
          split at hnone
          · next hjoins =>
              have hjoins' : ¬ next.startTime ≠ previous.endTime := not_not.mpr hjoins
              rw [if_neg hjoins'] at h
              split at h
              · cases h
                exact ⟨⟨rfl, Or.inl rfl⟩, false, duration, rfl, by simp⟩
              · dsimp only at h
                rw [Option.map_eq_none_iff] at hnone
                by_cases hopen : next.duration = LONG_MAX
                · -- a gap without end would have completed the run
                  rw [hopen, extend_of_le (by omega)] at hnone
                  cases hnone
                · rw [if_neg hopen] at h
                  have hmore : ¬ job.estimatedProcessing ≤ duration + next.duration := by
                    intro hlong
                    rw [extend_of_le hlong] at hnone
                    cases hnone
                  rw [if_neg hmore, if_neg (fun hfull => hmore hfull.1)] at h
                  obtain ⟨hframe, hended⟩ := ih (by omega) hbehind hnone h
                  exact ⟨⟨hframe.length_eq, hframe.values⟩, hended⟩
          · next hbreak =>
              have hbreak' : next.startTime ≠ previous.endTime := hbreak
              rw [if_pos hbreak'] at h
              cases h
              exact ⟨⟨rfl, Or.inl rfl⟩, false, duration, rfl, by simp⟩

/-- Following the gaps of a run with a node that has no room in one of them. -/
theorem followGaps_noRoom {ninfo : ℕ} {name : String} (hest : job.estimatedProcessing ≤ LONG_MAX)
    (behind : List PlanGap) :
    ∀ {previous : PlanGap} {duration max : ℤ} {tail : List PlanGap} {search search' : GapSearch}
      {followed : Followed}, 0 ≤ duration → (∀ gap ∈ behind, 0 ≤ gap.duration) →
      duration < job.estimatedProcessing →
      extend PlanGap.duration Follows job.estimatedProcessing previous behind duration
        = some tail →
      (∃ gap ∈ tail, chunksInGap job gap ninfo = 0) →
      followGaps conf cluster limits fixJob job ninfo name previous behind duration max search
        = .ok (search', followed) →
      SearchFrame conf cluster search search' ∧ (∃ total, followed = .ended false total) ∧
        search'.nextFollows = some true ∧ search'.planNumNodes = search.planNumNodes ∧
        search'.fixedNnameArr = search.fixedNnameArr ∧
        (∀ gap ∈ search'.consideredGaps, gap ∈ search.consideredGaps ∨ gap ∈ tail) := by
  induction behind with
  | nil =>
      intro previous duration max tail search search' followed _ _ hshort hsome hroom h
      rw [extend, if_neg (by omega)] at hsome
      cases hsome
  | cons next behind ih =>
      intro previous duration max tail search search' followed hnonneg hdurations hshort hsome
        hroom h
      have hnext := hdurations next List.mem_cons_self
      have hbehind : ∀ gap ∈ behind, 0 ≤ gap.duration :=
        fun gap hgap => hdurations gap (List.mem_cons_of_mem _ hgap)
      rw [extend, if_neg (by omega)] at hsome
      rw [followGaps, if_neg (by omega)] at h
      split at hsome
      · next hjoins =>
          have hjoins' : ¬ next.startTime ≠ previous.endTime := not_not.mpr hjoins
          rw [if_neg hjoins'] at h
          obtain ⟨rest, hrest, rfl⟩ := Option.map_eq_some_iff.mp hsome
          split at h
          · cases h
            exact ⟨⟨rfl, Or.inl rfl⟩, ⟨duration, rfl⟩, rfl, rfl, rfl, fun gap hgap => Or.inl hgap⟩
          · next hnextRoom =>
              -- the gap without room is one of those behind
              have hroom' : ∃ gap ∈ rest, chunksInGap job gap ninfo = 0 := by
                obtain ⟨gap, hgap, hzero⟩ := hroom
                rcases List.mem_cons.mp hgap with rfl | hgap
                · exact absurd hzero hnextRoom
                · exact ⟨gap, hgap, hzero⟩
              have hmore : ¬ job.estimatedProcessing ≤ duration + next.duration := by
                intro hlong
                rw [extend_of_le hlong] at hrest
                cases hrest
                obtain ⟨gap, hgap, -⟩ := hroom'
                cases hgap
              have hopen : next.duration ≠ LONG_MAX := by
                intro hopen
                omega
              dsimp only at h
              rw [if_neg hopen, if_neg hmore, if_neg (fun hfull => hmore hfull.1)] at h
              obtain ⟨hframe, hended, hfollows, hplan, hfixed, hconsidered⟩ :=
                ih (by omega) hbehind (by omega) hrest hroom' h
              refine ⟨⟨hframe.length_eq, hframe.values⟩, hended, hfollows, hplan, hfixed, ?_⟩
              intro gap hgap
              rcases hconsidered gap hgap with hgap | hgap
              · rcases List.mem_append.mp hgap with hgap | hgap
                · exact Or.inl hgap
                · rw [List.mem_singleton.mp hgap]
                  exact Or.inr List.mem_cons_self
              · exact Or.inr (List.mem_cons_of_mem _ hgap)
      · cases hsome

/-- Following the gaps of a run with a node that has room in all of them: the node is counted
at the end of the run. -/
theorem followGaps_room {ninfo : ℕ} {name : String} (hest : job.estimatedProcessing ≤ LONG_MAX)
    (behind : List PlanGap) :
    ∀ {previous : PlanGap} {duration max : ℤ} {tail : List PlanGap} {search search' : GapSearch}
      {followed : Followed}, 0 ≤ duration → (∀ gap ∈ behind, 0 ≤ gap.duration) →
      duration < job.estimatedProcessing →
      extend PlanGap.duration Follows job.estimatedProcessing previous behind duration
        = some tail →
      (∀ gap ∈ tail, chunksInGap job gap ninfo ≠ 0) →
      followGaps conf cluster limits fixJob job ninfo name previous behind duration max search
        = .ok (search', followed) →
      SearchFrame conf cluster search search' ∧ search'.nextFollows = some true ∧
        search'.planNumNodes = (search.countNode fixJob job name
          (tail.foldl (fun m gap => min m (chunksInGap job gap ninfo)) max)).planNumNodes ∧
        search'.fixedNnameArr = (search.countNode fixJob job name
          (tail.foldl (fun m gap => min m (chunksInGap job gap ninfo)) max)).fixedNnameArr ∧
        (∀ gap, gap ∈ search'.consideredGaps ↔ gap ∈ search.consideredGaps ∨ gap ∈ tail) ∧
        ((followed = .found ∧ (job.reqNumNodes : ℤ) ≤ search'.planNumNodes ∧
            updateLimitsValues conf cluster search.values = .ok search'.values ∧
            RunAllowed conf cluster limits job search'.values search'.consideredGaps) ∨
          ∃ total, followed = .ended true total ∧ job.estimatedProcessing ≤ total) := by
  induction behind with
  | nil =>
      intro previous duration max tail search search' followed _ _ hshort hsome _ h
      rw [extend, if_neg (by omega)] at hsome
      cases hsome
  | cons next behind ih =>
      intro previous duration max tail search search' followed hnonneg hdurations hshort hsome
        hroom h
      have hnext := hdurations next List.mem_cons_self
      have hbehind : ∀ gap ∈ behind, 0 ≤ gap.duration :=
        fun gap hgap => hdurations gap (List.mem_cons_of_mem _ hgap)
      rw [extend, if_neg (by omega)] at hsome
      rw [followGaps, if_neg (by omega)] at h
      split at hsome
      · next hjoins =>
          have hjoins' : ¬ next.startTime ≠ previous.endTime := not_not.mpr hjoins
          rw [if_neg hjoins'] at h
          obtain ⟨rest, hrest, rfl⟩ := Option.map_eq_some_iff.mp hsome
          rw [if_neg (hroom next List.mem_cons_self)] at h
          rw [List.foldl_cons]
          have hroom' : ∀ gap ∈ rest, chunksInGap job gap ninfo ≠ 0 :=
            fun gap hgap => hroom gap (List.mem_cons_of_mem _ hgap)
          generalize min max (chunksInGap job next ninfo) = max' at h ⊢
          dsimp only at h
          by_cases hlong : job.estimatedProcessing ≤ duration + next.duration
          · -- the run ends with this gap, and the node is counted
            rw [extend_of_le hlong] at hrest
            cases hrest
            have hlong' : job.estimatedProcessing ≤
                if next.duration = LONG_MAX then LONG_MAX else duration + next.duration := by
              split <;> omega
            generalize (if next.duration = LONG_MAX then LONG_MAX else duration + next.duration)
              = total at h hlong'
            rw [if_pos hlong'] at h
            rw [List.foldl_nil]
            have hframe := @frame_countNode conf cluster job fixJob
              { search with nextFollows := some true } name max'
            have hmem : ∀ gap, gap ∈ search.consideredGaps ++ [next] ↔
                gap ∈ search.consideredGaps ∨ gap ∈ [next] := fun gap => List.mem_append
            split at h
            · next hfull =>
                obtain ⟨⟨search₁, ok⟩, hcheck, h⟩ := bind_ok.mp h
                obtain ⟨values, hvalues, rfl, hok⟩ := checkConsideredGaps_spec hcheck
                obtain ⟨rfl, rfl⟩ := Prod.mk.inj (pure_ok.mp h)
                refine ⟨⟨hframe.length_eq, Or.inr hvalues⟩, rfl, rfl, rfl, hmem, ?_⟩
                cases ok with
                | false => exact Or.inr ⟨_, rfl, hlong'⟩
                | true => exact Or.inl ⟨rfl, hfull.2.ge, hvalues, hok.mp rfl⟩
            · rw [followGaps_long hlong'] at h
              obtain ⟨rfl, rfl⟩ := Prod.mk.inj (Except.ok.inj h)
              exact ⟨⟨hframe.length_eq, Or.inl rfl⟩, rfl, rfl, rfl, hmem, Or.inr ⟨_, rfl, hlong'⟩⟩
          · have hopen : next.duration ≠ LONG_MAX := by
              intro hopen
              omega
            rw [if_neg hopen, if_neg hlong, if_neg (fun hfull => hlong hfull.1)] at h
            obtain ⟨hframe, hfollows, hplan, hfixed, hconsidered, hended⟩ :=
              ih (by omega) hbehind (by omega) hrest hroom' h
            refine ⟨⟨hframe.length_eq, hframe.values⟩, hfollows, hplan, hfixed, ?_, hended⟩
            intro gap
            rw [hconsidered gap]
            show gap ∈ search.consideredGaps ++ [next] ∨ gap ∈ rest ↔ _
            rw [List.mem_append, List.mem_singleton, List.mem_cons, or_assoc]
      · cases hsome

/-! ## A node -/

/-- The run of a gap, if there is one. -/
theorem jobRun_iff {gap : PlanGap} {behind run : List PlanGap} :
    JobRun job (gap :: behind) run ↔ ∃ tail, run = gap :: tail ∧
      extend PlanGap.duration Follows job.estimatedProcessing gap behind gap.duration
        = some tail := by
  unfold JobRun
  rw [← shortestRun_iff, shortestRun, Option.map_eq_some_iff]
  constructor
  · rintro ⟨tail, htail, rfl⟩
    exact ⟨tail, rfl, htail⟩
  · rintro ⟨tail, rfl, htail⟩
    exact ⟨tail, htail, rfl⟩

variable {current : PlanGap} {behind : List PlanGap}

/-- Without a run no node completes the search. -/
theorem visitNode_noRun {ninfo : ℕ} {name : String} {nodeEnd : NodeEnd}
    (hest : job.estimatedProcessing ≤ LONG_MAX)
    (hdurations : ∀ gap ∈ current :: behind, 0 ≤ gap.duration)
    (hnone : extend PlanGap.duration Follows job.estimatedProcessing current behind
      current.duration = none)
    (h : visitNode conf cluster limits fixJob job current behind ninfo name search
      = .ok (search', nodeEnd)) :
    SearchFrame conf cluster search search' ∧ nodeEnd ≠ .found := by
  have hcurrent := hdurations current List.mem_cons_self
  have hbehind : ∀ gap ∈ behind, 0 ≤ gap.duration :=
    fun gap hgap => hdurations gap (List.mem_cons_of_mem _ hgap)
  have hshort : current.duration < job.estimatedProcessing := by
    by_contra hlong
    rw [extend_of_le (not_lt.mp hlong)] at hnone
    cases hnone
  unfold visitNode at h
  dsimp only at h
  rw [if_pos hshort] at h
  obtain ⟨⟨search₁, followed⟩, hfollow, h⟩ := bind_ok.mp h
  obtain ⟨hframe, gapOk, total, rfl, hopen⟩ :=
    followGaps_noRun hest behind hcurrent hbehind hnone hfollow
  obtain ⟨follows, -, h⟩ := bind_ok.mp h
  have hframe' : SearchFrame conf cluster search search₁ := ⟨hframe.length_eq, hframe.values⟩
  split at h
  · obtain ⟨rfl, rfl⟩ := Prod.mk.inj (pure_ok.mp h)
    exact ⟨hframe', by simp⟩
  · rw [if_neg (fun hlong => absurd (hopen hlong.1) (not_lt.mpr hlong.2))] at h
    obtain ⟨rfl, rfl⟩ := Prod.mk.inj (pure_ok.mp h)
    exact ⟨hframe', by simp⟩

/-- What the work on a node comes to, when there is a run: a node without room in one of the
following gaps is left, and any other is counted.  The search is over if that makes the plan
full and the limits allow the run. -/
structure NodeVisit (conf : LimitsForClusters) (cluster : PlanCluster) (limits : List PlanLimit)
    (fixJob : Bool) (job : PlanJob) (run : List PlanGap) (ninfo : ℕ) (name : String)
    (search search' : GapSearch) (nodeEnd : NodeEnd) : Prop where
  frame : SearchFrame conf cluster search search'
  considered : ∀ gap ∈ search'.consideredGaps, gap ∈ run
  stays : nodeEnd ≠ .nextGap
  left : runCount job run ninfo = none → nodeEnd = .nextNode ∧
    search'.planNumNodes = search.planNumNodes ∧
    search'.fixedNnameArr = search.fixedNnameArr
  counted : ∀ count, runCount job run ninfo = some count →
    search'.planNumNodes = (search.countNode fixJob job name count).planNumNodes ∧
    search'.fixedNnameArr = (search.countNode fixJob job name count).fixedNnameArr ∧
    (nodeEnd = .found ↔ (job.reqNumNodes : ℤ) ≤ search'.planNumNodes ∧
      LimitsAllow conf cluster limits job search.values run) ∧
    (nodeEnd = .found → RunAllowed conf cluster limits job search'.values run)

/-- A node without room in a gap behind the first one is left. -/
theorem visitNode_left {ninfo : ℕ} {name : String} {nodeEnd : NodeEnd} {tail : List PlanGap}
    (hest : job.estimatedProcessing ≤ LONG_MAX)
    (hdurations : ∀ gap ∈ current :: behind, 0 ≤ gap.duration)
    (hrun : extend PlanGap.duration Follows job.estimatedProcessing current behind
      current.duration = some tail)
    (hconsidered : ∀ gap ∈ search.consideredGaps, gap ∈ current :: tail)
    (hshort : current.duration < job.estimatedProcessing)
    (hroom : ∃ gap ∈ tail, chunksInGap job gap ninfo = 0)
    (h : visitNode conf cluster limits fixJob job current behind ninfo name search
      = .ok (search', nodeEnd)) :
    NodeVisit conf cluster limits fixJob job (current :: tail) ninfo name search search'
      nodeEnd := by
  unfold visitNode at h
  dsimp only at h
  rw [if_pos hshort] at h
  obtain ⟨⟨search₁, followed⟩, hfollow, h⟩ := bind_ok.mp h
  obtain ⟨hframe, ⟨total, rfl⟩, hfollows, hplan, hfixed, hconsidered₁⟩ :=
    followGaps_noRoom hest behind (hdurations current List.mem_cons_self)
      (fun gap hgap => hdurations gap (List.mem_cons_of_mem _ hgap)) hshort hrun hroom hfollow
  dsimp only at h
  rw [hfollows] at h
  obtain ⟨rfl, rfl⟩ := Prod.mk.inj (pure_ok.mp h)
  refine ⟨⟨hframe.length_eq, hframe.values⟩, ?_, by simp, fun _ => ⟨rfl, hplan, hfixed⟩, ?_⟩
  · intro gap hgap
    rcases hconsidered₁ gap hgap with hgap | hgap
    · rcases List.mem_append.mp hgap with hgap | hgap
      · exact hconsidered gap hgap
      · rw [List.mem_singleton.mp hgap]
        exact List.mem_cons_self
    · exact List.mem_cons_of_mem _ hgap
  · intro count hcount
    rw [runCount_of_noRoom hroom] at hcount
    cases hcount

/-- A node with room in the whole run is counted at its end. -/
theorem visitNode_fits {ninfo : ℕ} {name : String} {nodeEnd : NodeEnd} {tail : List PlanGap}
    (hest : job.estimatedProcessing ≤ LONG_MAX)
    (hdurations : ∀ gap ∈ current :: behind, 0 ≤ gap.duration)
    (hrun : extend PlanGap.duration Follows job.estimatedProcessing current behind
      current.duration = some tail)
    (hconsidered : ∀ gap ∈ search.consideredGaps, gap ∈ current :: tail)
    (hshort : current.duration < job.estimatedProcessing)
    (hroom : ∀ gap ∈ tail, chunksInGap job gap ninfo ≠ 0)
    (h : visitNode conf cluster limits fixJob job current behind ninfo name search
      = .ok (search', nodeEnd)) :
    NodeVisit conf cluster limits fixJob job (current :: tail) ninfo name search search'
      nodeEnd := by
  unfold visitNode at h
  dsimp only at h
  rw [if_pos hshort] at h
  obtain ⟨⟨search₁, followed⟩, hfollow, h⟩ := bind_ok.mp h
  obtain ⟨hframe, hfollows, hplan, hfixed, hconsidered₁, hended⟩ :=
    followGaps_room hest behind (hdurations current List.mem_cons_self)
      (fun gap hgap => hdurations gap (List.mem_cons_of_mem _ hgap)) hshort hrun hroom hfollow
  rw [foldl_min_chunks] at hplan hfixed
  have hall : ∀ gap, gap ∈ search₁.consideredGaps ↔ gap ∈ current :: tail := by
    intro gap
    rw [hconsidered₁ gap]
    show gap ∈ search.consideredGaps ++ [current] ∨ gap ∈ tail ↔ _
    rw [List.mem_append, List.mem_singleton, List.mem_cons]
    constructor
    · rintro ((hgap | hgap) | hgap)
      · exact List.mem_cons.mp (hconsidered gap hgap)
      · exact Or.inl hgap
      · exact Or.inr hgap
    · rintro (hgap | hgap)
      · exact Or.inl (Or.inr hgap)
      · exact Or.inr hgap
  have hframe' : SearchFrame conf cluster search search₁ := ⟨hframe.length_eq, hframe.values⟩
  have hnone : ¬ runCount job (current :: tail) ninfo = none := by
    rw [runCount_of_room hroom]
    simp
  rcases hended with ⟨rfl, hfull, hvalues, hallowed⟩ | ⟨total, rfl, hlong⟩
  · -- the plan was full and allowed before the run ended
    obtain ⟨rfl, rfl⟩ := Prod.mk.inj (pure_ok.mp h)
    have hrunAllowed : RunAllowed conf cluster limits job search₁.values (current :: tail) :=
      fun gap hgap => hallowed gap ((hall gap).mpr hgap)
    refine ⟨hframe', fun gap hgap => (hall gap).mp hgap, by simp, fun h => absurd h hnone, ?_⟩
    intro count hcount
    rw [runCount_of_room hroom] at hcount
    cases hcount
    refine ⟨hplan, hfixed, ?_, fun _ => hrunAllowed⟩
    exact iff_of_true rfl ⟨hfull, search₁.values, hvalues, hrunAllowed⟩
  · -- the last test of the node decides
    dsimp only at h
    rw [hfollows] at h
    have h' : closeNode conf cluster limits job search₁ = .ok (search', nodeEnd) := by
      simpa [deref, hlong, bind, Except.bind] using h
    obtain ⟨hframe₂, hconsidered₂, hplan₂, hfixed₂, hstay, hfound, hallowed⟩ :=
      closeNode_spec hall h'
    refine ⟨hframe'.trans hframe₂, ?_, hstay, fun h => absurd h hnone, ?_⟩
    · intro gap hgap
      rw [hconsidered₂] at hgap
      exact (hall gap).mp hgap
    · intro count hcount
      rw [runCount_of_room hroom] at hcount
      cases hcount
      refine ⟨hplan₂.trans hplan, hfixed₂.trans hfixed, ?_, hallowed⟩
      rw [hfound, hplan₂, hframe'.limitsAllow_iff]

/-- A gap that is long enough by itself is the whole run. -/
theorem visitNode_long {ninfo : ℕ} {name : String} {nodeEnd : NodeEnd}
    (hconsidered : ∀ gap ∈ search.consideredGaps, gap ∈ [current])
    (hlong : job.estimatedProcessing ≤ current.duration)
    (h : visitNode conf cluster limits fixJob job current behind ninfo name search
      = .ok (search', nodeEnd)) :
    NodeVisit conf cluster limits fixJob job [current] ninfo name search search' nodeEnd := by
  have hsome : runCount job [current] ninfo
      = some (clipChunks job (leastChunks job [current] ninfo)) := runCount_of_room (by simp)
  unfold visitNode at h
  dsimp only at h
  rw [if_neg (not_lt.mpr hlong)] at h
  -- without a gap that follows, the least count is that of the gap itself
  rw [← List.foldl_nil (f := fun m next => min m (chunksInGap job next ninfo))
    (b := chunksInGap job current ninfo), foldl_min_chunks] at h
  have hframe := @frame_countNode conf cluster job fixJob (search.consider current) name
    (clipChunks job (leastChunks job [current] ninfo))
  have hall : ∀ gap, gap ∈ ((search.consider current).countNode fixJob job name
      (clipChunks job (leastChunks job [current] ninfo))).consideredGaps ↔ gap ∈ [current] := by
    intro gap
    show gap ∈ search.consideredGaps ++ [current] ↔ _
    rw [List.mem_append]
    exact ⟨fun h => h.elim (hconsidered gap) id, Or.inr⟩
  obtain ⟨hframe₂, hconsidered₂, hplan₂, hfixed₂, hstay, hfound, hallowed⟩ :=
    closeNode_spec hall h
  have hframe' : SearchFrame conf cluster search ((search.consider current).countNode fixJob job
      name (clipChunks job (leastChunks job [current] ninfo))) :=
    ⟨hframe.length_eq, hframe.values⟩
  refine ⟨hframe'.trans hframe₂, ?_, hstay, ?_, ?_⟩
  · intro gap hgap
    rw [hconsidered₂] at hgap
    exact (hall gap).mp hgap
  · intro hnone
    rw [hsome] at hnone
    cases hnone
  · intro count hcount
    rw [hsome] at hcount
    cases hcount
    refine ⟨hplan₂, hfixed₂, ?_, hallowed⟩
    rw [hfound, hplan₂]
    rfl

/-- The work on a node, when there is a run. -/
theorem visitNode_run {ninfo : ℕ} {name : String} {nodeEnd : NodeEnd} {tail : List PlanGap}
    (hest : job.estimatedProcessing ≤ LONG_MAX)
    (hdurations : ∀ gap ∈ current :: behind, 0 ≤ gap.duration)
    (hrun : extend PlanGap.duration Follows job.estimatedProcessing current behind
      current.duration = some tail)
    (hconsidered : ∀ gap ∈ search.consideredGaps, gap ∈ current :: tail)
    (h : visitNode conf cluster limits fixJob job current behind ninfo name search
      = .ok (search', nodeEnd)) :
    NodeVisit conf cluster limits fixJob job (current :: tail) ninfo name search search'
      nodeEnd := by
  by_cases hshort : current.duration < job.estimatedProcessing
  · by_cases hroom : ∃ gap ∈ tail, chunksInGap job gap ninfo = 0
    · exact visitNode_left hest hdurations hrun hconsidered hshort hroom h
    · push Not at hroom
      exact visitNode_fits hest hdurations hrun hconsidered hshort hroom h
  · rw [extend_of_le (not_lt.mp hshort)] at hrun
    cases hrun
    exact visitNode_long hconsidered (not_lt.mp hshort) h

/-! ## The nodes of a gap -/

/-- The tests of the node of an entry, as the search makes them. -/
theorem nodePasses_eq {m : PlanGapMem} {node : NodeInfo}
    (hnode : cluster.nodes[m.ninfo]? = some node) :
    nodePasses cluster job current m = !(nodeRefused job current m node || lacksGpu job node) := by
  unfold nodePasses
  rw [hnode]

/-- Without a run the gap is passed over. -/
theorem searchNodes_noRun (hest : job.estimatedProcessing ≤ LONG_MAX)
    (hdurations : ∀ gap ∈ current :: behind, 0 ≤ gap.duration)
    (hnone : extend PlanGap.duration Follows job.estimatedProcessing current behind
      current.duration = none) (rest : List PlanGapMem) :
    ∀ {search search' : GapSearch} {found : Bool},
      searchNodes conf cluster limits fixJob job current behind rest search = .ok (search', found) →
      SearchFrame conf cluster search search' ∧ found = false := by
  induction rest with
  | nil =>
      intro search search' found h
      rw [searchNodes] at h
      cases h
      exact ⟨.refl _ _ _, rfl⟩
  | cons m rest ih =>
      intro search search' found h
      rw [searchNodes] at h
      obtain ⟨node, -, h⟩ := bind_ok.mp h
      split at h
      · exact ih h
      · obtain ⟨⟨search₁, nodeEnd⟩, hvisit, h⟩ := bind_ok.mp h
        obtain ⟨hframe, hnotFound⟩ := visitNode_noRun hest hdurations hnone hvisit
        cases nodeEnd with
        | found => exact absurd rfl hnotFound
        | nextNode =>
            obtain ⟨hframe', hfound⟩ := ih h
            exact ⟨hframe.trans hframe', hfound⟩
        | nextGap =>
            obtain ⟨rfl, rfl⟩ := Prod.mk.inj (pure_ok.mp h)
            exact ⟨hframe, rfl⟩

/-- With a run the gap is found exactly if the limits allow the run and the counts reach the
number of nodes. -/
theorem searchNodes_run {tail : List PlanGap} (hest : job.estimatedProcessing ≤ LONG_MAX)
    (hdurations : ∀ gap ∈ current :: behind, 0 ≤ gap.duration)
    (hrun : extend PlanGap.duration Follows job.estimatedProcessing current behind
      current.duration = some tail) (rest : List PlanGapMem) :
    ∀ {search search' : GapSearch} {found : Bool},
      (∀ gap ∈ search.consideredGaps, gap ∈ current :: tail) →
      searchNodes conf cluster limits fixJob job current behind rest search = .ok (search', found) →
      SearchFrame conf cluster search search' ∧
        (found = true ↔ LimitsAllow conf cluster limits job search.values (current :: tail) ∧
          reaches job.reqNumNodes search.planNumNodes
            (signedCounts cluster job current (current :: tail) rest) = true) ∧
        (found = true → RunAllowed conf cluster limits job search'.values (current :: tail)) := by
  induction rest with
  | nil =>
      intro search search' found _ h
      rw [searchNodes] at h
      cases h
      refine ⟨.refl _ _ _, ?_, by simp⟩
      simp [signedCounts, reaches]
  | cons m rest ih =>
      intro search search' found hconsidered h
      rw [searchNodes] at h
      obtain ⟨node, hnode, h⟩ := bind_ok.mp h
      have hpasses := @nodePasses_eq cluster job current m node (getAt_ok.mp hnode)
      split at h
      · next hrefused =>
          rw [hrefused, Bool.not_true] at hpasses
          have hcounts : signedCounts cluster job current (current :: tail) (m :: rest)
              = signedCounts cluster job current (current :: tail) rest := by
            unfold signedCounts
            rw [List.filterMap_cons_none (by rw [hpasses]; rfl)]
          rw [hcounts]
          exact ih hconsidered h
      · next haccepted =>
          rw [Bool.not_eq_true] at haccepted
          rw [haccepted, Bool.not_false] at hpasses
          obtain ⟨⟨search₁, nodeEnd⟩, hvisit, h⟩ := bind_ok.mp h
          obtain ⟨hframe, hconsidered₁, hstay, hleft, hcounted⟩ :=
            visitNode_run hest hdurations hrun hconsidered hvisit
          have hallow : LimitsAllow conf cluster limits job search₁.values (current :: tail) ↔
              LimitsAllow conf cluster limits job search.values (current :: tail) :=
            hframe.limitsAllow_iff _
          -- a node without room in one of the gaps of the run is left out on both sides
          cases hcount : runCount job (current :: tail) m.ninfo with
          | none =>
              obtain ⟨rfl, hplan, -⟩ := hleft hcount
              have hcounts : signedCounts cluster job current (current :: tail) (m :: rest)
                  = signedCounts cluster job current (current :: tail) rest := by
                unfold signedCounts
                rw [List.filterMap_cons_none (by rw [hpasses, hcount]; rfl)]
              obtain ⟨hframe', hfound, hallowed⟩ := ih hconsidered₁ h
              rw [hallow, hplan] at hfound
              rw [hcounts]
              exact ⟨hframe.trans hframe', hfound, hallowed⟩
          | some count =>
              have hcounts : signedCounts cluster job current (current :: tail) (m :: rest)
                  = count :: signedCounts cluster job current (current :: tail) rest := by
                unfold signedCounts
                rw [List.filterMap_cons_some (by rw [hpasses, hcount]; rfl)]
              obtain ⟨hplan, -, hfoundNode, hallowedNode⟩ := hcounted count hcount
              have hplan' : search₁.planNumNodes
                  = min (search.planNumNodes + count) job.reqNumNodes := hplan
              have hreach : (job.reqNumNodes : ℤ) ≤ search₁.planNumNodes ↔
                  (job.reqNumNodes : ℤ) ≤ search.planNumNodes + count := by
                rw [hplan', le_min_iff, and_iff_left le_rfl]
              rw [hcounts, reaches, Bool.or_eq_true, decide_eq_true_eq, ← hplan']
              rw [hreach] at hfoundNode
              -- the sum is capped at the number of nodes, and so reaches it at the same node
              cases nodeEnd with
              | found =>
                  obtain ⟨rfl, rfl⟩ := Prod.mk.inj (pure_ok.mp h)
                  obtain ⟨hreached, hallowed⟩ := hfoundNode.mp rfl
                  exact ⟨hframe, iff_of_true rfl ⟨hallowed, Or.inl hreached⟩,
                    fun _ => hallowedNode rfl⟩
              | nextNode =>
                  obtain ⟨hframe', hfound, hallowed⟩ := ih hconsidered₁ h
                  refine ⟨hframe.trans hframe', ?_, hallowed⟩
                  rw [hfound, hallow]
                  constructor
                  · rintro ⟨hallowed, hrest⟩
                    exact ⟨hallowed, Or.inr hrest⟩
                  · rintro ⟨hallowed, hreached | hrest⟩
                    · exact absurd (hfoundNode.mpr ⟨hreached, hallowed⟩) (by simp)
                    · exact ⟨hallowed, hrest⟩
              | nextGap => exact absurd rfl hstay

/-! ## The gaps of the plan -/

/-- The search accepts the gap, with the gaps `behind` it. -/
def Accepted (conf : LimitsForClusters) (cluster : PlanCluster) (limits : List PlanLimit)
    (job : PlanJob) (values : LimitsValues) (gap : PlanGap) (behind : List PlanGap) : Prop :=
  (job.usage : ℤ) ≤ gap.usage ∧ ∃ run, JobRun job (gap :: behind) run ∧
    LimitsAllow conf cluster limits job values run ∧
    reaches job.reqNumNodes 0 (signedCounts cluster job gap run gap.nodesMemory) = true

/-- The search of one gap finds it exactly if it is accepted. -/
theorem searchNodes_iff {found : Bool} (hest : job.estimatedProcessing ≤ LONG_MAX)
    (hdurations : ∀ gap ∈ current :: behind, 0 ≤ gap.duration)
    (husage : (job.usage : ℤ) ≤ current.usage)
    (h : searchNodes conf cluster limits fixJob job current behind current.nodesMemory search.reset
      = .ok (search', found)) :
    SearchFrame conf cluster search search' ∧
      (found = true ↔ Accepted conf cluster limits job search.values current behind) ∧
      (found = true → ∀ run, JobRun job (current :: behind) run →
        RunAllowed conf cluster limits job search'.values run) := by
  have hreset : SearchFrame conf cluster search search.reset := ⟨List.length_map _, Or.inl rfl⟩
  unfold Accepted
  cases hextend : extend PlanGap.duration Follows job.estimatedProcessing current behind
      current.duration with
  | none =>
      have hnoRun : ∀ run, ¬ JobRun job (current :: behind) run := by
        intro run hrun
        obtain ⟨tail, -, htail⟩ := jobRun_iff.mp hrun
        rw [hextend] at htail
        cases htail
      obtain ⟨hframe, rfl⟩ := searchNodes_noRun hest hdurations hextend _ h
      refine ⟨hreset.trans hframe, ?_, by simp⟩
      refine iff_of_false (by simp) ?_
      rintro ⟨-, run, hrun, -⟩
      exact hnoRun run hrun
  | some tail =>
      -- from one gap there is at most one run of the job
      have honly : ∀ run, JobRun job (current :: behind) run ↔ run = current :: tail := by
        intro run
        rw [jobRun_iff]
        constructor
        · rintro ⟨tail', rfl, htail'⟩
          rw [hextend] at htail'
          rw [Option.some.inj htail']
        · rintro rfl
          exact ⟨tail, rfl, hextend⟩
      obtain ⟨hframe, hfound, hallowed⟩ := searchNodes_run hest hdurations hextend _
        (by intro gap hgap; cases hgap) h
      refine ⟨hreset.trans hframe, ?_, ?_⟩
      · rw [hfound]
        constructor
        · rintro ⟨hallow, hreach⟩
          exact ⟨husage, _, (honly _).mpr rfl, hallow, hreach⟩
        · rintro ⟨-, run, hrun, hallow, hreach⟩
          rw [(honly run).mp hrun] at hallow hreach
          exact ⟨hallow, hreach⟩
      · intro hfound run hrun
        rw [(honly run).mp hrun]
        exact hallowed hfound

/-- The loop over the gaps returns the first gap that is accepted. -/
theorem searchGaps_first (hest : job.estimatedProcessing ≤ LONG_MAX) (gaps : List PlanGap) :
    ∀ {search search' : GapSearch} {found : Option PlanGap},
      (∀ gap ∈ gaps, 0 ≤ gap.duration) →
      searchGaps conf cluster limits fixJob job gaps search = .ok (search', found) →
      SearchFrame conf cluster search search' ∧
        FirstHit (Accepted conf cluster limits job search.values) gaps found := by
  induction gaps with
  | nil =>
      intro search search' found _ h
      rw [searchGaps] at h
      cases h
      exact ⟨.refl _ _ _, firstHit_nil⟩
  | cons gap behind ih =>
      intro search search' found hdurations h
      have hbehind : ∀ gap ∈ behind, 0 ≤ gap.duration :=
        fun gap hgap => hdurations gap (List.mem_cons_of_mem _ hgap)
      rw [searchGaps] at h
      split at h
      · next husage =>
          obtain ⟨hframe, hfirst⟩ := ih hbehind h
          exact ⟨hframe, firstHit_later (fun haccepted => absurd haccepted.1 (by omega)) hfirst⟩
      · next husage =>
          obtain ⟨⟨search₁, foundHere⟩, hnodes, h⟩ := bind_ok.mp h
          obtain ⟨hframe, hiff, -⟩ := searchNodes_iff hest hdurations (not_lt.mp husage) hnodes
          dsimp only at h
          cases foundHere with
          | true =>
              obtain ⟨rfl, rfl⟩ := Prod.mk.inj (pure_ok.mp h)
              exact ⟨hframe, firstHit_here (hiff.mp rfl)⟩
          | false =>
              obtain ⟨hframe', hfirst⟩ := ih hbehind h
              have hsame : Accepted conf cluster limits job search₁.values
                  = Accepted conf cluster limits job search.values := by
                funext gap' behind'
                unfold Accepted
                simp only [hframe.limitsAllow_iff]
              rw [hsame] at hfirst
              refine ⟨hframe.trans hframe', firstHit_later ?_ hfirst⟩
              intro haccepted
              exact absurd (hiff.mpr haccepted) (by simp)

/-- The gap that is returned was searched last, and found. -/
theorem searchGaps_found (hest : job.estimatedProcessing ≤ LONG_MAX) (gaps : List PlanGap) :
    ∀ {search search' : GapSearch} {gap : PlanGap}, (∀ gap ∈ gaps, 0 ≤ gap.duration) →
      searchGaps conf cluster limits fixJob job gaps search = .ok (search', some gap) →
      ∃ behind search₀, gap :: behind <:+ gaps ∧ (job.usage : ℤ) ≤ gap.usage ∧
        SearchFrame conf cluster search search₀ ∧
        searchNodes conf cluster limits fixJob job gap behind gap.nodesMemory search₀.reset
          = .ok (search', true) := by
  induction gaps with
  | nil =>
      intro search search' gap _ h
      rw [searchGaps] at h
      cases h
  | cons first behind ih =>
      intro search search' gap hdurations h
      have hbehind : ∀ gap ∈ behind, 0 ≤ gap.duration :=
        fun gap hgap => hdurations gap (List.mem_cons_of_mem _ hgap)
      rw [searchGaps] at h
      split at h
      · obtain ⟨rest, search₀, hsuffix, hfound⟩ := ih hbehind h
        exact ⟨rest, search₀, hsuffix.trans (List.suffix_cons _ _), hfound⟩
      · next husage =>
          obtain ⟨⟨search₁, foundHere⟩, hnodes, h⟩ := bind_ok.mp h
          dsimp only at h
          cases foundHere with
          | true =>
              obtain ⟨rfl, hgap⟩ := Prod.mk.inj (pure_ok.mp h)
              cases hgap
              exact ⟨behind, search, List.suffix_rfl, not_lt.mp husage, .refl _ _ _, hnodes⟩
          | false =>
              obtain ⟨hframe, -⟩ := searchNodes_iff hest hdurations (not_lt.mp husage) hnodes
              obtain ⟨rest, search₀, hsuffix, husage₀, hframe₀, hfound⟩ := ih hbehind h
              exact ⟨rest, search₀, hsuffix.trans (List.suffix_cons _ _), husage₀,
                hframe.trans hframe₀, hfound⟩

end Search

/-! ## The search does not depend on `fix_job` -/

/-- The state of the search without the names the job is fixed to. -/
def GapSearch.erase (search : GapSearch) : GapSearch := { search with fixedNnameArr := [] }

section Erase

variable {conf : LimitsForClusters} {cluster : PlanCluster} {limits : List PlanLimit}
  {job : PlanJob} {fixJob : Bool}

/-- The check of the limits. -/
theorem erase_checkConsideredGaps (search : GapSearch) :
    (checkConsideredGaps conf cluster limits job search).map (Prod.map GapSearch.erase id)
      = checkConsideredGaps conf cluster limits job search.erase := by
  unfold checkConsideredGaps
  refine map_bind_congr (e := id) (by rw [Except.map_id]; rfl) (fun values => ?_)
  refine map_bind_congr (e := id) (by rw [Except.map_id]; rfl) (fun ok => rfl)

/-- Following the gaps. -/
theorem erase_followGaps {ninfo : ℕ} {name : String} (behind : List PlanGap) :
    ∀ {previous : PlanGap} {duration max : ℤ} (search : GapSearch),
      (followGaps conf cluster limits fixJob job ninfo name previous behind duration max search).map
          (Prod.map GapSearch.erase id)
        = followGaps conf cluster limits false job ninfo name previous behind duration max
            search.erase := by
  induction behind with
  | nil =>
      intro previous duration max search
      rfl
  | cons next behind ih =>
      intro previous duration max search
      rw [followGaps, followGaps]
      split
      · rfl
      split
      · rfl
      split
      · rfl
      dsimp only
      generalize (if next.duration = LONG_MAX then LONG_MAX else duration + next.duration) = total
      by_cases hlong : job.estimatedProcessing ≤ total
      · rw [if_pos hlong, if_pos hlong]
        -- the plan is the same, so the same branch is taken
        have herase : (({ search.erase with nextFollows := some true } : GapSearch).countNode false
            job name (min max (chunksInGap job next ninfo))).consider next
            = ((({ search with nextFollows := some true } : GapSearch).countNode fixJob job name
              (min max (chunksInGap job next ninfo))).consider next).erase := rfl
        rw [herase]
        generalize (({ search with nextFollows := some true } : GapSearch).countNode fixJob job name
          (min max (chunksInGap job next ninfo))).consider next = counted
        by_cases hfull : counted.planNumNodes = job.reqNumNodes
        · rw [if_pos ⟨hlong, hfull⟩]
          have hfull' : counted.erase.planNumNodes = job.reqNumNodes := hfull
          rw [if_pos ⟨hlong, hfull'⟩]
          refine map_bind_congr (erase_checkConsideredGaps _) ?_
          rintro ⟨search', ok⟩
          rfl
        · rw [if_neg (fun hboth => hfull hboth.2)]
          have hfull' : ¬ counted.erase.planNumNodes = job.reqNumNodes := hfull
          rw [if_neg (fun hboth => hfull' hboth.2)]
          exact ih _
      · rw [if_neg hlong, if_neg hlong, if_neg (fun hfull => hlong hfull.1),
          if_neg (fun hfull => hlong hfull.1)]
        exact ih _

/-- The last test. -/
theorem erase_closeNode (search : GapSearch) :
    (closeNode conf cluster limits job search).map (Prod.map GapSearch.erase id)
      = closeNode conf cluster limits job search.erase := by
  unfold closeNode
  show Except.map _ (if _ ≤ search.planNumNodes then _ else _)
    = if _ ≤ search.planNumNodes then _ else _
  split
  · refine map_bind_congr (erase_checkConsideredGaps _) ?_
    rintro ⟨search', ok⟩
    rfl
  · rfl

/-- The work on a node. -/
theorem erase_visitNode {current : PlanGap} {behind : List PlanGap} {ninfo : ℕ} {name : String}
    (search : GapSearch) :
    (visitNode conf cluster limits fixJob job current behind ninfo name search).map
        (Prod.map GapSearch.erase id)
      = visitNode conf cluster limits false job current behind ninfo name search.erase := by
  unfold visitNode
  dsimp only
  split
  · refine map_bind_congr (erase_followGaps behind _) ?_
    rintro ⟨search', followed⟩
    cases followed with
    | found => rfl
    | ended gapOk duration =>
        refine map_bind_congr (e := id) (by rw [Except.map_id]; rfl) (fun follows => ?_)
        dsimp only [id]
        split
        · rfl
        split
        · exact erase_closeNode _
        · rfl
  · exact erase_closeNode _

/-- The nodes of a gap. -/
theorem erase_searchNodes {current : PlanGap} {behind : List PlanGap} (rest : List PlanGapMem) :
    ∀ search : GapSearch,
      (searchNodes conf cluster limits fixJob job current behind rest search).map
          (Prod.map GapSearch.erase id)
        = searchNodes conf cluster limits false job current behind rest search.erase := by
  induction rest with
  | nil =>
      intro search
      rfl
  | cons m rest ih =>
      intro search
      rw [searchNodes, searchNodes]
      refine map_bind_congr (e := id) (by rw [Except.map_id]; rfl) (fun node => ?_)
      dsimp only [id]
      split
      · exact ih search
      · refine map_bind_congr (erase_visitNode search) ?_
        rintro ⟨search', nodeEnd⟩
        cases nodeEnd with
        | found => rfl
        | nextNode => exact ih search'
        | nextGap => rfl

/-- The gaps of the plan. -/
theorem erase_searchGaps (gaps : List PlanGap) : ∀ search : GapSearch,
    (searchGaps conf cluster limits fixJob job gaps search).map (Prod.map GapSearch.erase id)
      = searchGaps conf cluster limits false job gaps search.erase := by
  induction gaps with
  | nil =>
      intro search
      rfl
  | cons gap behind ih =>
      intro search
      rw [searchGaps, searchGaps]
      split
      · exact ih search
      · refine map_bind_congr (erase_searchNodes _ search.reset) ?_
        rintro ⟨search', found⟩
        cases found with
        | true => rfl
        | false => exact ih search'

/-- The gap that is returned and the limit values are the same with and without `fix_job`. -/
theorem findFirstGap_fixJob {values : LimitsValues} {plan : ClusterPlan} (fixJob : Bool) :
    (findFirstGap conf values plan job fixJob).map (fun result => (result.1, result.2.2))
      = (findFirstGap conf values plan job false).map (fun result => (result.1, result.2.2)) := by
  have hrun : ∀ fixJob, (findFirstGap conf values plan job fixJob).map
      (fun result => (result.1, result.2.2))
      = (searchGaps conf plan.cluster plan.limits false job plan.gaps ⟨[], 0, [], none, values⟩).map
        (fun result => (result.2, result.1.values)) := by
    intro fixJob
    have herase := @erase_searchGaps conf plan.cluster plan.limits job fixJob plan.gaps
      ⟨job.fixedNnameArr, 0, [], none, values⟩
    have hstart : GapSearch.erase ⟨job.fixedNnameArr, 0, [], none, values⟩
        = ⟨[], 0, [], none, values⟩ := rfl
    rw [← hstart, ← herase]
    unfold findFirstGap
    cases searchGaps conf plan.cluster plan.limits fixJob job plan.gaps
      ⟨job.fixedNnameArr, 0, [], none, values⟩ with
    | error fault => rfl
    | ok result => rfl
  rw [hrun, hrun]

end Erase

end PlanSched
