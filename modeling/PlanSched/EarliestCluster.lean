/-
# The cluster of a new job

Models the search of `try_to_schedule_new_jobs` (`plan_jobs.cpp`) over all clusters: the
suitable clusters are searched for a first gap, the earliest one is kept, and the cluster
it is on is searched once more to fix the job to nodes.  The start of the gap found then
is read without a test.

Between the two searches of a cluster those of the others overwrite the limit values and
the fixed nodes of the job.  Where every cluster has limit classes neither matters:
`findFirstGap_values` shows that the values are brought up to date before they are read.

* `findEarliestGap_earliest`: the job gets the earliest gap, on the first cluster that
  has one so early; the second search of that cluster finds the gap again.
-/
import PlanSched.ClusterSuitable
import PlanSched.GapChoice
import PlanSched.LeastIndex
import PlanSched.RunPairs

namespace PlanSched

open CheckedRun LeastIndex RunPairs

/-! ## The search over the clusters -/

/-- What `check_cluster_suitable` reads besides the plan: the context, the properties of
the clusters, and of a job its queue, its nodespec and its placement. -/
structure SuitableInput where
  context : SuitableContext
  clusterProperties : ℕ → Finset String
  queue : JobInfo → QueueRules
  nodespec : JobInfo → String
  placement : JobInfo → String

/-- The request of a job of the plan. -/
def SuitableInput.request (input : SuitableInput) (job : PlanJob) : ClusterRequest where
  queue := input.queue job.jinfo
  nodespec := input.nodespec job.jinfo
  placement := input.placement job.jinfo
  reqScratchLocal := job.reqScratchLocal
  reqNumNodes := job.reqNumNodes
  reqPpn := job.reqPpn
  reqGpu := job.reqGpu
  reqPpn_pos := job.reqPpn_pos

/-- `check_cluster_suitable` returns 0. -/
def SuitableInput.isSuitable (input : SuitableInput) (k : ℕ) (plan : ClusterPlan)
    (job : PlanJob) : Run Bool := do
  let code ← checkClusterSuitable input.context ⟨input.clusterProperties k, plan.cluster.nodes⟩
    (input.request job)
  return code == 0

/-- The job and the limit values as the searches leave them, and `found_earliest_gap`
with `cl_min`. -/
structure ClusterSearch where
  job : PlanJob
  values : LimitsValues
  earliest : Option (ℕ × PlanGap)

/-- A gap is taken if it is the first one, or if it starts earlier. -/
def takeEarlier (k : ℕ) (gap : PlanGap) : Option (ℕ × PlanGap) → Option (ℕ × PlanGap)
  | none => some (k, gap)
  | some (k', earliest) =>
      if gap.startTime < earliest.startTime then some (k, gap) else some (k', earliest)

/-- One pass of the loop over the clusters. -/
def searchCluster (conf : LimitsForClusters) (input : SuitableInput) (clusters : List ClusterPlan)
    (search : ClusterSearch) (k : ℕ) : Run ClusterSearch := do
  let plan ← getAt clusters k
  if ← input.isSuitable k plan search.job then
    let (found, job, values) ← findFirstGap conf search.values plan search.job false
    return {
      job := job
      values := values
      earliest :=
        match found with
        | none => search.earliest
        | some gap => takeEarlier k gap search.earliest }
  else return search

/-- The loop over the clusters. -/
def searchClusters (conf : LimitsForClusters) (input : SuitableInput) (schedule : Schedule)
    (job : PlanJob) : Run ClusterSearch :=
  (List.range schedule.clusters.length).foldlM
    (searchCluster conf input schedule.clusters) ⟨job, schedule.values, none⟩

/-- The search for the gap of a new job: the limit values it leaves, and the gap of the
second search of the cluster, whose start is read. -/
def findEarliestGap (conf : LimitsForClusters) (input : SuitableInput) (schedule : Schedule)
    (job : PlanJob) : Run (LimitsValues × Option GapChoice) := do
  let search ← searchClusters conf input schedule job
  match search.earliest with
  | none => return (search.values, none)
  | some (k, _) => do
      let plan ← getAt schedule.clusters k
      let (found, job, values) ← findFirstGap conf search.values plan search.job true
      let gap ← deref found
      return (values, some ⟨k, gap, job, values⟩)

/-! ## Limit values -/

/-- Every cluster has limit classes. -/
def HasClasses (conf : LimitsForClusters) : Prop :=
  ∀ name cpus arrays, findLimitsForCluster conf name cpus = .ok arrays → arrays.tresholds ≠ []

section Values

variable {conf : LimitsForClusters}

/-- The cells of all classes are the whole vectors. -/
theorem scaledAt_unique {numRunningCpus : ℤ} {arrays : ClusterLimitsArrays}
    {values values' : LimitsValues} (hclass : arrays.tresholds ≠ [])
    (h : ∀ i < arrays.tresholds.length, ScaledAt numRunningCpus arrays values i)
    (h' : ∀ i < arrays.tresholds.length, ScaledAt numRunningCpus arrays values' i) :
    values = values' := by
  have hpos : 0 < arrays.tresholds.length := List.length_pos_iff.mpr hclass
  obtain ⟨hlength, hlengthGlobal, -⟩ := h 0 hpos
  obtain ⟨hlength', hlengthGlobal', -⟩ := h' 0 hpos
  obtain ⟨own, global⟩ := values
  obtain ⟨own', global'⟩ := values'
  congr 1
  · refine List.ext_getElem? (fun i => ?_)
    by_cases hi : i < arrays.tresholds.length
    · obtain ⟨-, -, p, pg, hp, -, hcell, -⟩ := h i hi
      obtain ⟨-, -, p', pg', hp', -, hcell', -⟩ := h' i hi
      obtain rfl := Option.some.inj (hp.symm.trans hp')
      exact hcell.trans hcell'.symm
    · rw [List.getElem?_eq_none (by rw [hlength]; omega),
        List.getElem?_eq_none (by rw [hlength']; omega)]
  · refine List.ext_getElem? (fun i => ?_)
    by_cases hi : i < arrays.tresholds.length
    · obtain ⟨-, -, p, pg, -, hpg, -, hcell⟩ := h i hi
      obtain ⟨-, -, p', pg', -, hpg', -, hcell'⟩ := h' i hi
      obtain rfl := Option.some.inj (hpg.symm.trans hpg')
      exact hcell.trans hcell'.symm
    · rw [List.getElem?_eq_none (by rw [hlengthGlobal]; omega),
        List.getElem?_eq_none (by rw [hlengthGlobal']; omega)]

/-- Reading a cell has one fault. -/
theorem getAt_fault {α : Type} {xs : List α} {i : ℕ} {fault : Fault}
    (h : getAt xs i = .error fault) : fault = .badIndex := by
  unfold getAt at h
  split at h
  · cases h
  · exact (Except.error.inj h).symm

/-- Only the percentages can be missing. -/
theorem updateLimitsValue_fault {numRunningCpus : ℤ} {arrays : ClusterLimitsArrays} {fault : Fault}
    (is : List ℕ) : ∀ {values : LimitsValues},
      is.foldlM (updateLimitsValue numRunningCpus arrays) values = .error fault →
      fault = .badIndex := by
  induction is with
  | nil =>
      intro values h
      cases h
  | cons i is ih =>
      intro values h
      rw [List.foldlM_cons] at h
      unfold updateLimitsValue at h
      cases hp : getAt arrays.percentages i with
      | error e =>
          rw [hp] at h
          cases h
          exact getAt_fault hp
      | ok p =>
          cases hpg : getAt arrays.percentagesGlobal i with
          | error e =>
              rw [hp, hpg] at h
              cases h
              exact getAt_fault hpg
          | ok pg =>
              rw [hp, hpg] at h
              exact ih h

/-- The values brought up to date do not depend on those before. -/
theorem updateLimitsValues_eq (hclasses : HasClasses conf) (cluster : PlanCluster)
    (values values' : LimitsValues) :
    updateLimitsValues conf cluster values = updateLimitsValues conf cluster values' := by
  unfold updateLimitsValues
  cases hfind : findLimitsForCluster conf cluster.clusterName cluster.numRunningCpus with
  | error fault => rfl
  | ok arrays =>
      show List.foldlM _ values _ = List.foldlM _ values' _
      have hclass := hclasses _ _ _ hfind
      have hscaled : ∀ {start left : LimitsValues},
          (List.range arrays.tresholds.length).foldlM
            (updateLimitsValue cluster.numRunningCpus arrays) start = .ok left →
          ∀ i < arrays.tresholds.length, ScaledAt cluster.numRunningCpus arrays left i :=
        fun h i hi => foldlM_updateLimitsValue_scaledAt hi _ (Or.inl (List.mem_range.mpr hi)) h
      have hreturns : ∀ {start left : LimitsValues} (start' : LimitsValues),
          (List.range arrays.tresholds.length).foldlM
            (updateLimitsValue cluster.numRunningCpus arrays) start = .ok left →
          (List.range arrays.tresholds.length).foldlM
            (updateLimitsValue cluster.numRunningCpus arrays) start' = .ok left := by
        intro start left start' h
        have hall := (foldlM_updateLimitsValue cluster.numRunningCpus arrays _ start).1.mp ⟨_, h⟩
        obtain ⟨left', h'⟩ :=
          (foldlM_updateLimitsValue cluster.numRunningCpus arrays _ start').1.mpr hall
        rw [h', scaledAt_unique hclass (hscaled h') (hscaled h)]
      cases h : (List.range arrays.tresholds.length).foldlM
          (updateLimitsValue cluster.numRunningCpus arrays) values with
      | ok left => exact (hreturns values' h).symm
      | error fault =>
          cases h' : (List.range arrays.tresholds.length).foldlM
              (updateLimitsValue cluster.numRunningCpus arrays) values' with
          | ok left =>
              rw [hreturns values h'] at h
              cases h
          | error fault' => rw [updateLimitsValue_fault _ h, updateLimitsValue_fault _ h']

end Values

/-! ## The search does not depend on the limit values -/

/-- The job with other fixed nodes. -/
def PlanJob.fixTo (job : PlanJob) (fixedNnameArr : List (Option String)) : PlanJob :=
  { job with fixedNnameArr := fixedNnameArr }

section Fixed

variable {conf : LimitsForClusters} {cluster : PlanCluster} {limits : List PlanLimit}
  {job : PlanJob} {fixJob : Bool} {fixedNnameArr : List (Option String)}

theorem gapOkForLimits_fixTo {values : LimitsValues} {foundLimit : ℕ} {gap : PlanGap}
    (limits : List PlanLimit) :
    gapOkForLimits values foundLimit (job.fixTo fixedNnameArr) gap limits
      = gapOkForLimits values foundLimit job gap limits := by
  induction limits with
  | nil => rfl
  | cons limit rest ih =>
      rw [gapOkForLimits, gapOkForLimits, ih]
      rfl

/-- The limits do not read the fixed nodes. -/
theorem gapsAllowed_fixTo {values : LimitsValues} (gaps : List PlanGap) :
    gapsAllowed conf cluster values limits (job.fixTo fixedNnameArr) gaps
      = gapsAllowed conf cluster values limits job gaps := by
  induction gaps with
  | nil => rfl
  | cons gap gaps ih =>
      rw [gapsAllowed, gapsAllowed, ih]
      unfold limitsIsGapOk
      simp only [gapOkForLimits_fixTo]
      rfl

theorem checkConsideredGaps_fixTo (search : GapSearch) :
    checkConsideredGaps conf cluster limits (job.fixTo fixedNnameArr) search
      = checkConsideredGaps conf cluster limits job search := by
  unfold checkConsideredGaps
  simp only [gapsAllowed_fixTo]

theorem followGaps_fixTo {ninfo : ℕ} {name : String} (behind : List PlanGap) :
    ∀ {previous : PlanGap} {duration max : ℤ} {search : GapSearch},
      followGaps conf cluster limits fixJob (job.fixTo fixedNnameArr) ninfo name previous behind
          duration max search
        = followGaps conf cluster limits fixJob job ninfo name previous behind duration max
          search := by
  induction behind with
  | nil =>
      intro previous duration max search
      rfl
  | cons next behind ih =>
      intro previous duration max search
      rw [followGaps, followGaps]
      simp only [ih, checkConsideredGaps_fixTo]
      rfl

theorem visitNode_fixTo {current : PlanGap} {behind : List PlanGap} {ninfo : ℕ} {name : String}
    (search : GapSearch) :
    visitNode conf cluster limits fixJob (job.fixTo fixedNnameArr) current behind ninfo name search
      = visitNode conf cluster limits fixJob job current behind ninfo name search := by
  unfold visitNode closeNode
  simp only [followGaps_fixTo, checkConsideredGaps_fixTo]
  rfl

theorem searchNodes_fixTo {current : PlanGap} {behind : List PlanGap} (rest : List PlanGapMem) :
    ∀ search : GapSearch,
      searchNodes conf cluster limits fixJob (job.fixTo fixedNnameArr) current behind rest search
        = searchNodes conf cluster limits fixJob job current behind rest search := by
  induction rest with
  | nil => exact fun search => rfl
  | cons m rest ih =>
      intro search
      rw [searchNodes, searchNodes]
      simp only [ih, visitNode_fixTo]
      rfl

/-- The search reads the fixed nodes at its start only. -/
theorem searchGaps_fixTo (gaps : List PlanGap) : ∀ search : GapSearch,
    searchGaps conf cluster limits fixJob (job.fixTo fixedNnameArr) gaps search
      = searchGaps conf cluster limits fixJob job gaps search := by
  induction gaps with
  | nil => exact fun search => rfl
  | cons gap behind ih =>
      intro search
      rw [searchGaps, searchGaps]
      simp only [ih, searchNodes_fixTo]
      rfl

end Fixed

/-- Two states of the search that differ in the fixed nodes and the limit values only. -/
def SameSearch (search search' : GapSearch) : Prop :=
  search.planNumNodes = search'.planNumNodes ∧ search.consideredGaps = search'.consideredGaps ∧
    search.nextFollows = search'.nextFollows

/-- The same results, beside two such states. -/
def SameResult {α : Type} (result result' : GapSearch × α) : Prop :=
  SameSearch result.1 result'.1 ∧ result.2 = result'.2

section Same

variable {conf : LimitsForClusters} {cluster : PlanCluster} {limits : List PlanLimit}
  {job : PlanJob} {fixJob fixJob' : Bool} {search search' : GapSearch}

theorem SameSearch.countNode (h : SameSearch search search') (fixJob fixJob' : Bool)
    (job : PlanJob) (name : String) (max : ℤ) :
    SameSearch (search.countNode fixJob job name max) (search'.countNode fixJob' job name max) := by
  obtain ⟨hplan, hgaps, hnext⟩ := h
  refine ⟨?_, hgaps, hnext⟩
  show min (search.planNumNodes + max) _ = min (search'.planNumNodes + max) _
  rw [hplan]

theorem SameSearch.consider (h : SameSearch search search') (gap : PlanGap) :
    SameSearch (search.consider gap) (search'.consider gap) := by
  obtain ⟨hplan, hgaps, hnext⟩ := h
  refine ⟨hplan, ?_, hnext⟩
  show search.consideredGaps ++ [gap] = search'.consideredGaps ++ [gap]
  rw [hgaps]

theorem SameSearch.setNext (h : SameSearch search search') (follows : Option Bool) :
    SameSearch { search with nextFollows := follows } { search' with nextFollows := follows } :=
  ⟨h.1, h.2.1, rfl⟩

theorem SameSearch.reset (h : SameSearch search search') : SameSearch search.reset search'.reset :=
  ⟨rfl, rfl, h.2.2⟩

variable (hclasses : HasClasses conf)

include hclasses

/-- The check of the limits brings the values up to date before it reads them. -/
theorem same_checkConsideredGaps (h : SameSearch search search') :
    Agree SameResult (checkConsideredGaps conf cluster limits job search)
      (checkConsideredGaps conf cluster limits job search') := by
  unfold checkConsideredGaps
  rw [updateLimitsValues_eq hclasses cluster search.values search'.values, h.2.1]
  refine Agree.bind_self (fun values => Agree.bind_self (fun allowed => ?_))
  exact .ok ⟨⟨h.1, rfl, h.2.2⟩, rfl⟩

/-- Following the gaps. -/
theorem same_followGaps {ninfo : ℕ} {name : String} (behind : List PlanGap) :
    ∀ {previous : PlanGap} {duration max : ℤ} {search search' : GapSearch},
      SameSearch search search' →
      Agree SameResult
        (followGaps conf cluster limits fixJob job ninfo name previous behind duration max search)
        (followGaps conf cluster limits fixJob' job ninfo name previous behind duration max
          search') := by
  induction behind with
  | nil =>
      intro previous duration max search search' h
      exact .ok ⟨h, rfl⟩
  | cons next behind ih =>
      intro previous duration max search search' h
      rw [followGaps, followGaps]
      split
      · exact .ok ⟨h, rfl⟩
      split
      · exact .ok ⟨h.setNext _, rfl⟩
      split
      · exact .ok ⟨h.setNext _, rfl⟩
      dsimp only
      generalize (if next.duration = LONG_MAX then LONG_MAX else duration + next.duration) = total
      have hnext := h.setNext (some true)
      by_cases hlong : job.estimatedProcessing ≤ total
      · rw [if_pos hlong, if_pos hlong]
        have hcounted := (hnext.countNode fixJob fixJob' job name
          (min max (chunksInGap job next ninfo))).consider next
        rw [hcounted.1]
        split
        · refine (same_checkConsideredGaps hclasses hcounted).bind ?_
          rintro ⟨s, ok⟩ ⟨s', ok'⟩ ⟨hs, rfl⟩
          exact .ok ⟨hs, rfl⟩
        · exact ih hcounted
      · rw [if_neg hlong, if_neg hlong, if_neg (fun hfull => hlong hfull.1),
          if_neg (fun hfull => hlong hfull.1)]
        exact ih (hnext.consider next)

/-- The last test. -/
theorem same_closeNode (h : SameSearch search search') :
    Agree SameResult (closeNode conf cluster limits job search)
      (closeNode conf cluster limits job search') := by
  unfold closeNode
  rw [h.1]
  split
  · refine (same_checkConsideredGaps hclasses h).bind ?_
    rintro ⟨s, ok⟩ ⟨s', ok'⟩ ⟨hs, rfl⟩
    exact .ok ⟨hs, rfl⟩
  · exact .ok ⟨h, rfl⟩

/-- The work on a node. -/
theorem same_visitNode {current : PlanGap} {behind : List PlanGap} {ninfo : ℕ} {name : String}
    (h : SameSearch search search') :
    Agree SameResult (visitNode conf cluster limits fixJob job current behind ninfo name search)
      (visitNode conf cluster limits fixJob' job current behind ninfo name search') := by
  unfold visitNode
  dsimp only
  split
  · refine (same_followGaps hclasses behind (h.consider current)).bind ?_
    rintro ⟨s, followed⟩ ⟨s', followed'⟩ ⟨hs, rfl⟩
    cases followed with
    | found => exact .ok ⟨hs, rfl⟩
    | ended gapOk duration =>
        show Agree SameResult (deref s.nextFollows >>= _) (deref s'.nextFollows >>= _)
        rw [hs.2.2]
        refine Agree.bind_self (fun follows => ?_)
        split
        · exact .ok ⟨hs, rfl⟩
        split
        · exact same_closeNode hclasses hs
        · exact .ok ⟨hs, rfl⟩
  · exact same_closeNode hclasses ((h.consider current).countNode _ _ _ _ _)

/-- The nodes of a gap. -/
theorem same_searchNodes {current : PlanGap} {behind : List PlanGap} (rest : List PlanGapMem) :
    ∀ {search search' : GapSearch}, SameSearch search search' →
      Agree SameResult (searchNodes conf cluster limits fixJob job current behind rest search)
        (searchNodes conf cluster limits fixJob' job current behind rest search') := by
  induction rest with
  | nil =>
      intro search search' h
      exact .ok ⟨h, rfl⟩
  | cons m rest ih =>
      intro search search' h
      rw [searchNodes, searchNodes]
      refine Agree.bind_self (fun node => ?_)
      split
      · exact ih h
      · refine (same_visitNode hclasses h).bind ?_
        rintro ⟨s, nodeEnd⟩ ⟨s', nodeEnd'⟩ ⟨hs, rfl⟩
        cases nodeEnd with
        | found => exact .ok ⟨hs, rfl⟩
        | nextNode => exact ih hs
        | nextGap => exact .ok ⟨hs, rfl⟩

/-- The gaps of the plan. -/
theorem same_searchGaps (gaps : List PlanGap) : ∀ {search search' : GapSearch},
    SameSearch search search' →
      Agree SameResult (searchGaps conf cluster limits fixJob job gaps search)
        (searchGaps conf cluster limits fixJob' job gaps search') := by
  induction gaps with
  | nil =>
      intro search search' h
      exact .ok ⟨h, rfl⟩
  | cons gap behind ih =>
      intro search search' h
      rw [searchGaps, searchGaps]
      split
      · exact ih h
      · refine (same_searchNodes hclasses _ h.reset).bind ?_
        rintro ⟨s, found⟩ ⟨s', found'⟩ ⟨hs, rfl⟩
        cases found with
        | true => exact .ok ⟨hs, rfl⟩
        | false => exact ih hs

/-- **The gap found depends neither on the limit values before nor on the fixed nodes.** -/
theorem findFirstGap_values (plan : ClusterPlan) (job : PlanJob) (fixJob fixJob' : Bool)
    (values values' : LimitsValues) (fixedNnameArr : List (Option String)) :
    (findFirstGap conf values plan job fixJob).map Prod.fst
      = (findFirstGap conf values' plan (job.fixTo fixedNnameArr) fixJob').map Prod.fst := by
  unfold findFirstGap
  rw [searchGaps_fixTo]
  have hsearch : Agree SameResult
      (searchGaps conf plan.cluster plan.limits fixJob job plan.gaps
        ⟨job.fixedNnameArr, 0, [], none, values⟩)
      (searchGaps conf plan.cluster plan.limits fixJob' job plan.gaps
        ⟨fixedNnameArr, 0, [], none, values'⟩) :=
    same_searchGaps hclasses plan.gaps ⟨rfl, rfl, rfl⟩
  refine Agree.map_eq (R := fun result result' => result.1 = result'.1) (hsearch.bind ?_)
    (fun _ _ h => h)
  rintro ⟨s, found⟩ ⟨s', found'⟩ ⟨-, rfl⟩
  exact .ok rfl

end Same

/-! ## The gap of a new job -/

section Earliest

variable {conf : LimitsForClusters} {input : SuitableInput} {schedule : Schedule} {job : PlanJob}

/-- The first gap for the job on cluster `k`, if the cluster is suitable and has one. -/
def gapOf (conf : LimitsForClusters) (input : SuitableInput) (schedule : Schedule) (job : PlanJob)
    (k : ℕ) : Option PlanGap := do
  let plan ← schedule.clusters[k]?
  if input.isSuitable k plan job = .ok true then
    match findFirstGap conf schedule.values plan job false with
    | .ok (found, _) => found
    | .error _ => none
  else none

/-- The start of this gap. -/
def gapStart (conf : LimitsForClusters) (input : SuitableInput) (schedule : Schedule)
    (job : PlanJob) (k : ℕ) : ℤ :=
  ((gapOf conf input schedule job k).map PlanGap.startTime).getD 0

/-- Among the first `n` clusters, `k` is the one with the earliest gap, and this gap is
`gap`. -/
structure EarliestOf (conf : LimitsForClusters) (input : SuitableInput) (schedule : Schedule)
    (job : PlanJob) (n k : ℕ) (gap : PlanGap) : Prop where
  gap_eq : gapOf conf input schedule job k = some gap
  first : FirstLeast (fun k => (gapOf conf input schedule job k).isSome)
    (gapStart conf input schedule job) n k

/-- What the loop over the clusters has found after `n` of them. -/
structure SearchInv (conf : LimitsForClusters) (input : SuitableInput) (schedule : Schedule)
    (job : PlanJob) (n : ℕ) (search : ClusterSearch) : Prop where
  job_eq : ∃ fixedNnameArr, search.job = job.fixTo fixedNnameArr
  nothing : search.earliest = none → ∀ k < n, gapOf conf input schedule job k = none
  earliest : ∀ k gap, search.earliest = some (k, gap) →
    EarliestOf conf input schedule job n k gap

/-- A cluster without a gap changes nothing. -/
theorem EarliestOf.keep {n k : ℕ} {gap : PlanGap} (h : EarliestOf conf input schedule job n k gap)
    (hnone : gapOf conf input schedule job n = none) :
    EarliestOf conf input schedule job (n + 1) k gap := by
  refine ⟨h.gap_eq, h.first.keep ?_⟩
  intro hsome
  rw [hnone] at hsome
  cases hsome

/-- A cluster with a gap is taken if the gap starts earlier. -/
theorem EarliestOf.take {n k : ℕ} {gap gap' : PlanGap}
    (h : EarliestOf conf input schedule job n k gap)
    (hgap : gapOf conf input schedule job n = some gap') :
    ∀ k₁ gap₁, takeEarlier n gap' (some (k, gap)) = some (k₁, gap₁) →
      EarliestOf conf input schedule job (n + 1) k₁ gap₁ := by
  have hstart : gapStart conf input schedule job k = gap.startTime := by
    unfold gapStart
    rw [h.gap_eq]
    rfl
  have hstart' : gapStart conf input schedule job n = gap'.startTime := by
    unfold gapStart
    rw [hgap]
    rfl
  intro k₁ gap₁ htaken
  rw [takeEarlier] at htaken
  split at htaken
  · next hlt =>
      cases htaken
      refine ⟨hgap, FirstLeast.take (by rw [hgap]; rfl) ?_⟩
      intro d hd hsome
      rw [hstart']
      exact hlt.trans_le (hstart ▸ h.first.le hd hsome)
  · next hge =>
      cases htaken
      refine ⟨h.gap_eq, h.first.keep ?_⟩
      intro _
      rw [hstart, hstart']
      exact not_lt.mp hge

/-- One pass of the loop over the clusters. -/
theorem SearchInv.step (hclasses : HasClasses conf) {n : ℕ} {search search' : ClusterSearch}
    (hinv : SearchInv conf input schedule job n search)
    (h : searchCluster conf input schedule.clusters search n = .ok search') :
    SearchInv conf input schedule job (n + 1) search' := by
  obtain ⟨⟨names, hjob⟩, hnothing, hearliest⟩ := hinv
  unfold searchCluster at h
  obtain ⟨plan, hplan, h⟩ := bind_ok.mp h
  have hplan := getAt_ok.mp hplan
  have hsuitable : input.isSuitable n plan search.job = input.isSuitable n plan job := by
    rw [hjob]
    rfl
  -- without a gap of its own the cluster leaves everything as it was
  have hkeep : gapOf conf input schedule job n = none → ∀ {found}, found = search.earliest →
      (found = none → ∀ k < n + 1, gapOf conf input schedule job k = none) ∧
      ∀ k gap, found = some (k, gap) → EarliestOf conf input schedule job (n + 1) k gap := by
    rintro hnone found rfl
    refine ⟨?_, fun k gap hfound => (hearliest k gap hfound).keep hnone⟩
    intro hfound k hk
    rcases Nat.lt_succ_iff_lt_or_eq.mp hk with hlt | rfl
    · exact hnothing hfound k hlt
    · exact hnone
  obtain ⟨suitable, hcode, h⟩ := bind_ok.mp h
  split at h
  · next hyes =>
      rw [hyes] at hcode
      obtain ⟨⟨found, job', values⟩, hfirst, h⟩ := bind_ok.mp h
      obtain rfl := pure_ok.mp h
      have hgap : gapOf conf input schedule job n = found := by
        have hvalues := findFirstGap_values hclasses plan job false false schedule.values
          search.values names
        rw [← hjob, hfirst] at hvalues
        obtain ⟨⟨found', rest⟩, hfound', rfl⟩ := map_ok.mp hvalues
        unfold gapOf
        rw [hplan]
        show (if input.isSuitable n plan job = .ok true then _ else _) = _
        rw [← hsuitable, if_pos hcode, hfound']
      have hjob' : ∃ names', job' = job.fixTo names' := by
        unfold findFirstGap at hfirst
        obtain ⟨⟨s, found'⟩, -, hfirst⟩ := bind_ok.mp hfirst
        cases pure_ok.mp hfirst
        exact ⟨s.fixedNnameArr, by rw [hjob]; rfl⟩
      cases found with
      | none =>
          obtain ⟨hnone', hsome'⟩ := hkeep hgap rfl
          exact ⟨hjob', hnone', hsome'⟩
      | some gap =>
          refine ⟨hjob', ?_, ?_⟩
          · intro hnone
            cases hbest : search.earliest with
            | none =>
                dsimp only at hnone
                rw [hbest] at hnone
                cases hnone
            | some best =>
                dsimp only at hnone
                rw [hbest, takeEarlier] at hnone
                split at hnone <;> cases hnone
          · dsimp only
            cases hbest : search.earliest with
            | none =>
                intro k₁ gap₁ htaken
                cases htaken
                refine ⟨hgap, FirstLeast.take (by rw [hgap]; rfl) ?_⟩
                intro d hd hsome
                rw [hnothing hbest d hd] at hsome
                cases hsome
            | some best => exact (hearliest best.1 best.2 hbest).take hgap
  · next hno =>
      obtain rfl := pure_ok.mp h
      have hgap : gapOf conf input schedule job n = none := by
        unfold gapOf
        rw [hplan]
        show (if input.isSuitable n plan job = .ok true then _ else _) = _
        rw [← hsuitable, if_neg]
        rw [hcode]
        exact fun hyes => hno (Except.ok.inj hyes)
      obtain ⟨hnone', hsome'⟩ := hkeep hgap rfl
      exact ⟨⟨names, hjob⟩, hnone', hsome'⟩

/-- **A new job gets the earliest gap, on the first cluster that has one so early; the
cluster's second search finds the gap again, and without a suitable gap there is none
anywhere.** -/
theorem findEarliestGap_earliest (hclasses : HasClasses conf) {search : ClusterSearch}
    (h : searchClusters conf input schedule job = .ok search) :
    ∃ values found, findEarliestGap conf input schedule job = .ok (values, found) ∧
      (found = none → ∀ k < schedule.clusters.length, gapOf conf input schedule job k = none) ∧
      ∀ choice, found = some choice →
        gapOf conf input schedule job choice.cluster = some choice.gap ∧
        FirstLeast (fun k => (gapOf conf input schedule job k).isSome)
          (gapStart conf input schedule job) schedule.clusters.length choice.cluster := by
  have hinv : SearchInv conf input schedule job schedule.clusters.length search := by
    unfold searchClusters at h
    refine foldlM_range_invariant _ (fun i _ s s' hs hstep => hs.step hclasses hstep) ?_ h
    exact ⟨⟨job.fixedNnameArr, rfl⟩, fun _ k hk => absurd hk (Nat.not_lt_zero k), by simp⟩
  obtain ⟨⟨names, hjob⟩, hnothing, hearliest⟩ := hinv
  unfold findEarliestGap
  rw [h]
  show ∃ values found, (match search.earliest with
    | none => _
    | some (k, _) => _ : Run (LimitsValues × Option GapChoice)) = .ok (values, found) ∧ _
  cases hbest : search.earliest with
  | none => exact ⟨search.values, none, rfl, fun _ => hnothing hbest, by simp⟩
  | some best =>
      obtain ⟨k, gap⟩ := best
      have hfirst := hearliest k gap hbest
      have hgap := hfirst.gap_eq
      unfold gapOf at hgap
      cases hplan : schedule.clusters[k]? with
      | none =>
          rw [hplan] at hgap
          cases hgap
      | some plan =>
          rw [hplan] at hgap
          have hgap : (if input.isSuitable k plan job = .ok true then
              match findFirstGap conf schedule.values plan job false with
              | .ok (found, _) => found
              | .error _ => none
            else none) = some gap := hgap
          split at hgap
          · -- what the first search of the cluster found, the second one finds
            have hvalues := findFirstGap_values hclasses plan job false true schedule.values
              search.values names
            rw [← hjob] at hvalues
            split at hgap
            · next found rest hfound =>
                subst hgap
                rw [hfound] at hvalues
                obtain ⟨⟨found', job', values'⟩, hsecond, hsame⟩ := map_ok.mp hvalues.symm
                obtain rfl : found' = some gap := hsame
                refine ⟨values', some ⟨k, gap, job', values'⟩, ?_, by simp, ?_⟩
                · show (getAt schedule.clusters k >>= _) = _
                  rw [getAt_ok.mpr hplan]
                  show (findFirstGap conf search.values plan search.job true >>= _) = _
                  rw [hsecond]
                  rfl
                · intro choice hchoice
                  cases hchoice
                  exact ⟨hfirst.gap_eq, hfirst.first⟩
            · cases hgap
          · cases hgap

end Earliest

/-- Every cluster of this configuration has its only class. -/
theorem hasClasses_oneClass : HasClasses oneClass := by
  intro name cpus arrays h
  obtain ⟨m, key, hm, hmem, -⟩ := findLimitsForCluster_ok.mp h
  obtain rfl : m = ⟨[(0, ⟨[.finite 1], [.finite 1], [7200]⟩)], by decide⟩ := by
    unfold limitArray oneClass at hm
    by_cases hname : name = ""
    · subst hname
      exact (Option.some.inj hm).symm
    · rw [List.lookup_cons, beq_false_of_ne hname] at hm
      exact (Option.some.inj hm).symm
  obtain ⟨rfl, rfl⟩ := Prod.mk.inj (List.mem_singleton.mp hmem)
  exact List.cons_ne_nil _ _

/-- No rules for queues, and nodespecs for one core. -/
def plainRules : SuitableInput where
  context := ⟨"default", [], fun _ => some ⟨⟨1, none, none, 1, 0, 0, 0, .scratchNone, []⟩, []⟩⟩
  clusterProperties := fun _ => ∅
  queue := fun _ => ⟨"default", none⟩
  nodespec := fun _ => "1:ppn=1"
  placement := fun _ => ""

/-- Two clusters; the first one is idle from 100 on, the second one at once. -/
def twoIdleClusters : Schedule where
  clusters := [{ idlePlanOf 10 with gaps := [{ idleGap 10 with startTime := 100 }] }, idlePlanOf 10]
  values := ⟨[], []⟩

/-- The job goes to the second cluster. -/
theorem findEarliestGap_earliest_two :
    ∃ values choice, findEarliestGap oneClass plainRules twoIdleClusters scratchJob
        = .ok (values, some choice) ∧ choice.cluster = 1 ∧
      gapOf oneClass plainRules twoIdleClusters scratchJob 1 = some choice.gap ∧
      FirstLeast (fun k => (gapOf oneClass plainRules twoIdleClusters scratchJob k).isSome)
        (gapStart oneClass plainRules twoIdleClusters scratchJob) 2 1 := by
  have hrun : (searchClusters oneClass plainRules twoIdleClusters scratchJob).map
      (fun search => search.earliest.map Prod.fst) = .ok (some 1) := by
    decide +kernel
  have hfound : (findEarliestGap oneClass plainRules twoIdleClusters scratchJob).map
      (fun result => result.2.map GapChoice.cluster) = .ok (some 1) := by
    decide +kernel
  obtain ⟨search, hsearch, -⟩ := map_ok.mp hrun
  obtain ⟨values, found, hresult, -, hchoice⟩ :=
    findEarliestGap_earliest hasClasses_oneClass hsearch
  rw [hresult] at hfound
  cases found with
  | none => cases hfound
  | some choice =>
      have hcluster : choice.cluster = 1 := Option.some.inj (Except.ok.inj hfound)
      obtain ⟨hgap, hfirst⟩ := hchoice choice rfl
      rw [hcluster] at hgap hfirst
      exact ⟨values, choice, hresult, hcluster, hgap, hfirst⟩

end PlanSched
