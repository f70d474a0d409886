/-
# The gap that fits first

What `find_first_gap` (`plan_gaps.cpp`) returns, and what it passes over.  A gap fits a job if
the limits allow the gaps of its run and its nodes offer chunks enough in all of them.

The search counts these chunks node by node.  `check_node_in_gap` divides the amounts that
are available, and where an amount is negative (memory that is given away twice, or the
scratch space `-1` of a node that has none) the result may be negative and is subtracted.

* `findFirstGap_sound`: the gap that is returned fits, whether or not the job is to be fixed,
  and the nodes the job is fixed to are named no more often than they offer chunks;
* `findFirstGap_firstFit_iff`: no gap that fits is passed over, if and only if in the first
  gap that fits some initial part of the counts adds up to the nodes of the job.
-/
import PlanSched.FirstFit

namespace PlanSched

open CheckedRun ShortestRun

/-! ## Capacities -/

/-- How many chunks fit on a node in all gaps of a run. -/
def nodeCapacity (job : PlanJob) (run : List PlanGap) (ninfo : ℕ) : ℤ :=
  max (leastChunks job run ninfo) 0

/-- The gap fits the job, with the gaps `behind` it: there is a run from it on, the limits
allow it, and the nodes that pass the tests offer chunks enough. -/
def Fits (conf : LimitsForClusters) (cluster : PlanCluster) (limits : List PlanLimit)
    (job : PlanJob) (values : LimitsValues) (gap : PlanGap) (behind : List PlanGap) : Prop :=
  ∃ run, JobRun job (gap :: behind) run ∧ LimitsAllow conf cluster limits job values run ∧
    (job.reqNumNodes : ℤ) ≤ ((gap.nodesMemory.filter (nodePasses cluster job gap)).map
      (fun m => nodeCapacity job run m.ninfo)).sum

/-- The gaps follow one another in time, and the last one has no end. -/
def OpenEnded (gaps : List PlanGap) : Prop :=
  ∃ front last, gaps = front ++ [last] ∧ (∀ gap ∈ front, gap.Proper) ∧
    gaps.IsChain (fun gap gap' => gap.endTime ≤ gap'.startTime) ∧ last.duration = LONG_MAX

/-- Their durations are not negative. -/
theorem OpenEnded.durations {gaps : List PlanGap} (h : OpenEnded gaps) :
    ∀ gap ∈ gaps, 0 ≤ gap.duration := by
  obtain ⟨front, last, rfl, hproper, -, hlast⟩ := h
  intro gap hgap
  rcases List.mem_append.mp hgap with hgap | hgap
  · obtain ⟨hlt, heq⟩ := hproper gap hgap
    omega
  · rw [List.mem_singleton.mp hgap, hlast]
    decide

/-- Behind a gap all others start after its end. -/
theorem endTime_le_of_chain (gaps : List PlanGap) : ∀ {gap : PlanGap},
    (∀ g ∈ gaps.dropLast, g.Proper) →
      (gap :: gaps).IsChain (fun gap gap' => gap.endTime ≤ gap'.startTime) →
      ∀ g ∈ gaps, gap.endTime ≤ g.startTime := by
  induction gaps with
  | nil =>
      intro gap _ _ g hg
      cases hg
  | cons next gaps ih =>
      intro gap hproper hchain g hg
      obtain ⟨hle, hchain'⟩ := List.isChain_cons_cons.mp hchain
      rcases List.mem_cons.mp hg with rfl | hg
      · exact hle
      · rw [List.dropLast_cons_of_ne_nil (List.ne_nil_of_mem hg)] at hproper
        have hnext := ih (fun g hg => hproper g (List.mem_cons_of_mem _ hg)) hchain' g hg
        have := (hproper next List.mem_cons_self).1
        omega

/-- No gap is listed twice. -/
theorem OpenEnded.nodup {gaps : List PlanGap} (h : OpenEnded gaps) : gaps.Nodup := by
  obtain ⟨front, last, rfl, hproper, hchain, -⟩ := h
  induction front with
  | nil => exact List.nodup_singleton last
  | cons first front ih =>
      have hrest : ∀ gap ∈ front, gap.Proper :=
        fun gap hgap => hproper gap (List.mem_cons_of_mem _ hgap)
      rw [List.cons_append] at hchain ⊢
      refine List.nodup_cons.mpr ⟨?_, ih hrest (List.IsChain.of_cons hchain)⟩
      intro hmem
      -- every gap behind the first one starts later than it does
      have hle := endTime_le_of_chain _ (by simpa using hrest) hchain first hmem
      have := (hproper first List.mem_cons_self).1
      omega

/-! ## The counts of the search -/

section Choice

variable {conf : LimitsForClusters} {cluster : PlanCluster} {limits : List PlanLimit}
  {job : PlanJob} {gap : PlanGap} {run : List PlanGap}

/-- A node counts for the chunks it has room for. -/
theorem runCount_eq {ninfo : ℕ} {count : ℤ} (h : runCount job run ninfo = some count) :
    count = clipChunks job (leastChunks job run ninfo) := by
  unfold runCount at h
  split at h
  · cases h
  · exact (Option.some.inj h).symm

/-- So for no more. -/
theorem runCount_le {ninfo : ℕ} {count : ℤ} (h : runCount job run ninfo = some count) :
    count ≤ leastChunks job run ninfo := by
  rw [runCount_eq h]
  exact clipChunks_le job _

/-- A node that is left has no capacity. -/
theorem nodeCapacity_of_left (hshared : job.jinfo.isExclusive = false) {ninfo : ℕ}
    (h : runCount job run ninfo = none) : nodeCapacity job run ninfo = 0 := by
  unfold runCount at h
  split at h
  · next hany =>
      obtain ⟨gap', hgap', hzero⟩ := List.any_eq_true.mp hany
      have hle := leastChunks_le job ninfo (List.mem_of_mem_tail hgap')
      rw [beq_iff_eq, chunksInGap_eq, clipChunks_shared hshared] at hzero
      unfold nodeCapacity
      omega
  · cases h

/-- The capacities are the counts without those below zero. -/
theorem sum_nodeCapacity (hshared : job.jinfo.isExclusive = false) (entries : List PlanGapMem) :
    ((signedCounts cluster job gap run entries).map (fun count => max count 0)).sum
      = ((entries.filter (nodePasses cluster job gap)).map
        (fun m => nodeCapacity job run m.ninfo)).sum := by
  unfold signedCounts
  induction entries with
  | nil => rfl
  | cons m entries ih =>
      cases hpasses : nodePasses cluster job gap m with
      | false =>
          rw [List.filter_cons_of_neg (by rw [hpasses]; decide),
            List.filterMap_cons_none (by rw [hpasses]; rfl), ih]
      | true =>
          rw [List.filter_cons_of_pos hpasses, List.map_cons, List.sum_cons, ← ih]
          cases hcount : runCount job run m.ninfo with
          | none =>
              rw [List.filterMap_cons_none (by rw [hpasses, hcount]; rfl),
                nodeCapacity_of_left hshared hcount, zero_add]
          | some count =>
              rw [List.filterMap_cons_some (by rw [hpasses, hcount]; rfl), List.map_cons,
                List.sum_cons]
              unfold runCount at hcount
              split at hcount
              · cases hcount
              · cases hcount
                unfold nodeCapacity
                rw [clipChunks_shared hshared]

/-- A gap that fits has as many CPUs as the job uses. -/
theorem usage_le_of_capacity (hshared : job.jinfo.isExclusive = false)
    (husage : job.usage = job.reqPpn * job.reqNumNodes)
    (hsum : gap.usage = (gap.nodesMemory.map (fun m => (m.numCpus : ℤ))).sum)
    (hnodup : (gap.nodesMemory.map PlanGapMem.ninfo).Nodup) (hgap : gap ∈ run)
    (hfits : (job.reqNumNodes : ℤ) ≤ ((gap.nodesMemory.filter (nodePasses cluster job gap)).map
      (fun m => nodeCapacity job run m.ninfo)).sum) : (job.usage : ℤ) ≤ gap.usage := by
  -- a chunk on a node takes `req_ppn` of the CPUs it has in the gap
  have hentry : ∀ m ∈ gap.nodesMemory,
      nodeCapacity job run m.ninfo * job.reqPpn ≤ m.numCpus := by
    intro m hm
    have hle := leastChunks_le job m.ninfo hgap
    have hmul := @chunksInGap_mul_le job gap m hm hnodup
    rw [chunksInGap_eq, clipChunks_shared hshared] at hmul
    unfold nodeCapacity
    rcases le_total (leastChunks job run m.ninfo) 0 with hneg | hpos
    · rw [max_eq_right hneg, zero_mul]
      exact Int.natCast_nonneg _
    · rw [max_eq_left hpos]
      exact (mul_le_mul_of_nonneg_right hle (Int.natCast_nonneg _)).trans hmul
  have hcpus : ∀ entries : List PlanGapMem, (∀ m ∈ entries,
      nodeCapacity job run m.ninfo * job.reqPpn ≤ m.numCpus) →
      ((entries.filter (nodePasses cluster job gap)).map
        (fun m => nodeCapacity job run m.ninfo)).sum * job.reqPpn
        ≤ (entries.map (fun m => (m.numCpus : ℤ))).sum := by
    intro entries
    induction entries with
    | nil =>
        intro _
        simp
    | cons m entries ih =>
        intro hle
        have hm := hle m List.mem_cons_self
        have hrest := ih (fun m' hm' => hle m' (List.mem_cons_of_mem _ hm'))
        rw [List.map_cons, List.sum_cons]
        cases hpasses : nodePasses cluster job gap m with
        | false =>
            rw [List.filter_cons_of_neg (by rw [hpasses]; decide)]
            omega
        | true =>
            rw [List.filter_cons_of_pos hpasses, List.map_cons, List.sum_cons, add_mul]
            omega
  rw [hsum, husage, Nat.cast_mul, mul_comm]
  exact (mul_le_mul_of_nonneg_right hfits (Int.natCast_nonneg _)).trans (hcpus _ hentry)

/-- What the search accepts fits, when the job shares its nodes. -/
theorem Accepted.fits {values : LimitsValues} {behind : List PlanGap}
    (hshared : job.jinfo.isExclusive = false)
    (h : Accepted conf cluster limits job values gap behind) :
    Fits conf cluster limits job values gap behind := by
  obtain ⟨-, run, hrun, hallow, hreach⟩ := h
  refine ⟨run, hrun, hallow, ?_⟩
  rw [← sum_nodeCapacity hshared]
  have := le_sum_of_reaches _ hreach
  omega

/-- A gap has one run. -/
theorem JobRun.unique {gaps run' : List PlanGap} (h : JobRun job gaps run)
    (h' : JobRun job gaps run') : run = run' := by
  unfold JobRun at h h'
  rw [← shortestRun_iff] at h h'
  rw [h] at h'
  exact Option.some.inj h'

/-- A gap that fits is accepted exactly if an initial part of the counts adds up to the nodes
of the job. -/
theorem Fits.accepted_iff {values : LimitsValues} {behind : List PlanGap}
    (hshared : job.jinfo.isExclusive = false)
    (husage : job.usage = job.reqPpn * job.reqNumNodes)
    (hsum : gap.usage = (gap.nodesMemory.map (fun m => (m.numCpus : ℤ))).sum)
    (hnodup : (gap.nodesMemory.map PlanGapMem.ninfo).Nodup)
    (h : Fits conf cluster limits job values gap behind) :
    Accepted conf cluster limits job values gap behind ↔
      ∀ run, JobRun job (gap :: behind) run → ∃ part,
        part <+: signedCounts cluster job gap run gap.nodesMemory ∧
          (job.reqNumNodes : ℤ) ≤ part.sum := by
  obtain ⟨run, hrun, hallow, hcapacity⟩ := h
  have hpos : (0 : ℤ) < job.reqNumNodes := Int.natCast_pos.mpr job.reqNumNodes_pos
  have hmem : gap ∈ run := by
    obtain ⟨tail, rfl, -⟩ := jobRun_iff.mp hrun
    exact List.mem_cons_self
  have hreaches := reaches_iff (signedCounts cluster job gap run gap.nodesMemory) hpos
  simp only [zero_add] at hreaches
  constructor
  · rintro ⟨-, run₁, hrun₁, -, hreach⟩ run₂ hrun₂
    rw [hrun.unique hrun₁] at hreaches
    rw [hrun₂.unique hrun₁]
    exact hreaches.mp hreach
  · intro hpart
    refine ⟨usage_le_of_capacity hshared husage hsum hnodup hmem hcapacity, run, hrun, hallow, ?_⟩
    exact hreaches.mpr (hpart run hrun)

end Choice

/-! ## The names the job is fixed to -/

/-- The state of the search of a gap, after the entries `seen`: the cells filled so far, no
name more often than the node is counted in the run. -/
structure Filled (cluster : PlanCluster) (job : PlanJob) (run : List PlanGap)
    (seen : List PlanGapMem) (search : GapSearch) (names : List String) : Prop where
  cells : search.fixedNnameArr =
    names.map some ++ List.replicate (job.reqNumNodes - names.length) none
  length_le : names.length ≤ job.reqNumNodes
  plan_le : search.planNumNodes ≤ names.length
  counted : ∀ name ∈ names, ∃ m ∈ seen, ∃ node, cluster.nodes[m.ninfo]? = some node ∧
    node.name = name ∧ (names.count name : ℤ) ≤ clipChunks job (leastChunks job run m.ninfo)

section Names

variable {conf : LimitsForClusters} {cluster : PlanCluster} {limits : List PlanLimit}
  {job : PlanJob} {current : PlanGap} {behind run : List PlanGap} {seen : List PlanGapMem}
  {search search' : GapSearch} {names : List String}

/-- A node that is not counted changes nothing. -/
theorem Filled.snoc (h : Filled cluster job run seen search names)
    (hplan : search'.planNumNodes = search.planNumNodes)
    (hfixed : search'.fixedNnameArr = search.fixedNnameArr) (m : PlanGapMem) :
    Filled cluster job run (seen ++ [m]) search' names := by
  refine ⟨hfixed.trans h.cells, h.length_le, hplan.le.trans h.plan_le, ?_⟩
  intro name hname
  obtain ⟨m', hm', hcounted⟩ := h.counted name hname
  exact ⟨m', List.mem_append_left _ hm', hcounted⟩

/-- A node that is counted for no more than it has room for. -/
theorem Filled.count (h : Filled cluster job run seen search names) {m : PlanGapMem}
    {node : NodeInfo} {count : ℤ} (hnode : cluster.nodes[m.ninfo]? = some node)
    (hnew : node.name ∉ names) (hcount : count ≤ clipChunks job (leastChunks job run m.ninfo))
    (hplan : search'.planNumNodes = (search.countNode true job node.name count).planNumNodes)
    (hfixed : search'.fixedNnameArr = (search.countNode true job node.name count).fixedNnameArr) :
    ∃ names', Filled cluster job run (seen ++ [m]) search' names' := by
  obtain ⟨k, hk, hcells, hlength, hle⟩ := @countNode_cells job search names node.name count
    h.cells h.length_le h.plan_le
  refine ⟨names ++ List.replicate k node.name, hfixed.trans hcells, hlength, hplan.le.trans hle, ?_⟩
  intro name hname
  rcases List.mem_append.mp hname with hname | hname
  · -- a name from before is another one, so it is counted as often as before
    obtain ⟨m', hm', node', hnode', hname', hcounted⟩ := h.counted name hname
    have hne : node.name ≠ name := by
      rintro rfl
      exact hnew hname
    refine ⟨m', List.mem_append_left _ hm', node', hnode', hname', ?_⟩
    rw [List.count_append, List.count_replicate, if_neg (by simpa using hne)]
    exact hcounted
  · obtain ⟨hpos, rfl⟩ := List.mem_replicate.mp hname
    refine ⟨m, by simp, node, hnode, rfl, ?_⟩
    rw [List.count_append, List.count_eq_zero_of_not_mem hnew, List.count_replicate_self,
      Nat.zero_add]
    omega

/-- The search of a gap with `fix_job` ends with the cells filled. -/
theorem searchNodes_filled {tail : List PlanGap} (hest : job.estimatedProcessing ≤ LONG_MAX)
    (hdurations : ∀ gap ∈ current :: behind, 0 ≤ gap.duration)
    (hrun : extend PlanGap.duration Follows job.estimatedProcessing current behind
      current.duration = some tail)
    (hnames : (cluster.nodes.map NodeInfo.name).Nodup)
    (hnodup : (current.nodesMemory.map PlanGapMem.ninfo).Nodup) (rest : List PlanGapMem) :
    ∀ {seen : List PlanGapMem} {search search' : GapSearch} {names : List String},
      current.nodesMemory = seen ++ rest → Filled cluster job (current :: tail) seen search names →
      (∀ gap ∈ search.consideredGaps, gap ∈ current :: tail) →
      searchNodes conf cluster limits true job current behind rest search = .ok (search', true) →
      ∃ seen' names', seen' ⊆ current.nodesMemory ∧
        Filled cluster job (current :: tail) seen' search' names' ∧
        (job.reqNumNodes : ℤ) ≤ search'.planNumNodes := by
  induction rest with
  | nil =>
      intro seen search search' names _ _ _ h
      rw [searchNodes] at h
      cases h
  | cons m rest ih =>
      intro seen search search' names hsplit hfilled hconsidered h
      have hsplit' : current.nodesMemory = (seen ++ [m]) ++ rest := by simpa using hsplit
      rw [searchNodes] at h
      obtain ⟨node, hnode, h⟩ := bind_ok.mp h
      rw [getAt_ok] at hnode
      split at h
      · exact ih hsplit' (hfilled.snoc rfl rfl m) hconsidered h
      · obtain ⟨⟨search₁, nodeEnd⟩, hvisit, h⟩ := bind_ok.mp h
        obtain ⟨-, hconsidered₁, hstay, hleft, hcounted⟩ :=
          visitNode_run hest hdurations hrun hconsidered hvisit
        cases hcount : runCount job (current :: tail) m.ninfo with
        | none =>
            obtain ⟨rfl, hplan, hfixed⟩ := hleft hcount
            exact ih hsplit' (hfilled.snoc hplan hfixed m) hconsidered₁ h
        | some count =>
            obtain ⟨hplan, hfixed, hfound, -⟩ := hcounted count hcount
            -- a node is visited once, so its name is not among those before
            have hnew : node.name ∉ names := by
              refine name_notMem_of_seen ?_ hnames (hsplit ▸ hnodup) hnode
              intro name hname
              obtain ⟨m', hm', node', hnode', hname', -⟩ := hfilled.counted name hname
              exact ⟨m', hm', node', hnode', hname'⟩
            obtain ⟨names', hfilled'⟩ :=
              hfilled.count hnode hnew (runCount_eq hcount).le hplan hfixed
            cases nodeEnd with
            | found =>
                obtain ⟨rfl, -⟩ := Prod.mk.inj (pure_ok.mp h)
                refine ⟨seen ++ [m], names', ?_, hfilled', (hfound.mp rfl).1⟩
                rw [hsplit']
                exact List.subset_append_left _ _
            | nextNode => exact ih hsplit' hfilled' hconsidered₁ h
            | nextGap => exact absurd rfl hstay

/-- The nodes that count for the gap: those with room in the whole run. -/
theorem sum_share_le (entries : List PlanGapMem) :
    ((signedCounts cluster job current run entries).map (fun count => max count 0)).sum
      ≤ ((entries.filter (fun m => nodePasses cluster job current m &&
          decide (1 ≤ leastChunks job run m.ninfo))).map
        (fun m => if job.jinfo.isExclusive then 1 else leastChunks job run m.ninfo)).sum := by
  unfold signedCounts
  induction entries with
  | nil => rfl
  | cons m entries ih =>
      by_cases hroom : 1 ≤ leastChunks job run m.ninfo
      · cases hpasses : nodePasses cluster job current m with
        | false =>
            rw [List.filter_cons_of_neg (by simp [hpasses]),
              List.filterMap_cons_none (by rw [hpasses]; rfl)]
            exact ih
        | true =>
            rw [List.filter_cons_of_pos (by simp [hpasses, hroom]), List.map_cons, List.sum_cons]
            have hshare : 1 ≤ if job.jinfo.isExclusive then 1 else leastChunks job run m.ninfo := by
              split
              · exact le_rfl
              · exact hroom
            cases hcount : runCount job run m.ninfo with
            | none =>
                rw [List.filterMap_cons_none (by rw [hpasses, hcount]; rfl)]
                omega
            | some count =>
                rw [List.filterMap_cons_some (by rw [hpasses, hcount]; rfl), List.map_cons,
                  List.sum_cons]
                have hsame : max count 0
                    = if job.jinfo.isExclusive then 1 else leastChunks job run m.ninfo := by
                  unfold runCount at hcount
                  split at hcount
                  · cases hcount
                  · cases hcount
                    unfold clipChunks
                    cases job.jinfo.isExclusive with
                    | false => simp; omega
                    | true => simp; omega
                omega
      · -- the count of a node without room is not positive
        rw [List.filter_cons_of_neg (by simp [hroom])]
        cases hpasses : nodePasses cluster job current m with
        | false =>
            rw [List.filterMap_cons_none (by rw [hpasses]; rfl)]
            exact ih
        | true =>
            cases hcount : runCount job run m.ninfo with
            | none =>
                rw [List.filterMap_cons_none (by rw [hpasses, hcount]; rfl)]
                exact ih
            | some count =>
                rw [List.filterMap_cons_some (by rw [hpasses, hcount]; rfl), List.map_cons,
                  List.sum_cons]
                have hle := runCount_le hcount
                omega

end Names

/-! ## The gap that is returned -/

/-- The gap serves the job: it has a run, the limits in force allow it, and there are distinct
nodes that pass the tests and have room in the whole run, together for all chunks. -/
structure Serves (conf : LimitsForClusters) (plan : ClusterPlan) (job : PlanJob)
    (values : LimitsValues) (gap : PlanGap) (run : List PlanGap) : Prop where
  place : ∃ behind, gap :: behind <:+ plan.gaps ∧ JobRun job (gap :: behind) run
  allowed : RunAllowed conf plan.cluster plan.limits job values run
  nodes : ∃ nodes : List PlanGapMem, nodes ⊆ gap.nodesMemory ∧
    (nodes.map PlanGapMem.ninfo).Nodup ∧
    (∀ m ∈ nodes, nodePasses plan.cluster job gap m = true ∧ 1 ≤ leastChunks job run m.ninfo) ∧
    (job.reqNumNodes : ℤ) ≤ (nodes.map (fun m =>
      if job.jinfo.isExclusive then 1 else leastChunks job run m.ninfo)).sum

/-- All cells are set, and no node is named more often than it has room in the run, by an exclusive
job only once. -/
def FixedWithin (cluster : PlanCluster) (job : PlanJob) (gap : PlanGap) (run : List PlanGap)
    (fixedNnameArr : List (Option String)) : Prop :=
  ∃ names : List String, fixedNnameArr = names.map some ∧ names.length = job.reqNumNodes ∧
    ∀ name ∈ names, ∃ m ∈ gap.nodesMemory, ∃ node, cluster.nodes[m.ninfo]? = some node ∧
      node.name = name ∧ (names.count name : ℤ) ≤
        if job.jinfo.isExclusive then 1 else leastChunks job run m.ninfo

/-- **The gap that is returned serves the job, it is the same whether or not the job is to be
fixed, and the job is fixed to nodes within their room.** -/
theorem findFirstGap_sound {conf : LimitsForClusters} {values : LimitsValues}
    {plan : ClusterPlan} {job : PlanJob} (hgaps : OpenEnded plan.gaps)
    (hest : job.estimatedProcessing ≤ LONG_MAX)
    (hnames : (plan.cluster.nodes.map NodeInfo.name).Nodup)
    (hnodup : ∀ gap ∈ plan.gaps, (gap.nodesMemory.map PlanGapMem.ninfo).Nodup)
    (hcells : job.fixedNnameArr.length = job.reqNumNodes) :
    (findFirstGap conf values plan job true).map (fun result => (result.1, result.2.2))
        = (findFirstGap conf values plan job false).map (fun result => (result.1, result.2.2)) ∧
      ∀ fixJob gap job' values',
        findFirstGap conf values plan job fixJob = .ok (some gap, job', values') →
        ∃ run, Serves conf plan job values' gap run ∧
          (fixJob = true → FixedWithin plan.cluster job gap run job'.fixedNnameArr) := by
  refine ⟨findFirstGap_fixJob true, ?_⟩
  intro fixJob gap job' values' h
  unfold findFirstGap at h
  obtain ⟨⟨search, found⟩, hsearch, h⟩ := bind_ok.mp h
  obtain ⟨rfl, hleft⟩ := Prod.mk.inj (pure_ok.mp h)
  obtain ⟨rfl, rfl⟩ := Prod.mk.inj hleft
  obtain ⟨behind, search₀, hsuffix, husage, hframe, hfound⟩ :=
    searchGaps_found hest plan.gaps hgaps.durations hsearch
  have hdurations : ∀ gap' ∈ gap :: behind, 0 ≤ gap'.duration :=
    fun gap' hgap' => hgaps.durations gap' (hsuffix.subset hgap')
  have honce := hnodup gap (hsuffix.subset List.mem_cons_self)
  obtain ⟨-, hiff, hallowed⟩ := searchNodes_iff hest hdurations husage hfound
  obtain ⟨-, run, hrun, -, hreach⟩ := hiff.mp rfl
  refine ⟨run, ⟨⟨behind, hsuffix, hrun⟩, hallowed rfl run hrun, ?_⟩, ?_⟩
  -- the nodes that serve are those with room for a chunk in every gap of the run
  · refine ⟨gap.nodesMemory.filter (fun m => nodePasses plan.cluster job gap m &&
      decide (1 ≤ leastChunks job run m.ninfo)), List.filter_sublist.subset, ?_, ?_, ?_⟩
    · exact honce.sublist (List.filter_sublist.map _)
    · intro m hm
      have hboth := (List.mem_filter.mp hm).2
      rw [Bool.and_eq_true, decide_eq_true_eq] at hboth
      exact hboth
    · have hsum := le_sum_of_reaches _ hreach
      rw [zero_add] at hsum
      exact hsum.trans (sum_share_le _)
  · rintro rfl
    obtain ⟨tail, rfl, hextend⟩ := jobRun_iff.mp hrun
    have hreset : Filled plan.cluster job (gap :: tail) [] search₀.reset [] := by
      refine ⟨?_, Nat.zero_le _, le_rfl, by simp⟩
      show search₀.fixedNnameArr.map _ = _
      rw [List.map_const', hframe.length_eq]
      show List.replicate job.fixedNnameArr.length none = _
      rw [hcells]
      rfl
    obtain ⟨seen, names, hseen, hfilled, hfull⟩ := searchNodes_filled hest hdurations hextend hnames
      honce _ rfl hreset (by intro gap' hgap'; cases hgap') hfound
    have hplan := hfilled.plan_le
    have hlength := hfilled.length_le
    have hcount : names.length = job.reqNumNodes := by omega
    refine ⟨names, ?_, hcount, ?_⟩
    · show search.fixedNnameArr = _
      rw [hfilled.cells, hcount, Nat.sub_self, List.replicate_zero, List.append_nil]
    · intro name hname
      obtain ⟨m, hm, node, hnode, hsame, hcounted⟩ := hfilled.counted name hname
      exact ⟨m, hseen hm, node, hnode, hsame, hcounted.trans (clipChunks_le_share job _)⟩

/-- Three nodes with one CPU each, the second one with the given scratch space. -/
def idleGap (scratchLocal : ℤ) : PlanGap where
  startTime := 0
  endTime := LONG_MAX
  duration := LONG_MAX
  usage := 3
  nodesMemory := [⟨0, 1, 0, 10⟩, ⟨1, 1, 0, scratchLocal⟩, ⟨2, 1, 0, 10⟩]
  followingJob := none

/-- The plan with this gap only. -/
def idlePlanOf (scratchLocal : ℤ) : ClusterPlan where
  cluster := ⟨"", [plainNode "a" 1 0, plainNode "b" 1 0, plainNode "c" 1 0], 3, 3, 0⟩
  jobs := []
  gaps := [idleGap scratchLocal]
  limits := []

/-- A job of two chunks with one unit of scratch space each. -/
def scratchJob : PlanJob :=
  PlanJob.filled 0 { (default : JobInfo) with scratchLocal := 1 } 2 2 Nat.two_pos 0 100 0 (-1)

/-- The gap is its own run. -/
theorem jobRun_idleGap (scratchLocal : ℤ) (run : List PlanGap) :
    JobRun scratchJob [idleGap scratchLocal] run ↔ run = [idleGap scratchLocal] := by
  have hextend : extend PlanGap.duration Follows scratchJob.estimatedProcessing
      (idleGap scratchLocal) [] (idleGap scratchLocal).duration = some [] :=
    extend_of_le (by show (100 : ℤ) ≤ LONG_MAX; decide)
  rw [jobRun_iff, hextend]
  constructor
  · rintro ⟨tail, rfl, htail⟩
    cases htail
    rfl
  · rintro rfl
    exact ⟨[], rfl, rfl⟩

/-- For a while only the first node is idle. -/
def earlyGap : PlanGap where
  startTime := 0
  endTime := 40
  duration := 40
  usage := 1
  nodesMemory := [⟨0, 1, 0, 10⟩]
  followingJob := none

/-- After a break all nodes are. -/
def middleGap : PlanGap where
  startTime := 60
  endTime := 110
  duration := 50
  usage := 3
  nodesMemory := [⟨0, 1, 0, 10⟩, ⟨1, 1, 0, 10⟩, ⟨2, 1, 0, 10⟩]
  followingJob := none

/-- Then the second one is taken. -/
def lateGap : PlanGap where
  startTime := 110
  endTime := LONG_MAX
  duration := LONG_MAX
  usage := 2
  nodesMemory := [⟨0, 1, 0, 10⟩, ⟨2, 1, 0, 10⟩]
  followingJob := none

/-- The plan with these gaps. -/
def brokenPlan : ClusterPlan := { idlePlanOf 10 with gaps := [earlyGap, middleGap, lateGap] }

/-- The gaps are as the search expects them. -/
theorem openEnded_brokenPlan : OpenEnded brokenPlan.gaps := by
  refine ⟨[earlyGap, middleGap], lateGap, rfl, ?_, ?_, rfl⟩
  · intro gap hgap
    rcases List.mem_cons.mp hgap with rfl | hgap
    · exact ⟨by decide, rfl⟩
    · obtain rfl := List.mem_singleton.mp hgap
      exact ⟨by decide, rfl⟩
  · show List.IsChain _ [earlyGap, middleGap, lateGap]
    simp [earlyGap, middleGap, lateGap]

/-- Two gaps together are long enough for the job, and on the first and the third node it has room
in both. -/
theorem findFirstGap_sound_broken :
    ∃ job' values', findFirstGap oneClass ⟨[], []⟩ brokenPlan scratchJob true
        = .ok (some middleGap, job', values') ∧
      job'.fixedNnameArr = [some "a", some "c"] ∧
      ∃ run, Serves oneClass brokenPlan scratchJob values' middleGap run ∧
        FixedWithin brokenPlan.cluster scratchJob middleGap run job'.fixedNnameArr := by
  have hrun : (do
      let result ← findFirstGap oneClass ⟨[], []⟩ brokenPlan scratchJob true
      return (result.1, result.2.1.fixedNnameArr) : Run (Option PlanGap × List (Option String)))
      = .ok (some middleGap, [some "a", some "c"]) := by
    decide +kernel
  obtain ⟨⟨found, job', values'⟩, hfound, hresult⟩ := bind_ok.mp hrun
  obtain ⟨hgap, hfixed⟩ := Prod.mk.inj (pure_ok.mp hresult)
  obtain rfl : found = some middleGap := hgap
  obtain ⟨-, hsound⟩ := @findFirstGap_sound oneClass ⟨[], []⟩ brokenPlan scratchJob
    openEnded_brokenPlan (by decide) (by decide) (by decide) rfl
  obtain ⟨run, hserves, hwithin⟩ := hsound true _ _ _ hfound
  exact ⟨job', values', hfound, hfixed, run, hserves, hwithin rfl⟩

/-- **The search returns the first gap that fits, if and only if in that gap some initial part
of the counts, with their signs, adds up to the nodes of the job.** -/
theorem findFirstGap_firstFit_iff {conf : LimitsForClusters} {values values' : LimitsValues}
    {plan : ClusterPlan} {job job' : PlanJob} {fixJob : Bool} {found : Option PlanGap}
    (hgaps : OpenEnded plan.gaps) (hest : job.estimatedProcessing ≤ LONG_MAX)
    (hshared : job.jinfo.isExclusive = false)
    (husage : job.usage = job.reqPpn * job.reqNumNodes)
    (hsum : ∀ gap ∈ plan.gaps,
      gap.usage = (gap.nodesMemory.map (fun m => (m.numCpus : ℤ))).sum)
    (hnodup : ∀ gap ∈ plan.gaps, (gap.nodesMemory.map PlanGapMem.ninfo).Nodup)
    (h : findFirstGap conf values plan job fixJob = .ok (found, job', values')) :
    FirstHit (Fits conf plan.cluster plan.limits job values) plan.gaps found ↔
      ∀ gap behind, IsFirst (Fits conf plan.cluster plan.limits job values) plan.gaps gap behind →
        ∀ run, JobRun job (gap :: behind) run → ∃ part,
          part <+: signedCounts plan.cluster job gap run gap.nodesMemory ∧
            (job.reqNumNodes : ℤ) ≤ part.sum := by
  unfold findFirstGap at h
  obtain ⟨⟨search, found'⟩, hsearch, h⟩ := bind_ok.mp h
  obtain ⟨rfl, -⟩ := Prod.mk.inj (pure_ok.mp h)
  obtain ⟨-, hfirst⟩ := searchGaps_first hest plan.gaps hgaps.durations hsearch
  have hmem : ∀ {gap : PlanGap} {behind : List PlanGap}, gap :: behind <:+ plan.gaps →
      gap ∈ plan.gaps := fun hsuffix => hsuffix.subset List.mem_cons_self
  rw [hfirst.weaken_iff hgaps.nodup (fun gap behind _ haccepted => haccepted.fits hshared)]
  constructor
  · intro hall gap behind hgap
    exact (hgap.holds.accepted_iff hshared husage (hsum gap (hmem hgap.suffix))
      (hnodup gap (hmem hgap.suffix))).mp (hall gap behind hgap)
  · intro hall gap behind hgap
    exact (hgap.holds.accepted_iff hshared husage (hsum gap (hmem hgap.suffix))
      (hnodup gap (hmem hgap.suffix))).mpr (hall gap behind hgap)

/-- The first gap is passed over, it ends too early; in the second one two nodes suffice. -/
theorem findFirstGap_firstFit_broken :
    ∃ job' values', findFirstGap oneClass ⟨[], []⟩ brokenPlan scratchJob true
        = .ok (some middleGap, job', values') ∧
      FirstHit (Fits oneClass brokenPlan.cluster [] scratchJob ⟨[], []⟩) brokenPlan.gaps
        (some middleGap) := by
  have hrun : (do
      let result ← findFirstGap oneClass ⟨[], []⟩ brokenPlan scratchJob true
      return result.1 : Run (Option PlanGap)) = .ok (some middleGap) := by
    decide +kernel
  obtain ⟨⟨found, job', values'⟩, hfound, hresult⟩ := bind_ok.mp hrun
  obtain rfl : found = some middleGap := pure_ok.mp hresult
  refine ⟨job', values', hfound, (findFirstGap_firstFit_iff openEnded_brokenPlan (by decide)
    rfl rfl (by decide) (by decide) hfound).mpr ?_⟩
  intro gap behind hgap run hrun
  obtain ⟨tail, rfl, htail⟩ := jobRun_iff.mp hrun
  have hsuffix : gap :: behind <:+ [earlyGap, middleGap, lateGap] := hgap.suffix
  rcases List.suffix_cons_iff.mp hsuffix with heq | hsuffix
  · -- no run starts there
    cases heq
    cases htail
  rcases List.suffix_cons_iff.mp hsuffix with heq | hsuffix
  · cases heq
    cases htail
    exact ⟨[1, 1], by decide +kernel, by decide⟩
  rcases List.suffix_cons_iff.mp hsuffix with heq | hnil
  · cases heq
    cases htail
    exact ⟨[1, 1], by decide +kernel, by decide⟩
  · cases List.suffix_nil.mp hnil

/-- Where the second node has no scratch space, it is counted with `-1`, and the search ends
without a gap though the first and the third node have room for the job. -/
theorem fitting_gap_passed_over :
    ∃ job' values', findFirstGap oneClass ⟨[], []⟩ (idlePlanOf (-1)) scratchJob true
        = .ok (none, job', values') ∧
      ¬ FirstHit (Fits oneClass (idlePlanOf (-1)).cluster [] scratchJob ⟨[], []⟩)
        (idlePlanOf (-1)).gaps none := by
  have hrun : (do
      let result ← findFirstGap oneClass ⟨[], []⟩ (idlePlanOf (-1)) scratchJob true
      return result.1 : Run (Option PlanGap)) = .ok none := by
    decide +kernel
  obtain ⟨⟨found, job', values'⟩, hfound, hresult⟩ := bind_ok.mp hrun
  obtain rfl : found = none := pure_ok.mp hresult
  refine ⟨job', values', hfound, ?_⟩
  intro hnone
  apply hnone (idleGap (-1)) [] List.suffix_rfl
  refine ⟨[idleGap (-1)], (jobRun_idleGap (-1) _).mpr rfl, ⟨⟨[3], [3]⟩, ?_, ?_⟩, ?_⟩
  · decide +kernel
  · intro gap hgap
    rw [List.mem_singleton.mp hgap]
    decide +kernel
  · decide +kernel

end PlanSched
