/-
# The search for a gap

Models `find_first_gap`, `check_node_in_gap` and `check_considered_gaps`
(`plan_gaps.cpp`): the gaps are tried from the first on, and in each gap its nodes one
after the other.  A node counts for as many chunks of the job as fit on it in the gap
and, where the gap is too short, in the gaps that follow without a break.  As soon as
there are nodes enough and the limits allow it, the gap is returned, and the job is fixed
to the nodes counted.

* `GapPromise`: what the search promises of the nodes it fixed;
* `findFirstGap_promise`: a gap is returned with such a promise only.
-/
import PlanSched.Replanning

namespace PlanSched

open CheckedRun

/-! ## Nodes in a gap -/

/-- `check_node_in_gap`: how many chunks fit on the node. -/
def checkNodeInGap (gap : PlanGap) (ninfo reqUsage : ℕ) (reqMem reqScratchLocal : ℤ) : ℤ :=
  match gap.nodesMemory.find? (fun m => m.ninfo == ninfo) with
  | none => 0
  | some m =>
      let res : ℤ := (m.numCpus / reqUsage : ℕ)
      let res :=
        if 0 < reqMem ∧ m.availableMem.tdiv reqMem < res then m.availableMem.tdiv reqMem else res
      if 0 < reqScratchLocal ∧ m.availableScratchLocal.tdiv reqScratchLocal < res then
        m.availableScratchLocal.tdiv reqScratchLocal
      else res

/-- The chunks of the job that the search counts for a node; an exclusive job gets one. -/
def chunksInGap (job : PlanJob) (gap : PlanGap) (ninfo : ℕ) : ℤ :=
  let max := checkNodeInGap gap ninfo job.reqPpn job.reqMem job.reqScratchLocal
  if job.jinfo.isExclusive ∧ 0 < max then 1 else max

/-- The nodes of a gap that are skipped.  Scratch space of `-1` stands for a node that
has no such resource. -/
def nodeRefused (job : PlanJob) (gap : PlanGap) (m : PlanGapMem) (node : NodeInfo) : Bool :=
  node.isOut ||
    (decide (node.availBefore ≠ 0) &&
      decide (node.availBefore < gap.startTime + job.estimatedProcessing)) ||
    decide (m.numCpus < job.reqPpn) ||
    decide (m.availableMem < job.reqMem) ||
    (decide (-1 < m.availableScratchLocal) &&
      decide (m.availableScratchLocal < job.reqScratchLocal)) ||
    (decide (node.walltimeLimitMin ≠ 0) &&
      decide (job.estimatedProcessing < node.walltimeLimitMin)) ||
    (decide (node.walltimeLimitMax ≠ 0) &&
      decide (node.walltimeLimitMax < job.estimatedProcessing))

/-! ## The state of the search -/

/-- The variables of `find_first_gap`; `nextFollows` tells whether `next_gap` starts where
the gap before it ends, and is `none` as long as `next_gap` is not set. -/
structure GapSearch where
  fixedNnameArr : List (Option String)
  planNumNodes : ℤ
  consideredGaps : List PlanGap
  nextFollows : Option Bool
  values : LimitsValues

/-- The node is counted for `max` chunks, and with `fix_job` the job is fixed to it. -/
def GapSearch.countNode (search : GapSearch) (fixJob : Bool) (job : PlanJob) (name : String)
    (max : ℤ) : GapSearch :=
  let plan := min (search.planNumNodes + max) job.reqNumNodes
  { search with
    planNumNodes := plan
    fixedNnameArr :=
      if fixJob then
        search.fixedNnameArr.mapIdx (fun j cell =>
          if (j : ℤ) < plan ∧ cell = none then some name else cell)
      else search.fixedNnameArr }

/-- A gap joins the considered ones. -/
def GapSearch.consider (search : GapSearch) (gap : PlanGap) : GapSearch :=
  { search with consideredGaps := search.consideredGaps ++ [gap] }

/-- The search of one gap starts. -/
def GapSearch.reset (search : GapSearch) : GapSearch :=
  { search with
    fixedNnameArr := search.fixedNnameArr.map (fun _ => none)
    planNumNodes := 0
    consideredGaps := [] }

/-- The loop of `check_considered_gaps`. -/
def gapsAllowed (conf : LimitsForClusters) (cluster : PlanCluster) (values : LimitsValues)
    (limits : List PlanLimit) (job : PlanJob) : List PlanGap → Run Bool
  | [] => .ok true
  | gap :: gaps => do
      if ← limitsIsGapOk conf cluster values limits job gap then
        gapsAllowed conf cluster values limits job gaps
      else return false

/-- `check_considered_gaps`, which brings the limit values up to date. -/
def checkConsideredGaps (conf : LimitsForClusters) (cluster : PlanCluster)
    (limits : List PlanLimit) (job : PlanJob) (search : GapSearch) : Run (GapSearch × Bool) := do
  let values ← updateLimitsValues conf cluster search.values
  let ok ← gapsAllowed conf cluster values limits job search.consideredGaps
  return ({ search with values := values }, ok)

/-! ## The loops -/

/-- How the loop over the following gaps ends. -/
inductive Followed : Type where
  | found
  | ended (gapOk : Bool) (duration : ℤ)

/-- The loop over the gaps behind `previous`, until they are together long enough. -/
def followGaps (conf : LimitsForClusters) (cluster : PlanCluster) (limits : List PlanLimit)
    (fixJob : Bool) (job : PlanJob) (ninfo : ℕ) (name : String) :
    PlanGap → List PlanGap → ℤ → ℤ → GapSearch → Run (GapSearch × Followed)
  | _, [], duration, _, search => .ok (search, .ended true duration)
  | previous, next :: behind, duration, max, search =>
      if job.estimatedProcessing ≤ duration then .ok (search, .ended true duration)
      else if next.startTime ≠ previous.endTime then
        .ok ({ search with nextFollows := some false }, .ended false duration)
      else if chunksInGap job next ninfo = 0 then
        .ok ({ search with nextFollows := some true }, .ended false duration)
      else
        let max := min max (chunksInGap job next ninfo)
        let duration := if next.duration = LONG_MAX then LONG_MAX else duration + next.duration
        let search := { search with nextFollows := some true }
        let search :=
          if job.estimatedProcessing ≤ duration then search.countNode fixJob job name max
          else search
        let search := search.consider next
        if job.estimatedProcessing ≤ duration ∧ search.planNumNodes = (job.reqNumNodes : ℤ) then do
          let (search, ok) ← checkConsideredGaps conf cluster limits job search
          return (search, if ok then .found else .ended true duration)
        else followGaps conf cluster limits fixJob job ninfo name next behind duration max search

/-- How the work on a node ends. -/
inductive NodeEnd : Type where
  | found
  | nextNode
  | nextGap

/-- The last test of the work on a node. -/
def closeNode (conf : LimitsForClusters) (cluster : PlanCluster) (limits : List PlanLimit)
    (job : PlanJob) (search : GapSearch) : Run (GapSearch × NodeEnd) :=
  if (job.reqNumNodes : ℤ) ≤ search.planNumNodes then do
    let (search, ok) ← checkConsideredGaps conf cluster limits job search
    return (search, if ok then .found else .nextNode)
  else return (search, .nextNode)

/-- The work on a node that was not skipped, in the gap `current` with the gaps `behind`. -/
def visitNode (conf : LimitsForClusters) (cluster : PlanCluster) (limits : List PlanLimit)
    (fixJob : Bool) (job : PlanJob) (current : PlanGap) (behind : List PlanGap) (ninfo : ℕ)
    (name : String) (search : GapSearch) : Run (GapSearch × NodeEnd) :=
  let max := chunksInGap job current ninfo
  let search := search.consider current
  if current.duration < job.estimatedProcessing then do
    let (search, followed) ← followGaps conf cluster limits fixJob job ninfo name current behind
      current.duration max search
    match followed with
    | .found => return (search, .found)
    | .ended gapOk duration => do
        let follows ← deref search.nextFollows
        if follows = false then return (search, .nextGap)
        else if gapOk ∧ job.estimatedProcessing ≤ duration then
          closeNode conf cluster limits job search
        else return (search, .nextNode)
  else closeNode conf cluster limits job (search.countNode fixJob job name max)

/-- The loop over the nodes of a gap. -/
def searchNodes (conf : LimitsForClusters) (cluster : PlanCluster) (limits : List PlanLimit)
    (fixJob : Bool) (job : PlanJob) (current : PlanGap) (behind : List PlanGap) :
    List PlanGapMem → GapSearch → Run (GapSearch × Bool)
  | [], search => .ok (search, false)
  | m :: rest, search => do
      let node ← getAt cluster.nodes m.ninfo
      if nodeRefused job current m node || lacksGpu job node then
        searchNodes conf cluster limits fixJob job current behind rest search
      else do
        let (search, nodeEnd) ← visitNode conf cluster limits fixJob job current behind m.ninfo
          node.name search
        match nodeEnd with
        | .found => return (search, true)
        | .nextNode => searchNodes conf cluster limits fixJob job current behind rest search
        | .nextGap => return (search, false)

/-- The loop over the gaps. -/
def searchGaps (conf : LimitsForClusters) (cluster : PlanCluster) (limits : List PlanLimit)
    (fixJob : Bool) (job : PlanJob) : List PlanGap → GapSearch → Run (GapSearch × Option PlanGap)
  | [], search => .ok (search, none)
  | gap :: behind, search =>
      if gap.usage < job.usage then searchGaps conf cluster limits fixJob job behind search
      else do
        let (search, found) ← searchNodes conf cluster limits fixJob job gap behind
          gap.nodesMemory search.reset
        if found then return (search, some gap)
        else searchGaps conf cluster limits fixJob job behind search

/-- `find_first_gap` on the plan of a cluster: the gap, the job as the search leaves it, and
the limit values. -/
def findFirstGap (conf : LimitsForClusters) (values : LimitsValues) (plan : ClusterPlan)
    (job : PlanJob) (fixJob : Bool) : Run (Option PlanGap × PlanJob × LimitsValues) := do
  let (search, found) ← searchGaps conf plan.cluster plan.limits fixJob job plan.gaps
    ⟨job.fixedNnameArr, 0, [], none, values⟩
  return (found, { job with fixedNnameArr := search.fixedNnameArr }, search.values)

/-! ## What the search promises -/

/-- The gap offers its entry `m` to the job, and so many CPUs that the node can take as
many chunks as often as it is named. -/
structure Offers (cluster : PlanCluster) (job : PlanJob) (gap : PlanGap) (names : List String)
    (name : String) (m : PlanGapMem) (node : NodeInfo) : Prop where
  node_eq : cluster.nodes[m.ninfo]? = some node
  name_eq : node.name = name
  accepted : nodeRefused job gap m node = false
  gpu : lacksGpu job node = false
  cpus : names.count name * job.reqPpn ≤ m.numCpus

/-- What the search promises when it fixes the job to the nodes `names`: there is one for
each chunk, and the gap offers them all. -/
structure GapPromise (cluster : PlanCluster) (job : PlanJob) (gap : PlanGap)
    (names : List String) : Prop where
  length_eq : names.length = job.reqNumNodes
  offered : ∀ name ∈ names, ∃ m ∈ gap.nodesMemory, ∃ node, Offers cluster job gap names name m node

/-- The state of the search of a gap, after the entries `seen`: the cells filled so far. -/
structure Counted (cluster : PlanCluster) (job : PlanJob) (gap : PlanGap)
    (seen : List PlanGapMem) (search : GapSearch) (names : List String) : Prop where
  cells : search.fixedNnameArr =
    names.map some ++ List.replicate (job.reqNumNodes - names.length) none
  length_le : names.length ≤ job.reqNumNodes
  plan_le : search.planNumNodes ≤ names.length
  offered : ∀ name ∈ names, ∃ m ∈ seen, ∃ node, Offers cluster job gap names name m node

section Search

variable {conf : LimitsForClusters} {cluster : PlanCluster} {limits : List PlanLimit}
  {job : PlanJob} {gap : PlanGap} {seen : List PlanGapMem} {search search' : GapSearch}
  {names : List String}

/-- The other variables of the search do not matter. -/
theorem Counted.congr (h : Counted cluster job gap seen search names)
    (hcells : search'.fixedNnameArr = search.fixedNnameArr)
    (hplan : search'.planNumNodes = search.planNumNodes) :
    Counted cluster job gap seen search' names :=
  ⟨hcells.trans h.cells, h.length_le, hplan.le.trans h.plan_le, h.offered⟩

/-- More entries were seen. -/
theorem Counted.mono (h : Counted cluster job gap seen search names) {seen' : List PlanGapMem}
    (hseen : seen ⊆ seen') : Counted cluster job gap seen' search names := by
  refine ⟨h.cells, h.length_le, h.plan_le, ?_⟩
  intro name hname
  obtain ⟨m, hm, hoffers⟩ := h.offered name hname
  exact ⟨m, hseen hm, hoffers⟩

/-- A node that is looked at and not counted changes nothing. -/
theorem Counted.snoc (h : Counted cluster job gap seen search names) (m : PlanGapMem) :
    Counted cluster job gap (seen ++ [m]) search names :=
  h.mono (List.subset_append_left _ _)

/-- The cells after a node was counted. -/
theorem mapIdx_fill (names : List String) (name : String) (r k : ℕ) (hk : k ≤ r) (plan : ℤ)
    (hplan : ∀ j : ℕ, names.length ≤ j → ((j : ℤ) < plan ↔ j < names.length + k)) :
    (names.map some ++ List.replicate r none).mapIdx (fun j cell =>
      if (j : ℤ) < plan ∧ cell = none then some name else cell) =
      (names ++ List.replicate k name).map some ++ List.replicate (r - k) none := by
  apply List.ext_getElem?
  intro j
  rw [List.getElem?_mapIdx]
  rcases Nat.lt_or_ge j names.length with hj | hj
  · -- a cell filled before
    rw [List.getElem?_append_left (by simpa using hj),
      List.getElem?_append_left (by simp; omega), List.map_append,
      List.getElem?_append_left (by simpa using hj), List.getElem?_map,
      List.getElem?_eq_getElem hj]
    simp
  · rw [List.getElem?_append_right (by simpa using hj), List.length_map,
      List.getElem?_replicate, List.map_append, List.append_assoc,
      List.getElem?_append_right (by simpa using hj), List.length_map, List.map_replicate]
    rcases Nat.lt_or_ge j (names.length + k) with hjk | hjk
    · -- a cell filled now
      rw [if_pos (by omega), List.getElem?_append_left (by simp; omega),
        List.getElem?_replicate, if_pos (by omega)]
      simp [(hplan j hj).mpr hjk]
    · -- a cell that stays empty
      have hnot : ¬ ((j : ℤ) < plan) := by
        rw [hplan j hj]
        omega
      rw [List.getElem?_append_right (by simp; omega), List.length_replicate,
        List.getElem?_replicate]
      by_cases hjr : j - names.length < r
      · rw [if_pos hjr, if_pos (by omega)]
        simp [hnot]
      · rw [if_neg hjr, if_neg (by omega)]
        rfl

/-- To count a node enters its name into the next cells, at most as often as it counts. -/
theorem countNode_cells {name : String} {max : ℤ}
    (hcells : search.fixedNnameArr =
      names.map some ++ List.replicate (job.reqNumNodes - names.length) none)
    (hlength : names.length ≤ job.reqNumNodes) (hplan : search.planNumNodes ≤ names.length) :
    ∃ k : ℕ, ((k : ℤ) ≤ max ∨ k = 0) ∧
      (search.countNode true job name max).fixedNnameArr =
        (names ++ List.replicate k name).map some ++
          List.replicate (job.reqNumNodes - (names ++ List.replicate k name).length) none ∧
      (names ++ List.replicate k name).length ≤ job.reqNumNodes ∧
      (search.countNode true job name max).planNumNodes
        ≤ (names ++ List.replicate k name).length := by
  set plan : ℤ := min (search.planNumNodes + max) job.reqNumNodes with hplan'
  set k : ℕ := (plan - names.length).toNat with hk
  have hkr : k ≤ job.reqNumNodes - names.length := by omega
  refine ⟨k, by omega, ?_, ?_, ?_⟩
  · show search.fixedNnameArr.mapIdx _ = _
    rw [hcells, mapIdx_fill names name _ k hkr plan (by intro j hj; omega),
      List.length_append, List.length_replicate, Nat.sub_sub]
  · rw [List.length_append, List.length_replicate]
    omega
  · show plan ≤ _
    rw [List.length_append, List.length_replicate]
    omega

/-- To count a node that was not counted before, for no more chunks than it has CPUs
for, keeps the promise. -/
theorem Counted.countNode (h : Counted cluster job gap seen search names) {m : PlanGapMem}
    {node : NodeInfo} {max : ℤ} (hnode : cluster.nodes[m.ninfo]? = some node)
    (hnew : node.name ∉ names) (haccepted : nodeRefused job gap m node = false)
    (hgpu : lacksGpu job node = false) (hmax : max * job.reqPpn ≤ m.numCpus) :
    ∃ names', Counted cluster job gap (seen ++ [m]) (search.countNode true job node.name max)
      names' := by
  obtain ⟨k, hkmax, hcells, hlength, hplan⟩ := countNode_cells h.cells h.length_le h.plan_le
  refine ⟨names ++ List.replicate k node.name, hcells, hlength, hplan, ?_⟩
  intro name hname
  rcases List.mem_append.mp hname with hname | hname
  · -- a name from before is another one, so it is counted as often as before
    obtain ⟨m', hm', node', hoffers⟩ := h.offered name hname
    have hne : node.name ≠ name := by
      rintro rfl
      exact hnew hname
    refine ⟨m', List.mem_append_left _ hm', node', hoffers.node_eq, hoffers.name_eq,
      hoffers.accepted, hoffers.gpu, ?_⟩
    rw [List.count_append, List.count_replicate, if_neg (by simpa using hne)]
    exact hoffers.cpus
  · have hname' := List.eq_of_mem_replicate hname
    subst hname'
    refine ⟨m, by simp, node, hnode, rfl, haccepted, hgpu, ?_⟩
    rw [List.count_append, List.count_eq_zero_of_not_mem hnew, List.count_replicate_self,
      Nat.zero_add]
    rcases hkmax with hkmax | hkzero
    · have hmul : (k : ℤ) * job.reqPpn ≤ max * job.reqPpn :=
        mul_le_mul_of_nonneg_right hkmax (Int.natCast_nonneg _)
      exact_mod_cast hmul.trans hmax
    · rw [hkzero, Nat.zero_mul]
      exact Nat.zero_le _

/-- No more chunks fit on a node than it has CPUs for in the gap. -/
theorem chunksInGap_mul_le {m : PlanGapMem} (hm : m ∈ gap.nodesMemory)
    (hnodup : (gap.nodesMemory.map PlanGapMem.ninfo).Nodup) :
    chunksInGap job gap m.ninfo * job.reqPpn ≤ m.numCpus := by
  have hfind : gap.nodesMemory.find? (fun m' => m'.ninfo == m.ninfo) = some m := by
    cases hfind : gap.nodesMemory.find? (fun m' => m'.ninfo == m.ninfo) with
    | none => exact absurd (List.find?_eq_none.mp hfind m hm) (by simp)
    | some m' =>
        have heq : m'.ninfo = m.ninfo := by simpa using List.find?_some hfind
        rw [List.inj_on_of_nodup_map hnodup (List.mem_of_find?_eq_some hfind) hm heq]
  have hcheck : checkNodeInGap gap m.ninfo job.reqPpn job.reqMem job.reqScratchLocal ≤
      ((m.numCpus / job.reqPpn : ℕ) : ℤ) := by
    unfold checkNodeInGap
    rw [hfind]
    dsimp only
    split_ifs
    all_goals omega
  have hchunks : chunksInGap job gap m.ninfo ≤ ((m.numCpus / job.reqPpn : ℕ) : ℤ) := by
    unfold chunksInGap
    dsimp only
    split
    · omega
    · exact hcheck
  calc chunksInGap job gap m.ninfo * (job.reqPpn : ℤ)
      ≤ ((m.numCpus / job.reqPpn : ℕ) : ℤ) * job.reqPpn :=
        mul_le_mul_of_nonneg_right hchunks (Int.natCast_nonneg _)
    _ ≤ m.numCpus := by exact_mod_cast Nat.div_mul_le_self m.numCpus job.reqPpn

/-- The check of the limits keeps what was counted. -/
theorem checkConsideredGaps_keeps {ok : Bool}
    (h : checkConsideredGaps conf cluster limits job search = .ok (search', ok)) :
    search'.fixedNnameArr = search.fixedNnameArr ∧
      search'.planNumNodes = search.planNumNodes := by
  unfold checkConsideredGaps at h
  obtain ⟨values, -, h⟩ := bind_ok.mp h
  obtain ⟨ok', -, h⟩ := bind_ok.mp h
  obtain ⟨rfl, -⟩ := Prod.mk.inj (pure_ok.mp h)
  exact ⟨rfl, rfl⟩

/-- An entry of the gap that the search has come to. -/
structure Visited (cluster : PlanCluster) (job : PlanJob) (gap : PlanGap) (names : List String)
    (m : PlanGapMem) (node : NodeInfo) : Prop where
  node_eq : cluster.nodes[m.ninfo]? = some node
  new : node.name ∉ names
  accepted : nodeRefused job gap m node = false
  gpu : lacksGpu job node = false

/-- Gaps that are long enough are not followed any further. -/
theorem followGaps_long {fixJob : Bool} {ninfo : ℕ} {name : String} {previous : PlanGap}
    {duration max : ℤ} (hlong : job.estimatedProcessing ≤ duration) (behind : List PlanGap) :
    followGaps conf cluster limits fixJob job ninfo name previous behind duration max search
      = .ok (search, .ended true duration) := by
  cases behind with
  | nil => rw [followGaps]
  | cons next behind => rw [followGaps, if_pos hlong]

/-- Following the gaps counts the node at most once. -/
theorem followGaps_counted {m : PlanGapMem} {node : NodeInfo}
    (hvisit : Visited cluster job gap names m node) (behind : List PlanGap) :
    ∀ {previous : PlanGap} {duration max : ℤ} {search search' : GapSearch} {followed : Followed},
      Counted cluster job gap seen search names → max * job.reqPpn ≤ m.numCpus →
      followGaps conf cluster limits true job m.ninfo node.name previous behind duration max search
        = .ok (search', followed) →
      (∃ names', Counted cluster job gap (seen ++ [m]) search' names') ∧
        (followed = .found → (job.reqNumNodes : ℤ) ≤ search'.planNumNodes) := by
  induction behind with
  | nil =>
      intro previous duration max search search' followed hcounted _ h
      rw [followGaps] at h
      cases h
      exact ⟨⟨names, hcounted.snoc m⟩, by intro hcontra; cases hcontra⟩
  | cons next behind ih =>
      intro previous duration max search search' followed hcounted hmax h
      rw [followGaps] at h
      split at h
      · cases h
        exact ⟨⟨names, hcounted.snoc m⟩, by intro hcontra; cases hcontra⟩
      split at h
      · cases h
        exact ⟨⟨names, (hcounted.snoc m).congr rfl rfl⟩, by intro hcontra; cases hcontra⟩
      split at h
      · cases h
        exact ⟨⟨names, (hcounted.snoc m).congr rfl rfl⟩, by intro hcontra; cases hcontra⟩
      dsimp only at h
      set duration' := if next.duration = LONG_MAX then LONG_MAX else duration + next.duration
      have hmax' : min max (chunksInGap job next m.ninfo) * job.reqPpn ≤ m.numCpus :=
        (mul_le_mul_of_nonneg_right (min_le_left _ _) (Int.natCast_nonneg _)).trans hmax
      have hfollowed : Counted cluster job gap seen
          { search with nextFollows := some true } names := hcounted.congr rfl rfl
      by_cases hlong : job.estimatedProcessing ≤ duration'
      · -- the node is counted, and no further gap is looked at
        rw [if_pos hlong] at h
        obtain ⟨names', hnames'⟩ := hfollowed.countNode hvisit.node_eq hvisit.new hvisit.accepted
          hvisit.gpu hmax'
        split at h
        · next hfull =>
            obtain ⟨⟨search₁, ok⟩, hcheck, h⟩ := bind_ok.mp h
            obtain ⟨hcells, hplan⟩ := checkConsideredGaps_keeps hcheck
            obtain ⟨rfl, -⟩ := Prod.mk.inj (pure_ok.mp h)
            refine ⟨⟨names', hnames'.congr hcells hplan⟩, fun _ => ?_⟩
            rw [hplan]
            exact hfull.2.ge
        · rw [followGaps_long hlong] at h
          cases h
          exact ⟨⟨names', hnames'.congr rfl rfl⟩, by intro hcontra; cases hcontra⟩
      · rw [if_neg hlong, if_neg (fun hfull => hlong hfull.1)] at h
        have hnext : Counted cluster job gap seen
            (GapSearch.consider { search with nextFollows := some true } next) names :=
          hcounted.congr rfl rfl
        exact ih hnext hmax' h

/-- The last test keeps what was counted, and a gap is found for a full plan only. -/
theorem closeNode_keeps {nodeEnd : NodeEnd}
    (h : closeNode conf cluster limits job search = .ok (search', nodeEnd)) :
    search'.fixedNnameArr = search.fixedNnameArr ∧
      search'.planNumNodes = search.planNumNodes ∧
      (nodeEnd = .found → (job.reqNumNodes : ℤ) ≤ search'.planNumNodes) := by
  unfold closeNode at h
  split at h
  · next hfull =>
      obtain ⟨⟨search₁, ok⟩, hcheck, h⟩ := bind_ok.mp h
      obtain ⟨hcells, hplan⟩ := checkConsideredGaps_keeps hcheck
      obtain ⟨rfl, -⟩ := Prod.mk.inj (pure_ok.mp h)
      exact ⟨hcells, hplan, fun _ => hfull.trans hplan.ge⟩
  · obtain ⟨rfl, rfl⟩ := Prod.mk.inj (pure_ok.mp h)
    exact ⟨rfl, rfl, by intro hcontra; cases hcontra⟩

/-- The work on a node counts it at most once. -/
theorem visitNode_counted {m : PlanGapMem} {node : NodeInfo} {behind : List PlanGap}
    {nodeEnd : NodeEnd} (hcounted : Counted cluster job gap seen search names)
    (hvisit : Visited cluster job gap names m node) (hm : m ∈ gap.nodesMemory)
    (hnodup : (gap.nodesMemory.map PlanGapMem.ninfo).Nodup)
    (h : visitNode conf cluster limits true job gap behind m.ninfo node.name search
      = .ok (search', nodeEnd)) :
    (∃ names', Counted cluster job gap (seen ++ [m]) search' names') ∧
      (nodeEnd = .found → (job.reqNumNodes : ℤ) ≤ search'.planNumNodes) := by
  have hmax : chunksInGap job gap m.ninfo * job.reqPpn ≤ m.numCpus :=
    chunksInGap_mul_le hm hnodup
  have hconsidered : Counted cluster job gap seen (search.consider gap) names :=
    hcounted.congr rfl rfl
  unfold visitNode at h
  dsimp only at h
  split at h
  · obtain ⟨⟨search₁, followed⟩, hfollow, h⟩ := bind_ok.mp h
    obtain ⟨⟨names', hnames'⟩, hfound⟩ := followGaps_counted hvisit behind hconsidered hmax hfollow
    cases followed with
    | found =>
        obtain ⟨rfl, rfl⟩ := Prod.mk.inj (pure_ok.mp h)
        exact ⟨⟨names', hnames'⟩, fun _ => hfound rfl⟩
    | ended gapOk duration =>
        obtain ⟨follows, -, h⟩ := bind_ok.mp h
        split at h
        · obtain ⟨rfl, rfl⟩ := Prod.mk.inj (pure_ok.mp h)
          exact ⟨⟨names', hnames'⟩, by intro hcontra; cases hcontra⟩
        · split at h
          · obtain ⟨hcells, hplan, hfull⟩ := closeNode_keeps h
            exact ⟨⟨names', hnames'.congr hcells hplan⟩, hfull⟩
          · obtain ⟨rfl, rfl⟩ := Prod.mk.inj (pure_ok.mp h)
            exact ⟨⟨names', hnames'⟩, by intro hcontra; cases hcontra⟩
  · obtain ⟨names', hnames'⟩ := hconsidered.countNode hvisit.node_eq hvisit.new hvisit.accepted
      hvisit.gpu hmax
    obtain ⟨hcells, hplan, hfull⟩ := closeNode_keeps h
    exact ⟨⟨names', hnames'.congr hcells hplan⟩, hfull⟩

/-- The name of a node the search comes to is none of those seen, when the names of the nodes
are distinct and the gap lists every node once. -/
theorem name_notMem_of_seen {m : PlanGapMem} {rest : List PlanGapMem} {node : NodeInfo}
    (hseen : ∀ name ∈ names, ∃ m ∈ seen, ∃ node, cluster.nodes[m.ninfo]? = some node ∧
      node.name = name) (hnames : (cluster.nodes.map NodeInfo.name).Nodup)
    (hnodup : ((seen ++ m :: rest).map PlanGapMem.ninfo).Nodup)
    (hnode : cluster.nodes[m.ninfo]? = some node) : node.name ∉ names := by
  intro hname
  obtain ⟨m', hm', node', hnode', hname'⟩ := hseen node.name hname
  have hsame : m'.ninfo = m.ninfo := by
    obtain ⟨hi, -⟩ := List.getElem?_eq_some_iff.mp hnode'
    refine (List.getElem?_inj (by simpa using hi) hnames).mp ?_
    rw [List.getElem?_map, List.getElem?_map, hnode', hnode, Option.map_some,
      Option.map_some, hname']
  rw [List.map_append, List.map_cons] at hnodup
  have hdisjoint := (List.nodup_append.mp hnodup).2.2
  exact hdisjoint m'.ninfo (List.mem_map_of_mem hm') m.ninfo List.mem_cons_self hsame

/-- A node the search comes to was not counted yet. -/
theorem Counted.new_name (h : Counted cluster job gap seen search names) {m : PlanGapMem}
    {rest : List PlanGapMem} {node : NodeInfo} (hnames : (cluster.nodes.map NodeInfo.name).Nodup)
    (hnodup : ((seen ++ m :: rest).map PlanGapMem.ninfo).Nodup)
    (hnode : cluster.nodes[m.ninfo]? = some node) : node.name ∉ names := by
  refine name_notMem_of_seen ?_ hnames hnodup hnode
  intro name hname
  obtain ⟨m', hm', node', hoffers⟩ := h.offered name hname
  exact ⟨m', hm', node', hoffers.node_eq, hoffers.name_eq⟩

/-- There is a cell for each chunk. -/
theorem Counted.length_cells (h : Counted cluster job gap seen search names) :
    search.fixedNnameArr.length = job.reqNumNodes := by
  have hlength := h.length_le
  rw [h.cells, List.length_append, List.length_map, List.length_replicate]
  omega

/-- The search of a gap ends with its nodes counted, and it is found for a full plan
only. -/
theorem searchNodes_counted {behind : List PlanGap}
    (hnames : (cluster.nodes.map NodeInfo.name).Nodup)
    (hnodup : (gap.nodesMemory.map PlanGapMem.ninfo).Nodup) (rest : List PlanGapMem) :
    ∀ {seen : List PlanGapMem} {search search' : GapSearch} {names : List String} {found : Bool},
      gap.nodesMemory = seen ++ rest → Counted cluster job gap seen search names →
      searchNodes conf cluster limits true job gap behind rest search = .ok (search', found) →
      ∃ names', Counted cluster job gap gap.nodesMemory search' names' ∧
        (found = true → (job.reqNumNodes : ℤ) ≤ search'.planNumNodes) := by
  induction rest with
  | nil =>
      intro seen search search' names found hsplit hcounted h
      rw [searchNodes] at h
      cases h
      rw [List.append_nil] at hsplit
      exact ⟨names, hsplit ▸ hcounted, by intro hcontra; cases hcontra⟩
  | cons m rest ih =>
      intro seen search search' names found hsplit hcounted h
      have hsplit' : gap.nodesMemory = (seen ++ [m]) ++ rest := by simpa using hsplit
      have hmem : m ∈ gap.nodesMemory := by simp [hsplit]
      have hseen : seen ++ [m] ⊆ gap.nodesMemory := by
        rw [hsplit']
        exact List.subset_append_left _ _
      rw [searchNodes] at h
      obtain ⟨node, hnode, h⟩ := bind_ok.mp h
      rw [getAt_ok] at hnode
      split at h
      · exact ih hsplit' (hcounted.snoc m) h
      · next haccepted =>
          rw [Bool.or_eq_true, not_or, Bool.not_eq_true, Bool.not_eq_true] at haccepted
          -- the node is new: its name does not stand in the cells yet
          have hvisit : Visited cluster job gap names m node :=
            ⟨hnode, hcounted.new_name hnames (hsplit ▸ hnodup) hnode, haccepted.1, haccepted.2⟩
          obtain ⟨⟨search₁, nodeEnd⟩, hvisited, h⟩ := bind_ok.mp h
          obtain ⟨⟨names', hnames'⟩, hfound⟩ :=
            visitNode_counted hcounted hvisit hmem hnodup hvisited
          cases nodeEnd with
          | found =>
              obtain ⟨rfl, -⟩ := Prod.mk.inj (pure_ok.mp h)
              exact ⟨names', hnames'.mono hseen, fun _ => hfound rfl⟩
          | nextNode => exact ih hsplit' hnames' h
          | nextGap =>
              obtain ⟨rfl, rfl⟩ := Prod.mk.inj (pure_ok.mp h)
              exact ⟨names', hnames'.mono hseen, by intro hcontra; cases hcontra⟩

/-- A gap is found with a promise only. -/
theorem searchGaps_promise (hnames : (cluster.nodes.map NodeInfo.name).Nodup)
    (gaps : List PlanGap) :
    ∀ {search search' : GapSearch} {gap : PlanGap},
      (∀ gap ∈ gaps, (gap.nodesMemory.map PlanGapMem.ninfo).Nodup) →
      search.fixedNnameArr.length = job.reqNumNodes →
      searchGaps conf cluster limits true job gaps search = .ok (search', some gap) →
      gap ∈ gaps ∧ (job.usage : ℤ) ≤ gap.usage ∧ ∃ names,
        search'.fixedNnameArr = names.map some ∧ GapPromise cluster job gap names := by
  induction gaps with
  | nil =>
      intro search search' gap _ _ h
      rw [searchGaps] at h
      cases h
  | cons first behind ih =>
      intro search search' gap hnodup hlength h
      have hbehind : ∀ gap ∈ behind, (gap.nodesMemory.map PlanGapMem.ninfo).Nodup :=
        fun gap hgap => hnodup gap (List.mem_cons_of_mem _ hgap)
      rw [searchGaps] at h
      split at h
      · obtain ⟨hmem, hrest⟩ := ih hbehind hlength h
        exact ⟨List.mem_cons_of_mem _ hmem, hrest⟩
      · next husage =>
          obtain ⟨⟨search₁, found⟩, hnodes, h⟩ := bind_ok.mp h
          have hfirst : (first.nodesMemory.map PlanGapMem.ninfo).Nodup :=
            hnodup first List.mem_cons_self
          -- every gap starts with empty cells
          have hreset : Counted cluster job first [] search.reset [] := by
            refine ⟨?_, Nat.zero_le _, le_rfl, by simp⟩
            show search.fixedNnameArr.map _ = _
            rw [List.map_const', hlength]
            rfl
          obtain ⟨names, hcounted, hfull⟩ := searchNodes_counted hnames hfirst _ rfl hreset hnodes
          dsimp only at h
          split at h
          · next hfound =>
              obtain ⟨rfl, hgap⟩ := Prod.mk.inj (pure_ok.mp h)
              cases hgap
              have hplan := hcounted.plan_le
              have hle := hcounted.length_le
              have hnodes := hfull hfound
              have hcount : names.length = job.reqNumNodes := by omega
              refine ⟨List.mem_cons_self, not_lt.mp husage, names, ?_, hcount, hcounted.offered⟩
              rw [hcounted.cells, hcount, Nat.sub_self]
              simp
          · obtain ⟨hmem, hrest⟩ := ih hbehind hcounted.length_cells h
            exact ⟨List.mem_cons_of_mem _ hmem, hrest⟩

end Search

/-- `find_first_gap` returns a gap of the plan, and the job fixed to nodes that the gap
promises. -/
theorem findFirstGap_promise {conf : LimitsForClusters} {values values' : LimitsValues}
    {plan : ClusterPlan} {job job' : PlanJob} {gap : PlanGap}
    (hnames : (plan.cluster.nodes.map NodeInfo.name).Nodup)
    (hnodup : ∀ gap ∈ plan.gaps, (gap.nodesMemory.map PlanGapMem.ninfo).Nodup)
    (hcells : job.fixedNnameArr.length = job.reqNumNodes)
    (h : findFirstGap conf values plan job true = .ok (some gap, job', values')) :
    gap ∈ plan.gaps ∧ (job.usage : ℤ) ≤ gap.usage ∧ ∃ names : List String,
      job' = { job with fixedNnameArr := names.map some } ∧
      GapPromise plan.cluster job gap names := by
  unfold findFirstGap at h
  obtain ⟨⟨search, found⟩, hsearch, h⟩ := bind_ok.mp h
  obtain ⟨rfl, hleft⟩ := Prod.mk.inj (pure_ok.mp h)
  obtain ⟨rfl, -⟩ := Prod.mk.inj hleft
  obtain ⟨hmem, husage, names, heq, hpromise⟩ := searchGaps_promise hnames _ hnodup hcells hsearch
  exact ⟨hmem, husage, names, by rw [heq], hpromise⟩

end PlanSched
