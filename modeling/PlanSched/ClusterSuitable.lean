/-
# The clusters a new job may be planned on

Models `check_cluster_suitable` (`plan_schedule.cpp`), by which
`try_to_schedule_new_jobs` passes over the clusters that cannot host a job: the rules
of the queues, the properties of the first part of the node specification, the
placement, the cores and the GPUs, one return after the other.  Zero means suitable.
The parser of node specifications is a parameter, with its answer for the job's text.  For
an empty text the check parses a text of the program, which it then frees.

* `checkClusterSuitable_hosts_iff`: the check answers, and zero only for a cluster that can
  host the job, exactly if a rule turns the job down, or the node specification is not
  empty, a GPU it asks for is there and, when the cores suffice, its placement does not
  name a property of the cluster with `^`.
-/
import PlanSched.ClusterUpdate
import PlanSched.NodespecCheck

namespace PlanSched

open CheckedRun Nodespec

/-! ## The check -/

/-- `queue_info`, as far as it is read here. -/
structure QueueRules where
  name : String
  requiredProperty : Option String
  deriving DecidableEq, Repr

/-- What is read of a job: from the `plan_job` and its `jinfo`. -/
structure ClusterRequest where
  queue : QueueRules
  nodespec : String
  placement : String
  reqScratchLocal : ℤ
  reqNumNodes : ℤ
  reqPpn : ℕ
  reqGpu : ℤ
  reqPpn_pos : 0 < reqPpn

/-- What is read of a cluster. -/
structure ClusterOffer where
  clusterProperties : Finset String
  nodes : List NodeInfo

/-- A parsed node specification: its parts, one at least. -/
structure ParsedNodespec where
  first : ParsSpecNode
  rest : List ParsSpecNode

/-- What the check knows besides: `conf.default_queue`, the queues of the server and the
parser. -/
structure SuitableContext where
  defaultQueue : String
  queues : List QueueRules
  parseNodespec : String → Option ParsedNodespec

variable (ctx : SuitableContext) (cl : ClusterOffer) (job : ClusterRequest)

/-- The text behind the first character. -/
def afterMark (text : String) : String := String.ofList text.toList.tail

/-- A `backfill` queue on a cluster for backfilling. -/
def isBackfill : Bool :=
  isPrefix job.queue.name.toList "backfill".toList
    && decide ("q_backfill" ∈ cl.clusterProperties)

/-- The job's queue asks for a property that the cluster lacks. -/
def queueLacksProperty : Bool :=
  match job.queue.requiredProperty with
  | none => false
  | some property =>
      !isPrefix property.toList "q_".toList && decide (property ∉ cl.clusterProperties)

/-- Another queue has the cluster for itself. -/
def reservedFor (queue : QueueRules) : Bool :=
  match queue.requiredProperty with
  | none => false
  | some property =>
      decide (0 < property.toList.length) && !isPrefix property.toList "q_".toList
        && decide (property ∈ cl.clusterProperties) && decide (job.queue.name ≠ queue.name)

/-- The rules of the queues. -/
def queueRefuses : Bool :=
  !isBackfill cl job &&
    (queueLacksProperty cl job ||
      ((job.queue.name == ctx.defaultQueue || isPrefix job.queue.name.toList "q_".toList
          || isPrefix job.queue.name.toList "backfill".toList)
        && ctx.queues.any (reservedFor cl job)))

/-- One round of the loop over the properties of the first part. -/
def propertyRefuses (property : ParsProp) : Bool :=
  if property.value.isSome then false
  else if property.name.toList.head? = some '^' then
    decide (afterMark property.name ∈ cl.clusterProperties)
  else decide (property.name ∉ cl.clusterProperties)

/-- The placement, as it is tested: it would have to be empty and begin with `^`. -/
def placementRefuses : Bool :=
  job.placement == "" && job.placement.toList.head? == some '^'
    && decide (afterMark job.placement ∈ cl.clusterProperties)

/-- The text that is parsed: a copy of the node specification or, if that is empty, a literal. -/
def nodeSpecText (nodespec : String) : String := if nodespec = "" then "1:ppn=1" else nodespec

/-- `free()` of that text: a literal has not been allocated. -/
def freeNodeSpecText (nodespec : String) : Run Unit :=
  if nodespec = "" then .error .badFree else .ok ()

/-- One round of the loop over the nodes. -/
def coresStep (reqPpn : ℕ) (reqNumNodes : ℤ) (node : NodeInfo) : ℤ :=
  if reqPpn ≤ node.coresTotal then reqNumNodes - ((node.coresTotal / reqPpn : ℕ) : ℤ)
  else reqNumNodes

/-- The requested nodes that are left over by the cores of the cluster. -/
def nodesMissing : ℤ := cl.nodes.foldl (coresStep job.reqPpn) job.reqNumNodes

/-- The node has a resource `gpu` that is large enough. -/
def hasGpu (node : NodeInfo) : Bool := node.gpu.any (fun capacity => decide (job.reqGpu ≤ capacity))

/-- `SCHD_ERROR`. -/
def schdError : ℤ := 1002

/-- `check_cluster_suitable`. -/
def checkClusterSuitable : Run ℤ :=
  if job.reqScratchLocal = -2 then .ok 1
  else if queueRefuses ctx cl job then .ok 1
  else
    match ctx.parseNodespec (nodeSpecText job.nodespec) with
    | none => do
        freeNodeSpecText job.nodespec
        return schdError
    | some spec => do
        freeNodeSpecText job.nodespec
        if spec.first.properties.any (propertyRefuses cl) then return 1
        else if placementRefuses cl job then return 1
        else if nodesMissing cl job ≤ 0 then return 0
        else if 0 < job.reqGpu then
          if cl.nodes.any (hasGpu job) then return 1 else return 0
        else return 1

/-! ## The property -/

/-- The cluster can host the job. -/
structure Hosts (spec : ParsedNodespec) : Prop where
  cores : job.reqNumNodes ≤ ((cl.nodes.filter (fun node => job.reqPpn ≤ node.coresTotal)).map
    (fun node => ((node.coresTotal / job.reqPpn : ℕ) : ℤ))).sum
  plain : ∀ property ∈ spec.first.properties, property.value = none →
    property.name.toList.head? ≠ some '^' → property.name ∈ cl.clusterProperties
  negative : ∀ property ∈ spec.first.properties, property.value = none →
    property.name.toList.head? = some '^' → afterMark property.name ∉ cl.clusterProperties
  placement : job.placement.toList.head? = some '^' →
    afterMark job.placement ∉ cl.clusterProperties
  gpu : 0 < job.reqGpu → ∃ node ∈ cl.nodes, ∃ capacity, node.gpu = some capacity ∧
    job.reqGpu ≤ capacity

/-- The job is turned down before its node specification is parsed. -/
def TurnedDown : Prop := job.reqScratchLocal = -2 ∨ queueRefuses ctx cl job = true

/-- The properties of the first part turn the job down, or the text does not parse. -/
def PropertiesRefuse : Prop :=
  ∀ spec ∈ ctx.parseNodespec job.nodespec, spec.first.properties.any (propertyRefuses cl) = true

/-- The check answers, and with zero only for a cluster that can host the job. -/
def AdmitsHosts : Prop :=
  ∃ code, checkClusterSuitable ctx cl job = .ok code ∧
    (code = 0 → ∃ spec, ctx.parseNodespec job.nodespec = some spec ∧ Hosts cl job spec)

/-! ## The tests -/

variable {ctx cl job}

/-- The placement never turns a job down. -/
theorem placementRefuses_false : placementRefuses cl job = false := by
  unfold placementRefuses
  by_cases h : job.placement = ""
  · rw [h]
    rfl
  · rw [beq_eq_false_iff_ne.mpr h, Bool.false_and, Bool.false_and]

/-- The cores are counted on the nodes that have enough of them. -/
theorem nodesMissing_eq : nodesMissing cl job = job.reqNumNodes
    - ((cl.nodes.filter (fun node => job.reqPpn ≤ node.coresTotal)).map
        (fun node => ((node.coresTotal / job.reqPpn : ℕ) : ℤ))).sum := by
  have hloop : ∀ (nodes : List NodeInfo) (reqNumNodes : ℤ),
      nodes.foldl (coresStep job.reqPpn) reqNumNodes
      = reqNumNodes - ((nodes.filter (fun node => job.reqPpn ≤ node.coresTotal)).map
          (fun node => ((node.coresTotal / job.reqPpn : ℕ) : ℤ))).sum := by
    intro nodes
    induction nodes with
    | nil => exact fun reqNumNodes => (Int.sub_zero reqNumNodes).symm
    | cons node nodes ih =>
        intro reqNumNodes
        rw [List.foldl_cons, ih]
        unfold coresStep
        by_cases hcores : job.reqPpn ≤ node.coresTotal
        · rw [if_pos hcores, List.filter_cons_of_pos (by simpa using hcores), List.map_cons,
            List.sum_cons]
          omega
        · rw [if_neg hcores, List.filter_cons_of_neg (by simpa using hcores)]
  exact hloop cl.nodes job.reqNumNodes

/-- No property turns the job down exactly if they are as the job asks. -/
theorem propertyRefuses_false_iff (property : ParsProp) :
    propertyRefuses cl property = false ↔
      (property.value = none → property.name.toList.head? ≠ some '^' →
        property.name ∈ cl.clusterProperties) ∧
      (property.value = none → property.name.toList.head? = some '^' →
        afterMark property.name ∉ cl.clusterProperties) := by
  unfold propertyRefuses
  cases hvalue : property.value with
  | some value => simp
  | none =>
      by_cases hmark : property.name.toList.head? = some '^'
      · simp [hmark]
      · simp [hmark]

/-- Whether a node has the GPUs. -/
theorem any_hasGpu_iff : cl.nodes.any (hasGpu job) = true ↔
    ∃ node ∈ cl.nodes, ∃ capacity, node.gpu = some capacity ∧ job.reqGpu ≤ capacity := by
  rw [List.any_eq_true]
  refine exists_congr (fun node => and_congr_right (fun _ => ?_))
  unfold hasGpu
  rw [Option.any_eq_true]
  simp only [decide_eq_true_eq]

/-! ## The answer -/

/-- An empty node specification ends the check that comes to it. -/
theorem checkClusterSuitable_empty (hdown : ¬ TurnedDown ctx cl job) (hempty : job.nodespec = "") :
    checkClusterSuitable ctx cl job = .error .badFree := by
  unfold TurnedDown at hdown
  rw [not_or] at hdown
  have hfree : freeNodeSpecText job.nodespec = .error .badFree := if_pos hempty
  unfold checkClusterSuitable
  rw [if_neg hdown.1, if_neg hdown.2, hfree]
  cases ctx.parseNodespec (nodeSpecText job.nodespec) with
  | none => rfl
  | some spec => rfl

/-- With another one the answer follows the properties, the cores and the GPUs. -/
theorem checkClusterSuitable_parsed (hdown : ¬ TurnedDown ctx cl job)
    (hnodespec : job.nodespec ≠ "") : checkClusterSuitable ctx cl job =
      .ok (match ctx.parseNodespec job.nodespec with
        | none => schdError
        | some spec =>
            if spec.first.properties.any (propertyRefuses cl) then 1
            else if nodesMissing cl job ≤ 0 then 0
            else if 0 < job.reqGpu then
              if cl.nodes.any (hasGpu job) then 1 else 0
            else 1) := by
  unfold TurnedDown at hdown
  rw [not_or] at hdown
  have hfree : freeNodeSpecText job.nodespec = .ok () := if_neg hnodespec
  have htext : nodeSpecText job.nodespec = job.nodespec := if_neg hnodespec
  unfold checkClusterSuitable
  rw [if_neg hdown.1, if_neg hdown.2, htext, hfree]
  cases ctx.parseNodespec job.nodespec with
  | none => rfl
  | some spec =>
      dsimp only
      rw [placementRefuses_false, if_neg Bool.false_ne_true]
      simp only [pure, Except.pure, bind, Except.bind, ← apply_ite]

/-- Zero goes to a cluster that can host the job exactly if the GPUs are there and, when the cores
suffice, the placement is permitted. -/
theorem zero_hosts_iff {spec : ParsedNodespec}
    (hallowed : ∀ property ∈ spec.first.properties, propertyRefuses cl property = false) :
    ((if nodesMissing cl job ≤ 0 then 0
        else if 0 < job.reqGpu then
          if cl.nodes.any (hasGpu job) then 1 else 0
        else 1) = (0 : ℤ) → Hosts cl job spec) ↔
      (0 < job.reqGpu → ∃ node ∈ cl.nodes, ∃ capacity, node.gpu = some capacity ∧
          job.reqGpu ≤ capacity) ∧
        (nodesMissing cl job ≤ 0 → job.placement.toList.head? = some '^' →
          afterMark job.placement ∉ cl.clusterProperties) := by
  rw [← any_hasGpu_iff]
  constructor
  · intro h
    refine ⟨?_, ?_⟩
    · intro hgpu
      by_cases hcores : nodesMissing cl job ≤ 0
      · rw [if_pos hcores] at h
        exact any_hasGpu_iff.mpr ((h rfl).gpu hgpu)
      · -- without the cores a missing GPU is taken for a suitable cluster
        by_contra hnone
        rw [if_neg hcores, if_pos hgpu, if_neg hnone] at h
        have hhosts := (h rfl).cores
        rw [nodesMissing_eq] at hcores
        omega
    · intro hcores
      rw [if_pos hcores] at h
      exact (h rfl).placement
  · rintro ⟨hgpu, hplacement⟩ hzero
    have hcores : nodesMissing cl job ≤ 0 := by
      by_contra hcores
      rw [if_neg hcores] at hzero
      split at hzero
      · next hasked =>
          rw [if_pos (hgpu hasked)] at hzero
          exact one_ne_zero hzero
      · exact one_ne_zero hzero
    refine ⟨?_, ?_, ?_, hplacement hcores, fun h => any_hasGpu_iff.mp (hgpu h)⟩
    · rw [nodesMissing_eq] at hcores
      omega
    · exact fun property hproperty =>
        ((propertyRefuses_false_iff property).mp (hallowed property hproperty)).1
    · exact fun property hproperty =>
        ((propertyRefuses_false_iff property).mp (hallowed property hproperty)).2

/-- The check answers, and with zero only for clusters that can host the job, exactly if the job is
turned down before its node specification is parsed, or the specification is not empty and either
turns it down or goes with GPUs that are there and with a placement that does not concern a cluster
with enough cores. -/
theorem checkClusterSuitable_hosts_iff (ctx : SuitableContext) (cl : ClusterOffer)
    (job : ClusterRequest) :
    AdmitsHosts ctx cl job ↔
    TurnedDown ctx cl job ∨ (job.nodespec ≠ "" ∧
      (PropertiesRefuse ctx cl job ∨
        (0 < job.reqGpu → ∃ node ∈ cl.nodes, ∃ capacity, node.gpu = some capacity ∧
          job.reqGpu ≤ capacity) ∧
        (nodesMissing cl job ≤ 0 → job.placement.toList.head? = some '^' →
          afterMark job.placement ∉ cl.clusterProperties))) := by
  unfold AdmitsHosts
  by_cases hdown : TurnedDown ctx cl job
  · refine iff_of_true ⟨1, ?_, fun h => absurd h one_ne_zero⟩ (Or.inl hdown)
    unfold checkClusterSuitable
    by_cases hscratch : job.reqScratchLocal = -2
    · rw [if_pos hscratch]
    · rw [if_neg hscratch, if_pos (hdown.resolve_left hscratch)]
  rw [or_iff_right hdown]
  by_cases hempty : job.nodespec = ""
  · refine iff_of_false ?_ (fun h => h.1 hempty)
    rintro ⟨code, hcode, _⟩
    rw [checkClusterSuitable_empty hdown hempty] at hcode
    cases hcode
  rw [and_iff_right hempty, checkClusterSuitable_parsed hdown hempty]
  unfold PropertiesRefuse
  cases hparse : ctx.parseNodespec job.nodespec with
  | none =>
      refine iff_of_true ⟨_, rfl, ?_⟩ (Or.inl ?_)
      · intro h
        exact absurd (show schdError = 0 from h) (by decide)
      · intro spec hspec
        cases hspec
  | some spec =>
      dsimp only
      by_cases hproperties : spec.first.properties.any (propertyRefuses cl) = true
      · refine iff_of_true ⟨1, by rw [if_pos hproperties], fun h => absurd h one_ne_zero⟩
          (Or.inl ?_)
        intro spec' hspec
        cases hspec
        exact hproperties
      · -- from here on no rule has turned the job down
        have hallowed : ∀ property ∈ spec.first.properties,
            propertyRefuses cl property = false := by
          rw [Bool.not_eq_true, List.any_eq_false] at hproperties
          exact fun property hproperty =>
            Bool.not_eq_true _ ▸ hproperties property hproperty
        rw [if_neg hproperties, or_iff_right (fun h => hproperties (h spec rfl)),
          ← zero_hosts_iff hallowed]
        constructor
        · rintro ⟨code, hcode, hzero⟩ h
          obtain ⟨spec', hspec, hhosts⟩ := hzero ((Except.ok.inj hcode).symm.trans h)
          cases hspec
          exact hhosts
        · exact fun h => ⟨_, rfl, fun hzero => ⟨spec, rfl, h hzero⟩⟩

/-! ### A GPU that the cluster does not have -/

/-- One node of one core, without a GPU. -/
def smallCluster : ClusterOffer := ⟨∅, [{ (default : NodeInfo) with coresTotal := 1 }]⟩

/-- A job for two cores and a GPU. -/
def gpuRequest : ClusterRequest where
  queue := ⟨"default", none⟩
  nodespec := "1:ppn=2"
  placement := ""
  reqScratchLocal := 0
  reqNumNodes := 1
  reqPpn := 2
  reqGpu := 1
  reqPpn_pos := by decide

/-- What the parser makes of its text. -/
def twoCores : ParsedNodespec := ⟨⟨1, none, none, 2, 0, 0, 0, .scratchNone, []⟩, []⟩

/-- The cluster has neither the cores nor a GPU, and is said to be suitable. -/
theorem missing_gpu_suitable :
    checkClusterSuitable ⟨"default", [], fun _ => some twoCores⟩ smallCluster gpuRequest = .ok 0 ∧
    ¬ AdmitsHosts ⟨"default", [], fun _ => some twoCores⟩ smallCluster gpuRequest := by
  have hzero : checkClusterSuitable ⟨"default", [], fun _ => some twoCores⟩ smallCluster gpuRequest
      = .ok 0 := by decide
  refine ⟨hzero, ?_⟩
  rintro ⟨code, hcode, hhosts⟩
  rw [hzero] at hcode
  obtain ⟨spec, hspec, h⟩ := hhosts (Except.ok.inj hcode).symm
  obtain ⟨node, hnode, capacity, hgpu, _⟩ := h.gpu (by decide)
  rw [List.mem_singleton.mp hnode] at hgpu
  cases hgpu

end PlanSched
