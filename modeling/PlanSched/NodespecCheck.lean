/-
# What the check of a node specification writes

Models `check_nodespec`, `find_nodes` and the functions below them (`nodespec.cpp`) with the
contents of the assignments: what a node carries (`JobAssign.cpp`), the filters of
`NodeFilters.cpp`, and `calculate_fairshare_cost` (`JobInfo.cpp`).  The nodes are numbers; a
node of a physical one stands for a moment at which a job that runs there has ended.  What
the nodes answer to a test, and how they are ordered, is given from outside; the tests do
not read the assignments.

* `takeNode_some`: what one node more changes;
* `erase_findNodes`, `erase_checkNodespec`: without the contents these are the functions of
  the check as the plan sees it.
-/
import PlanSched.NodeAssignment

namespace PlanSched.Nodespec

open CheckedRun

/-! ## Specifications and assignments -/

/-- `ScratchType`. -/
inductive ScratchType : Type where
  | scratchNone
  | scratchAny
  | scratchLocal
  | scratchSSD
  | scratchShared
  deriving DecidableEq, Repr

/-- `pars_prop`. -/
structure ParsProp where
  name : String
  value : Option String
  deriving DecidableEq, Repr

/-- `pars_spec_node`: one part of a node specification. -/
structure ParsSpecNode where
  nodeCount : ℕ
  alternative : Option String
  host : Option String
  procs : ℕ
  mem : ℕ
  vmem : ℕ
  scratch : ℕ
  scratchType : ScratchType
  properties : List ParsProp
  deriving DecidableEq, Repr

/-- `JobAssign`: what a node carries. -/
structure JobAssign where
  flagFairshare : Bool
  scratchType : ScratchType
  bootAlternative : Option String
  nodespec : Option ParsSpecNode
  virtualAssignment : Bool
  deriving DecidableEq, Repr

/-- What the constructor and `clean_assign` leave. -/
def JobAssign.clean : JobAssign := ⟨false, .scratchNone, none, none, false⟩

/-- `has_assignment`. -/
def JobAssign.hasAssignment (a : JobAssign) : Bool := a.nodespec.isSome

/-- What a test says, and what it writes to `*scratch` and `*alternative`, if anything. -/
structure FitAnswer where
  result : CheckResult
  scratch : Option ScratchType
  alternative : Option (Option String)
  deriving DecidableEq, Repr

/-- What does not change of the nodes.  The nodes behind a physical one are its own. -/
structure Machines where
  name : ℕ → String
  physicalNode : ℕ → ℕ
  slaveNodes : ℕ → List ℕ
  coresTotal : ℕ → ℕ
  memTotal : ℕ → ℕ
  physicalNode_of_slave : ∀ node, physicalNode node = node →
    ∀ slave ∈ slaveNodes node, physicalNode slave = node

/-- What the nodes answer to one job, and the orders `NodeStateSort` and `NodeCostSort`. -/
structure Answers where
  canRunJob : ℕ → CheckResult
  canBootJob : ℕ → CheckResult
  canFitJobForRun : ParsSpecNode → ℕ → FitAnswer
  canFitJobForBoot : ParsSpecNode → ℕ → FitAnswer
  stateBefore : ℕ → ℕ → Bool
  costBefore : ParsSpecNode → ℕ → ℕ → Bool

/-- What the check reads of a job. -/
structure NodespecJob extends JobTraits where
  isExclusive : Bool
  parsedNodespec : List ParsSpecNode

/-- What the nodes carry, `jinfo->schedule`, and `jinfo->calculated_fairshare` by its
summands. -/
structure Assigned where
  assigns : ℕ → JobAssign
  schedule : List ℕ
  calculatedFairshare : List (ParsSpecNode × ℕ)

/-- `set_assignment`, `set_scratch_assign`, `set_selected_alternative` and the entry in the
schedule. -/
def Assigned.set (s : Assigned) (node : ℕ) (spec : ParsSpecNode) (scratch : ScratchType)
    (ra : Option String) : Assigned :=
  { s with
    assigns := Function.update s.assigns node { s.assigns node with
      nodespec := some spec, scratchType := scratch, bootAlternative := ra }
    schedule := s.schedule ++ [node] }

/-- `set_fairshare_flag`. -/
def Assigned.setFairshareFlag (s : Assigned) (node : ℕ) : Assigned :=
  { s with
    assigns := Function.update s.assigns node { s.assigns node with flagFairshare := true } }

/-- `nodes_preassign_clean`. -/
def Assigned.preassignClean (s : Assigned) (nodes : List ℕ) : Assigned :=
  { s with assigns := fun node => if node ∈ nodes then .clean else s.assigns node }

/-- `jinfo->schedule.clear()`. -/
def Assigned.clearSchedule (s : Assigned) : Assigned := { s with schedule := [] }

/-! ## Finding nodes -/

section find

variable (job : NodespecJob) (machines : Machines) (answers : Answers)

/-- A node that already has its assignment. -/
def passedOver (s : Assigned) (node : ℕ) : Bool :=
  (s.assigns (machines.physicalNode node)).virtualAssignment || (s.assigns node).hasAssignment

/-- The common loop of `assign_node` and `ondemand_reboot`: take the first node that carries
no assignment and passes the test.  What the tests wrote so far stays. -/
def takeNode (test : ℕ → FitAnswer) (target : ℕ → ℕ) (content : ℕ → ParsSpecNode)
    (s : Assigned) : List ℕ → ScratchType → Option String → Option Assigned
  | [], _, _ => none
  | node :: nodes, scratch, ra =>
      if passedOver machines s node then takeNode test target content s nodes scratch ra
      else
        let answer := test node
        let scratch' := answer.scratch.getD scratch
        let ra' := answer.alternative.getD ra
        if answer.result ≠ .available then takeNode test target content s nodes scratch' ra'
        else some (s.set (target node) (content node) scratch' ra')

/-- The test `assign_node` makes. -/
def assignTest (spec : ParsSpecNode) : ℕ → FitAnswer :=
  if job.clusterMode ≠ .create then answers.canFitJobForRun spec
  else answers.canFitJobForBoot spec

/-- The specification as `assign_node` writes it: all of the node, when the job is
exclusive. -/
def assignedSpec (spec : ParsSpecNode) (node : ℕ) : ParsSpecNode :=
  if job.isExclusive then
    { spec with procs := machines.coresTotal node, mem := machines.memTotal node }
  else spec

/-- `assign_node`. -/
def assignNode (spec : ParsSpecNode) (nodes : List ℕ) (s : Assigned) : Option Assigned :=
  takeNode machines (assignTest job answers spec) id (assignedSpec job machines spec) s nodes
    .scratchNone none

/-- `ondemand_reboot`; only for normal jobs. -/
def ondemandReboot (spec : ParsSpecNode) (nodes : List ℕ) (s : Assigned) : Option Assigned :=
  if job.clusterMode ≠ .none then none
  else
    takeNode machines (answers.canFitJobForBoot spec) machines.physicalNode (fun _ => spec) s
      nodes .scratchNone none

/-- `try_assign_nodes`, with the number of nodes still to be found. -/
def tryAssignNodes (spec : ParsSpecNode) (runNodes bootNodes : List ℕ) :
    ℕ → Assigned → CheckResult × Assigned
  | 0, s => (.available, s)
  | count + 1, s =>
      match assignNode job machines answers spec runNodes s with
      | some s' => tryAssignNodes spec runNodes bootNodes count s'
      | none =>
          match ondemandReboot job machines answers spec bootNodes s with
          | some s' => tryAssignNodes spec runNodes bootNodes count s'
          | none =>
              if runNodes = [] ∧ (bootNodes = [] ∨ job.clusterMode ≠ .none) then (.nonFit, s)
              else (.occupied, s)

/-- `NodeSuitableForJob`. -/
def suitableForJob (node : ℕ) : Bool :=
  !(job.clusterMode == .use && answers.canRunJob node == .nonFit) &&
  !(job.clusterMode == .create && answers.canBootJob node == .nonFit) &&
  !(answers.canRunJob node == .nonFit && answers.canBootJob node == .nonFit)

/-- `NodeSuitableForSpec`; the mode of the filter says which nodes are left out at once. -/
def suitableForSpec (leftOut : ℕ → Bool) (spec : ParsSpecNode) (node : ℕ) : Bool :=
  !leftOut node &&
  !(job.clusterMode == .use && (answers.canFitJobForRun spec node).result == .nonFit) &&
  !(job.clusterMode == .create && (answers.canFitJobForBoot spec node).result == .nonFit) &&
  !((answers.canFitJobForRun spec node).result == .nonFit &&
    (answers.canFitJobForBoot spec node).result == .nonFit)

/-- `NodeSuitableForSpec::filter_reboot`. -/
def filterReboot (nodes : List ℕ) (spec : ParsSpecNode) (s : Assigned) : List ℕ :=
  nodes.filter (suitableForSpec job answers (passedOver machines s) spec)

/-- `NodeSuitableForSpec::filter_fairshare`. -/
def filterFairshare (nodes : List ℕ) (spec : ParsSpecNode) (s : Assigned) : List ℕ :=
  nodes.filter (suitableForSpec job answers (fun node => (s.assigns node).flagFairshare) spec)

/-- How many names the nodes have that `try_assign_spec` looks at. -/
def uniqueNames (nodes : List ℕ) (spec : ParsSpecNode) (s : Assigned) : ℕ :=
  ((nodes ++ filterReboot job machines answers nodes spec s).map machines.name).dedup.length

/-- `try_assign_spec`: part by part of the specification. -/
def tryAssignSpec (nodes : List ℕ) : List ParsSpecNode → Assigned → CheckResult × Assigned
  | [], s => (.available, s)
  | spec :: specs, s =>
      if uniqueNames job machines answers nodes spec s < spec.nodeCount then (.nonFit, s)
      else
        let found := tryAssignNodes job machines answers spec
          (nodes.mergeSort answers.stateBefore)
          ((filterReboot job machines answers nodes spec s).mergeSort answers.stateBefore)
          spec.nodeCount s
        if found.1 = .nonFit then found
        else
          let rest := tryAssignSpec nodes specs found.2
          if rest.1 = .available then (found.1, rest.2) else rest

/-- The loop of `find_nodes` over the values of the placement property. -/
def findPlace (nodes : List ℕ) : List (ℕ → Bool) → CheckResult → Assigned →
    CheckResult × Assigned
  | [], result, s => (result, s)
  | value :: values, result, s =>
      let cleaned := (s.preassignClean nodes).clearSchedule
      let found := tryAssignSpec job machines answers (nodes.filter value) job.parsedNodespec
        cleaned
      if found.1 = .available then found
      else findPlace nodes values (if found.1 = .occupied then .occupied else result) found.2

/-- `find_nodes`. -/
def findNodes (nodes : List ℕ) (s : Assigned) : CheckResult × Assigned :=
  match job.placement with
  | none => tryAssignSpec job machines answers nodes job.parsedNodespec s
  | some values => findPlace job machines answers nodes values .nonFit s

end find

/-! ## The fairshare cost -/

section cost

variable (job : NodespecJob) (answers : Answers)

/-- The inner `while`: the nodes from index `i` on, from the first one without a flag on; the
index must stay in the list. -/
def skipFlagged (s : Assigned) : List ℕ → Run (ℕ × List ℕ)
  | [] => .error .badIndex
  | node :: nodes =>
      if (s.assigns node).flagFairshare then skipFlagged s nodes else .ok (node, node :: nodes)

/-- The loop over `count`: each node it charges, and its flag. -/
def chargeNodes (spec : ParsSpecNode) :
    ℕ → List ℕ → List (ParsSpecNode × ℕ) → Assigned → Run (List (ParsSpecNode × ℕ) × Assigned)
  | 0, _, cost, s => .ok (cost, s)
  | count + 1, fairshareNodes, cost, s => do
      let (node, rest) ← skipFlagged s fairshareNodes
      chargeNodes spec count rest (cost ++ [(spec, node)]) (s.setFairshareFlag node)

/-- The loop of `calculate_fairshare_cost` over the parts of the specification. -/
def chargeSpecs (nodes : List ℕ) :
    List ParsSpecNode → List (ParsSpecNode × ℕ) → Assigned →
      Run (List (ParsSpecNode × ℕ) × Assigned)
  | [], cost, s => .ok (cost, s)
  | spec :: specs, cost, s => do
      let fairshareNodes :=
        (filterFairshare job answers nodes spec s).mergeSort (answers.costBefore spec)
      let (cost', s') ← chargeNodes spec spec.nodeCount fairshareNodes cost s
      chargeSpecs nodes specs cost' s'

/-- `calculate_fairshare_cost`: the summands of the cost. -/
def calculateFairshareCost (nodes : List ℕ) (s : Assigned) :
    Run (List (ParsSpecNode × ℕ) × Assigned) :=
  chargeSpecs job answers nodes job.parsedNodespec [] s

end cost

/-! ## The check -/

/-- `check_nodespec`.  Time passes between the searches and the cost, so each of them has
answers of its own. -/
def checkNodespec (job : NodespecJob) (machines : Machines) (answers again later : Answers)
    (ninfoArr : List ℕ) (s : Assigned) : Run (RunCheck × Assigned) :=
  let suitableNodes := ninfoArr.filter (suitableForJob job answers)
  let found := findNodes job machines answers suitableNodes s
  match found.1 with
  | .nonFit => .ok (requestNotMatched, found.2.preassignClean ninfoArr)
  | .occupied =>
      if job.isAdminQueue then .ok (nodespecNotEnoughNodesTotal, found.2)
      else
        let cleaned := (found.2.preassignClean ninfoArr).clearSchedule
        if job.isStarving then
          let allNodes := suitableNodes ++ suitableNodes.flatMap machines.slaveNodes
          let starved := findNodes job machines again allNodes cleaned
          if starved.1 = .occupied then .ok (nodespecNotEnoughNodesTotal, starved.2)
          else .ok (jobScheduled, starved.2)
        else .ok (nodespecNotEnoughNodesTotal, cleaned)
  | .available => do
      let (cost, s') ← calculateFairshareCost job later suitableNodes found.2
      .ok (.success, { s' with calculatedFairshare := cost })

/-! ## One node more -/

section search

variable (job : NodespecJob) (machines : Machines) (answers : Answers)

/-- The node has no assignment and passes the test. -/
def usable (machines : Machines) (test : ℕ → FitAnswer) (s : Assigned) (node : ℕ) : Bool :=
  !passedOver machines s node && (test node).result == .available

/-- The loop takes the first usable node, or there is none. -/
theorem takeNode_cases (test : ℕ → FitAnswer) (target : ℕ → ℕ) (content : ℕ → ParsSpecNode)
    (s : Assigned) (nodes : List ℕ) : ∀ (scratch : ScratchType) (ra : Option String),
      (nodes.find? (usable machines test s) = none ∧
        takeNode machines test target content s nodes scratch ra = none) ∨
      ∃ node scratch' ra', nodes.find? (usable machines test s) = some node ∧
        takeNode machines test target content s nodes scratch ra
          = some (s.set (target node) (content node) scratch' ra') := by
  induction nodes with
  | nil => exact fun scratch ra => Or.inl ⟨rfl, rfl⟩
  | cons node nodes ih =>
      intro scratch ra
      rw [takeNode]
      by_cases hpassed : passedOver machines s node = true
      · have huse : usable machines test s node = false := by
          unfold usable
          rw [hpassed]
          rfl
        rw [if_pos hpassed, List.find?_cons_of_neg (by rw [huse]; simp)]
        exact ih scratch ra
      · rw [if_neg hpassed]
        dsimp only
        by_cases hfit : (test node).result = .available
        · have huse : usable machines test s node = true := by
            unfold usable
            rw [eq_false_of_ne_true hpassed, hfit]
            rfl
          rw [if_neg (not_not.mpr hfit), List.find?_cons_of_pos huse]
          exact Or.inr ⟨node, _, _, rfl, rfl⟩
        · have huse : usable machines test s node = false := by
            unfold usable
            rw [beq_eq_false_iff_ne.mpr hfit]
            exact Bool.and_false _
          rw [if_pos hfit, List.find?_cons_of_neg (by rw [huse]; simp)]
          exact ih _ _

/-- What holds of a state is kept by the search, when cleaning and each node more keep it. -/
theorem takeNode_invariant {P : Assigned → Prop}
    (hset : ∀ s node spec scratch ra, P s → P (s.set node spec scratch ra))
    {test : ℕ → FitAnswer} {target : ℕ → ℕ} {content : ℕ → ParsSpecNode} {s s' : Assigned}
    {nodes : List ℕ} {scratch : ScratchType} {ra : Option String} (hs : P s)
    (h : takeNode machines test target content s nodes scratch ra = some s') : P s' := by
  rcases takeNode_cases machines test target content s nodes scratch ra with
    ⟨_, hnone⟩ | ⟨node, scratch', ra', _, hsome⟩
  · rw [hnone] at h
    cases h
  · rw [hsome] at h
    cases h
    exact hset s _ _ _ _ hs

theorem tryAssignNodes_invariant {P : Assigned → Prop}
    (hset : ∀ s node spec scratch ra, P s → P (s.set node spec scratch ra))
    (spec : ParsSpecNode) (runNodes bootNodes : List ℕ) (count : ℕ) : ∀ {s : Assigned}, P s →
      P (tryAssignNodes job machines answers spec runNodes bootNodes count s).2 := by
  induction count with
  | zero => exact fun hs => hs
  | succ count ih =>
      intro s hs
      rw [tryAssignNodes]
      split
      · next s' hs' => exact ih (takeNode_invariant machines hset hs hs')
      · split
        · next s' hs' =>
            unfold ondemandReboot at hs'
            split at hs'
            · cases hs'
            · exact ih (takeNode_invariant machines hset hs hs')
        · split <;> exact hs

theorem tryAssignSpec_invariant {P : Assigned → Prop}
    (hset : ∀ s node spec scratch ra, P s → P (s.set node spec scratch ra))
    (nodes : List ℕ) (specs : List ParsSpecNode) : ∀ {s : Assigned}, P s →
      P (tryAssignSpec job machines answers nodes specs s).2 := by
  induction specs with
  | nil => exact fun hs => hs
  | cons spec specs ih =>
      intro s hs
      have hfound := tryAssignNodes_invariant job machines answers hset spec
        (nodes.mergeSort answers.stateBefore)
        ((filterReboot job machines answers nodes spec s).mergeSort answers.stateBefore)
        spec.nodeCount hs
      rw [tryAssignSpec]
      dsimp only
      split
      · exact hs
      · split
        · exact hfound
        · split
          · exact ih hfound
          · exact ih hfound

theorem findNodes_invariant {P : Assigned → Prop}
    (hset : ∀ s node spec scratch ra, P s → P (s.set node spec scratch ra))
    (hclean : ∀ s nodes, P s → P (s.preassignClean nodes).clearSchedule)
    (nodes : List ℕ) {s : Assigned} (hs : P s) :
    P (findNodes job machines answers nodes s).2 := by
  have hplace : ∀ (values : List (ℕ → Bool)) (result : CheckResult) {s : Assigned}, P s →
      P (findPlace job machines answers nodes values result s).2 := by
    intro values
    induction values with
    | nil => exact fun result s hs => hs
    | cons value values ih =>
        intro result s hs
        rw [findPlace]
        have hfound := tryAssignSpec_invariant job machines answers hset
          (nodes.filter value) job.parsedNodespec (hclean s nodes hs)
        split
        · exact hfound
        · exact ih _ hfound
  unfold findNodes
  split
  · exact tryAssignSpec_invariant job machines answers hset nodes job.parsedNodespec hs
  · exact hplace _ _ hs

end search

/-! ## The check as the plan sees it -/

/-- The marks alone. -/
def Assigned.erase (s : Assigned) : Assigning :=
  ⟨fun node => (s.assigns node).hasAssignment, s.schedule⟩

/-- The answers alone, for specifications that are still to be parsed. -/
def Answers.tests (answers : Answers) (machines : Machines) (parse : SpecNode → ParsSpecNode) :
    NodeTests where
  name := machines.name
  canRunJob := answers.canRunJob
  canBootJob := answers.canBootJob
  canFitJobForRun := fun spec node => (answers.canFitJobForRun (parse spec) node).result
  canFitJobForBoot := fun spec node => (answers.canFitJobForBoot (parse spec) node).result
  before := answers.stateBefore

/-- No node is a moment of another one. -/
structure Machines.Physical (machines : Machines) : Prop where
  physicalNode_eq : ∀ node, machines.physicalNode node = node
  slaveNodes_eq : ∀ node, machines.slaveNodes node = []

/-- `set_virtual_assignment` is never called. -/
def Assigned.NoVirtual (s : Assigned) : Prop :=
  ∀ node, (s.assigns node).virtualAssignment = false

/-- An assignment of the contents is an assignment. -/
theorem erase_set (s : Assigned) (node : ℕ) (spec : ParsSpecNode) (scratch : ScratchType)
    (ra : Option String) : (s.set node spec scratch ra).erase = s.erase.assign node := by
  unfold Assigned.erase Assigned.set Assigning.assign
  congr 1
  funext other
  show JobAssign.hasAssignment (Function.update s.assigns node _ other)
    = Function.update (fun node => (s.assigns node).hasAssignment) node true other
  by_cases h : other = node
  · subst h
    rw [Function.update_self, Function.update_self]
    rfl
  · rw [Function.update_of_ne h, Function.update_of_ne h]

/-- Cleaning the contents cleans the marks. -/
theorem erase_preassignClean (s : Assigned) (nodes : List ℕ) :
    (s.preassignClean nodes).erase = s.erase.preassignClean nodes := by
  unfold Assigned.erase Assigned.preassignClean Assigning.preassignClean
  congr 1
  funext node
  show JobAssign.hasAssignment (if node ∈ nodes then .clean else s.assigns node)
    = ((s.assigns node).hasAssignment && !nodes.contains node)
  by_cases h : node ∈ nodes
  · rw [if_pos h, List.contains_iff_mem.mpr h, Bool.not_true, Bool.and_false]
    rfl
  · have hout : nodes.contains node = false := by
      rw [Bool.eq_false_iff]
      exact fun hin => h (List.contains_iff_mem.mp hin)
    rw [if_neg h, hout, Bool.not_false, Bool.and_true]

theorem Assigned.NoVirtual.set {s : Assigned} (h : s.NoVirtual) (node : ℕ) (spec : ParsSpecNode)
    (scratch : ScratchType) (ra : Option String) : (s.set node spec scratch ra).NoVirtual := by
  intro other
  show (Function.update s.assigns node _ other).virtualAssignment = false
  by_cases hother : other = node
  · subst hother
    rw [Function.update_self]
    exact h other
  · rw [Function.update_of_ne hother]
    exact h other

theorem Assigned.NoVirtual.preassignClean {s : Assigned} (h : s.NoVirtual) (nodes : List ℕ) :
    (s.preassignClean nodes).NoVirtual := by
  intro node
  show (if node ∈ nodes then JobAssign.clean else s.assigns node).virtualAssignment = false
  split
  · rfl
  · exact h node

/-- The same answer and the same marks. -/
structure Erases {α : Type} (found : α × Assigned) (found' : α × Assigning) : Prop where
  answer_eq : found.1 = found'.1
  erase_eq : found.2.erase = found'.2
  noVirtual : found.2.NoVirtual

section erase

variable (job : NodespecJob) {machines : Machines} (answers : Answers)
variable (parse : SpecNode → ParsSpecNode)

/-- One node more. -/
theorem erase_takeNode (hphys : machines.Physical) (test : ℕ → FitAnswer) {target : ℕ → ℕ}
    (htarget : ∀ node, target node = node) (content : ℕ → ParsSpecNode) {s : Assigned}
    (hs : s.NoVirtual) (nodes : List ℕ) : ∀ (scratch : ScratchType) (ra : Option String),
      (takeNode machines test target content s nodes scratch ra = none ∧
        PlanSched.takeNode (fun node => (test node).result) nodes s.erase = none) ∨
      ∃ s', takeNode machines test target content s nodes scratch ra = some s' ∧ s'.NoVirtual ∧
        PlanSched.takeNode (fun node => (test node).result) nodes s.erase = some s'.erase := by
  induction nodes with
  | nil => exact fun scratch ra => Or.inl ⟨rfl, rfl⟩
  | cons node nodes ih =>
      intro scratch ra
      have hpassed : passedOver machines s node = s.erase.hasAssignment node := by
        unfold passedOver
        rw [hphys.physicalNode_eq, hs node, Bool.false_or]
        rfl
      rw [takeNode, PlanSched.takeNode, hpassed]
      split
      · exact ih scratch ra
      · dsimp only
        split
        · exact ih _ _
        · refine Or.inr ⟨_, rfl, hs.set _ _ _ _, ?_⟩
          rw [erase_set, htarget]

/-- The nodes of one part. -/
theorem erase_tryAssignNodes (hphys : machines.Physical) (spec : SpecNode)
    (runNodes bootNodes : List ℕ) (count : ℕ) : ∀ {s : Assigned}, s.NoVirtual →
      Erases (tryAssignNodes job machines answers (parse spec) runNodes bootNodes count s)
        (PlanSched.tryAssignNodes job.toJobTraits (answers.tests machines parse) spec runNodes
          bootNodes count s.erase) := by
  induction count with
  | zero => exact fun hs => ⟨rfl, rfl, hs⟩
  | succ count ih =>
      intro s hs
      -- the test depends on the mode of the cluster, in both checks
      have htest : (fun node => (assignTest job answers (parse spec) node).result)
          = if job.clusterMode = .create then (answers.tests machines parse).canFitJobForBoot spec
            else (answers.tests machines parse).canFitJobForRun spec := by
        funext node
        unfold assignTest
        by_cases hmode : job.clusterMode = .create
        · rw [if_neg (not_not.mpr hmode), if_pos hmode]
          rfl
        · rw [if_pos hmode, if_neg hmode]
          rfl
      rw [tryAssignNodes, PlanSched.tryAssignNodes]
      unfold assignNode PlanSched.assignNode
      rcases erase_takeNode hphys (assignTest job answers (parse spec)) (fun _ => id_eq _)
        (assignedSpec job machines (parse spec)) hs runNodes .scratchNone none with
        ⟨htake, htake'⟩ | ⟨s', htake, hs', htake'⟩
      · rw [htest] at htake'
        rw [htake, htake']
        dsimp only
        unfold ondemandReboot PlanSched.ondemandReboot
        by_cases hmode : job.clusterMode = .none
        · rw [if_neg (not_not.mpr hmode), if_neg (not_not.mpr hmode)]
          rcases erase_takeNode hphys (answers.canFitJobForBoot (parse spec))
            hphys.physicalNode_eq (fun _ => parse spec) hs bootNodes .scratchNone none with
            ⟨hboot, hboot'⟩ | ⟨s', hboot, hs', hboot'⟩
          · change PlanSched.takeNode ((answers.tests machines parse).canFitJobForBoot spec) _ _
              = none at hboot'
            rw [hboot, hboot']
            dsimp only
            split <;> exact ⟨rfl, rfl, hs⟩
          · change PlanSched.takeNode ((answers.tests machines parse).canFitJobForBoot spec) _ _
              = some s'.erase at hboot'
            rw [hboot, hboot']
            exact ih hs'
        · rw [if_pos hmode, if_pos hmode]
          dsimp only
          split <;> exact ⟨rfl, rfl, hs⟩
      · rw [htest] at htake'
        rw [htake, htake']
        exact ih hs'

/-- All parts. -/
theorem erase_tryAssignSpec (hphys : machines.Physical)
    (hcount : ∀ spec, (parse spec).nodeCount = spec.nodeCount) (nodes : List ℕ)
    (specs : List SpecNode) : ∀ {s : Assigned}, s.NoVirtual →
      Erases (tryAssignSpec job machines answers nodes (specs.map parse) s)
        (PlanSched.tryAssignSpec job.toJobTraits (answers.tests machines parse) nodes specs
          s.erase) := by
  induction specs with
  | nil => exact fun hs => ⟨rfl, rfl, hs⟩
  | cons spec specs ih =>
      intro s hs
      -- without virtual nodes no node is passed over for another one
      have hfilter : filterReboot job machines answers nodes (parse spec) s
          = nodes.filter (suitableForReboot job.toJobTraits (answers.tests machines parse) s.erase
              spec) := by
        refine List.filter_congr ?_
        intro node _
        unfold suitableForSpec suitableForReboot passedOver
        rw [hphys.physicalNode_eq, hs node, Bool.false_or]
        rfl
      have hfound := erase_tryAssignNodes job answers parse hphys spec
        (nodes.mergeSort answers.stateBefore)
        ((filterReboot job machines answers nodes (parse spec) s).mergeSort answers.stateBefore)
        spec.nodeCount hs
      rw [List.map_cons, tryAssignSpec, PlanSched.tryAssignSpec]
      unfold uniqueNames
      dsimp only
      rw [hcount, ← hfilter]
      have hname : (answers.tests machines parse).name = machines.name := rfl
      have hbefore : (answers.tests machines parse).before = answers.stateBefore := rfl
      rw [hname, hbefore]
      generalize tryAssignNodes job machines answers (parse spec) _ _ _ s = found at hfound ⊢
      generalize PlanSched.tryAssignNodes _ _ spec _ _ _ _ = found' at hfound ⊢
      have hrest := ih hfound.noVirtual
      rw [hfound.erase_eq] at hrest
      by_cases hnames : ((nodes ++ filterReboot job machines answers nodes (parse spec) s).map
          machines.name).dedup.length < spec.nodeCount
      · rw [if_pos hnames, if_pos hnames]
        exact ⟨rfl, rfl, hs⟩
      · rw [if_neg hnames, if_neg hnames, hfound.answer_eq]
        by_cases hnonfit : found'.1 = .nonFit
        · rw [if_pos hnonfit, if_pos hnonfit]
          exact hfound
        · rw [if_neg hnonfit, if_neg hnonfit, hrest.answer_eq]
          split
          · exact ⟨rfl, hrest.erase_eq, hrest.noVirtual⟩
          · exact hrest

/-- The values of the placement property. -/
theorem erase_findPlace (hphys : machines.Physical)
    (hcount : ∀ spec, (parse spec).nodeCount = spec.nodeCount) {specs : List SpecNode}
    (hspecs : job.parsedNodespec = specs.map parse) (nodes : List ℕ)
    (values : List (ℕ → Bool)) : ∀ (result : CheckResult) {s : Assigned}, s.NoVirtual →
      Erases (findPlace job machines answers nodes values result s)
        (PlanSched.findPlace job.toJobTraits (answers.tests machines parse) nodes specs values
          result s.erase) := by
  induction values with
  | nil => exact fun result s hs => ⟨rfl, rfl, hs⟩
  | cons value values ih =>
      intro result s hs
      have hclean : (s.preassignClean nodes).clearSchedule.erase
          = { s.erase.preassignClean nodes with schedule := [] } := by
        rw [← erase_preassignClean]
        rfl
      have hfound := erase_tryAssignSpec job answers parse hphys hcount (nodes.filter value) specs
        (s := (s.preassignClean nodes).clearSchedule) (hs.preassignClean nodes)
      rw [hclean] at hfound
      rw [findPlace, PlanSched.findPlace]
      dsimp only
      rw [hspecs]
      generalize tryAssignSpec job machines answers _ _ _ = found at hfound ⊢
      generalize PlanSched.tryAssignSpec _ _ _ _ _ = found' at hfound ⊢
      rw [hfound.answer_eq, ← hfound.erase_eq]
      by_cases havailable : found'.1 = .available
      · rw [if_pos havailable, if_pos havailable]
        exact ⟨hfound.answer_eq, hfound.erase_eq, hfound.noVirtual⟩
      · rw [if_neg havailable, if_neg havailable]
        exact ih _ hfound.noVirtual

/-- `find_nodes`. -/
theorem erase_findNodes (hphys : machines.Physical)
    (hcount : ∀ spec, (parse spec).nodeCount = spec.nodeCount) {specs : List SpecNode}
    (hspecs : job.parsedNodespec = specs.map parse) (nodes : List ℕ) {s : Assigned}
    (hs : s.NoVirtual) :
    Erases (findNodes job machines answers nodes s)
      (PlanSched.findNodes job.toJobTraits (answers.tests machines parse) nodes specs s.erase) := by
  unfold findNodes PlanSched.findNodes
  cases job.placement with
  | none =>
      dsimp only
      rw [hspecs]
      exact erase_tryAssignSpec job answers parse hphys hcount nodes specs hs
  | some values => exact erase_findPlace job answers parse hphys hcount hspecs nodes values _ hs

end erase

/-- A flag is no assignment. -/
theorem erase_setFairshareFlag (s : Assigned) (node : ℕ) :
    (s.setFairshareFlag node).erase = s.erase := by
  unfold Assigned.erase Assigned.setFairshareFlag
  congr 1
  funext other
  show JobAssign.hasAssignment (Function.update s.assigns node _ other) = _
  by_cases h : other = node
  · subst h
    rw [Function.update_self]
    rfl
  · rw [Function.update_of_ne h]

/-- The cost sets flags only. -/
theorem erase_chargeNodes (spec : ParsSpecNode) (count : ℕ) :
    ∀ {nodes : List ℕ} {cost : List (ParsSpecNode × ℕ)} {s : Assigned}
      {r : List (ParsSpecNode × ℕ) × Assigned},
      chargeNodes spec count nodes cost s = .ok r → r.2.erase = s.erase := by
  induction count with
  | zero =>
      intro nodes cost s r h
      cases h
      rfl
  | succ count ih =>
      intro nodes cost s r h
      rw [chargeNodes] at h
      obtain ⟨⟨node, rest⟩, _, h⟩ := bind_ok.mp h
      exact (ih h).trans (erase_setFairshareFlag s node)

theorem erase_chargeSpecs (job : NodespecJob) (answers : Answers) (nodes : List ℕ)
    (specs : List ParsSpecNode) : ∀ {cost : List (ParsSpecNode × ℕ)} {s : Assigned}
      {r : List (ParsSpecNode × ℕ) × Assigned},
      chargeSpecs job answers nodes specs cost s = .ok r → r.2.erase = s.erase := by
  induction specs with
  | nil =>
      intro cost s r h
      cases h
      rfl
  | cons spec specs ih =>
      intro cost s r h
      rw [chargeSpecs] at h
      obtain ⟨⟨cost', s'⟩, hcharge, h⟩ := bind_ok.mp h
      exact (ih h).trans (erase_chargeNodes spec _ hcharge)

/-- What the check returns is what the check of the plan returns. -/
theorem erase_checkNodespec {job : NodespecJob} {machines : Machines}
    {answers again later : Answers} {parse : SpecNode → ParsSpecNode} (hphys : machines.Physical)
    (hcount : ∀ spec, (parse spec).nodeCount = spec.nodeCount) {specs : List SpecNode}
    (hspecs : job.parsedNodespec = specs.map parse) {ninfoArr : List ℕ} {s : Assigned}
    (hs : s.NoVirtual) {r : RunCheck × Assigned}
    (h : checkNodespec job machines answers again later ninfoArr s = .ok r) :
    PlanSched.checkNodespec job.toJobTraits (answers.tests machines parse)
      (again.tests machines parse) ninfoArr specs s.erase = (r.1, r.2.erase) := by
  have hsuitable : PlanSched.suitableForJob job.toJobTraits (answers.tests machines parse)
      = suitableForJob job answers := rfl
  unfold checkNodespec at h
  unfold PlanSched.checkNodespec
  rw [hsuitable]
  dsimp only at h ⊢
  set nodes := ninfoArr.filter (suitableForJob job answers)
  -- physical nodes have no slaves that would be added
  have hslaves : nodes ++ nodes.flatMap machines.slaveNodes = nodes := by
    have hnone : nodes.flatMap machines.slaveNodes = [] := by
      rw [List.flatMap_eq_nil_iff]
      exact fun node _ => hphys.slaveNodes_eq node
    rw [hnone, List.append_nil]
  rw [hslaves] at h
  have hfound := erase_findNodes job answers parse hphys hcount hspecs nodes hs
  generalize findNodes job machines answers nodes s = found at hfound h
  generalize PlanSched.findNodes _ _ nodes specs s.erase = found' at hfound ⊢
  rw [← hfound.answer_eq, ← hfound.erase_eq]
  cases hanswer : found.1 with
  | nonFit =>
      rw [hanswer] at h
      cases h
      rw [erase_preassignClean]
  | available =>
      rw [hanswer] at h
      obtain ⟨⟨cost, s'⟩, hcost, h⟩ := bind_ok.mp h
      cases h
      show (_, found.2.erase) = (_, s'.erase)
      rw [erase_chargeSpecs job later nodes _ hcost]
  | occupied =>
      rw [hanswer] at h
      dsimp only at h ⊢
      cases hadmin : job.isAdminQueue with
      | true =>
          rw [hadmin, if_pos rfl] at h
          cases h
          rw [if_pos rfl]
      | false =>
          rw [hadmin, if_neg Bool.false_ne_true] at h
          rw [if_neg Bool.false_ne_true]
          have hstarved := erase_findNodes job again parse hphys hcount hspecs nodes
            (s := (found.2.preassignClean ninfoArr).clearSchedule)
            (hfound.noVirtual.preassignClean ninfoArr)
          have hclean : (found.2.preassignClean ninfoArr).clearSchedule.erase
              = { found.2.erase.preassignClean ninfoArr with schedule := [] } := by
            rw [← erase_preassignClean]
            rfl
          rw [hclean] at hstarved
          generalize findNodes job machines again nodes _ = starved at hstarved h
          generalize PlanSched.findNodes _ _ nodes specs _ = starved' at hstarved ⊢
          rw [← hstarved.answer_eq, ← hstarved.erase_eq]
          cases hstarving : job.isStarving with
          | true =>
              rw [hstarving, if_pos rfl] at h
              rw [if_pos rfl]
              by_cases hagain : starved.1 = .occupied
              · rw [if_pos hagain] at h
                cases h
                rw [if_pos hagain]
              · rw [if_neg hagain] at h
                cases h
                rw [if_neg hagain]
          | false =>
              rw [hstarving, if_neg Bool.false_ne_true] at h
              cases h
              rw [if_neg Bool.false_ne_true, ← hclean]

end PlanSched.Nodespec
