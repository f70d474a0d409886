/-
# Assignments left on the nodes

Models what `try_run_plan` (`SchedulerRealm.cpp`) leaves on the nodes: for each job that
is due `job_create_nodespec` (`plan_jobs.cpp`) writes the node specification,
`check_nodespec` (`nodespec.cpp`) looks for the nodes and marks them as assigned, and
`nodes_preassign_clean` takes the marks off again on some ways out only.  The nodes are
shared by all jobs of the plan; a node that carries an assignment is passed over.

The numbers in `ninfoArr` stand for the nodes themselves here, and the tests of a node
(free cores, memory, state, properties) are given from outside.

* `checkNodespec_frame`: the check changes no other node than those of its job;
* `checkNodespec_alone`: its answer depends on no other mark than those;
* `calls_clean_iff`: whatever the tests and the server answer, every job of the plan finds
  its nodes without assignment, exactly if no two due jobs share a node or a `JobInfo`, and
  none is in front of a job to be removed.
-/
import PlanSched.RunPlan

namespace PlanSched

open CursorWalk

/-! ## Looking for nodes -/

/-- The answer of a test. -/
inductive CheckResult : Type where
  | available
  | occupied
  | nonFit
  deriving DecidableEq, Repr

/-- What the job wants of a virtual cluster. -/
inductive ClusterMode : Type where
  | none
  | create
  | use
  deriving DecidableEq, Repr

/-- One part of a parsed node specification. -/
structure SpecNode where
  nodeCount : ℕ
  host : ℕ
  procs : ℕ
  deriving DecidableEq, Repr

/-- What the nodes answer to one job. -/
structure NodeTests where
  name : ℕ → String
  canRunJob : ℕ → CheckResult
  canBootJob : ℕ → CheckResult
  canFitJobForRun : SpecNode → ℕ → CheckResult
  canFitJobForBoot : SpecNode → ℕ → CheckResult
  before : ℕ → ℕ → Bool

/-- What the search reads of a job; `placement` lists, for each value of the property it
names, the nodes that have it. -/
structure JobTraits where
  clusterMode : ClusterMode
  placement : Option (List (ℕ → Bool))
  isAdminQueue : Bool
  isStarving : Bool

/-- The marks on the nodes and `jinfo->schedule`. -/
structure Assigning where
  hasAssignment : ℕ → Bool
  schedule : List ℕ

/-- `set_assignment` and the entry in the schedule. -/
def Assigning.assign (s : Assigning) (node : ℕ) : Assigning where
  hasAssignment := Function.update s.hasAssignment node true
  schedule := s.schedule ++ [node]

/-- `nodes_preassign_clean`. -/
def Assigning.preassignClean (s : Assigning) (nodes : List ℕ) : Assigning :=
  { s with hasAssignment := fun node => s.hasAssignment node && !nodes.contains node }

/-- The common loop of `assign_node` and `ondemand_reboot`: take the first node that
carries no assignment and passes the test. -/
def takeNode (test : ℕ → CheckResult) : List ℕ → Assigning → Option Assigning
  | [], _ => none
  | node :: nodes, s =>
      if s.hasAssignment node then takeNode test nodes s
      else if test node ≠ .available then takeNode test nodes s
      else some (s.assign node)

/-- `assign_node`. -/
def assignNode (traits : JobTraits) (tests : NodeTests) (spec : SpecNode) (nodes : List ℕ)
    (s : Assigning) : Option Assigning :=
  takeNode (if traits.clusterMode = .create then tests.canFitJobForBoot spec
    else tests.canFitJobForRun spec) nodes s

/-- `ondemand_reboot`; only for normal jobs. -/
def ondemandReboot (traits : JobTraits) (tests : NodeTests) (spec : SpecNode) (nodes : List ℕ)
    (s : Assigning) : Option Assigning :=
  if traits.clusterMode ≠ .none then none
  else takeNode (tests.canFitJobForBoot spec) nodes s

/-- `try_assign_nodes`, with the number of nodes still to be found. -/
def tryAssignNodes (traits : JobTraits) (tests : NodeTests) (spec : SpecNode)
    (runNodes bootNodes : List ℕ) : ℕ → Assigning → CheckResult × Assigning
  | 0, s => (.available, s)
  | count + 1, s =>
      match assignNode traits tests spec runNodes s with
      | some s' => tryAssignNodes traits tests spec runNodes bootNodes count s'
      | none =>
          match ondemandReboot traits tests spec bootNodes s with
          | some s' => tryAssignNodes traits tests spec runNodes bootNodes count s'
          | none =>
              if runNodes = [] ∧ (bootNodes = [] ∨ traits.clusterMode ≠ .none) then (.nonFit, s)
              else (.occupied, s)

/-- `NodeSuitableForJob`. -/
def suitableForJob (traits : JobTraits) (tests : NodeTests) (node : ℕ) : Bool :=
  !(traits.clusterMode == .use && tests.canRunJob node == .nonFit) &&
  !(traits.clusterMode == .create && tests.canBootJob node == .nonFit) &&
  !(tests.canRunJob node == .nonFit && tests.canBootJob node == .nonFit)

/-- `NodeSuitableForSpec` as `filter_reboot` uses it. -/
def suitableForReboot (traits : JobTraits) (tests : NodeTests) (s : Assigning) (spec : SpecNode)
    (node : ℕ) : Bool :=
  !s.hasAssignment node &&
  !(traits.clusterMode == .use && tests.canFitJobForRun spec node == .nonFit) &&
  !(traits.clusterMode == .create && tests.canFitJobForBoot spec node == .nonFit) &&
  !(tests.canFitJobForRun spec node == .nonFit && tests.canFitJobForBoot spec node == .nonFit)

/-- `try_assign_spec`: part by part of the specification. -/
def tryAssignSpec (traits : JobTraits) (tests : NodeTests) (nodes : List ℕ) :
    List SpecNode → Assigning → CheckResult × Assigning
  | [], s => (.available, s)
  | spec :: specs, s =>
      let rebootNodes := nodes.filter (suitableForReboot traits tests s spec)
      if ((nodes ++ rebootNodes).map tests.name).dedup.length < spec.nodeCount then (.nonFit, s)
      else
        let found := tryAssignNodes traits tests spec (nodes.mergeSort tests.before)
          (rebootNodes.mergeSort tests.before) spec.nodeCount s
        if found.1 = .nonFit then found
        else
          let rest := tryAssignSpec traits tests nodes specs found.2
          if rest.1 = .available then (found.1, rest.2) else rest

/-- The loop of `find_nodes` over the values of the placement property. -/
def findPlace (traits : JobTraits) (tests : NodeTests) (nodes : List ℕ) (specs : List SpecNode) :
    List (ℕ → Bool) → CheckResult → Assigning → CheckResult × Assigning
  | [], result, s => (result, s)
  | value :: values, result, s =>
      let cleaned : Assigning := { s.preassignClean nodes with schedule := [] }
      let found := tryAssignSpec traits tests (nodes.filter value) specs cleaned
      if found.1 = .available then found
      else
        findPlace traits tests nodes specs values
          (if found.1 = .occupied then .occupied else result) found.2

/-- `find_nodes`. -/
def findNodes (traits : JobTraits) (tests : NodeTests) (nodes : List ℕ) (specs : List SpecNode)
    (s : Assigning) : CheckResult × Assigning :=
  match traits.placement with
  | none => tryAssignSpec traits tests nodes specs s
  | some values => findPlace traits tests nodes specs values .nonFit s

/-- `REQUEST_NOT_MATCHED`, from `RET_BASE`. -/
def requestNotMatched : RunCheck := .other 32

/-- `JOB_SCHEDULED`, from `RET_BASE`. -/
def jobScheduled : RunCheck := .other 35

/-- `check_nodespec`.  Time passes between the two searches for a starving job, so the
second one has tests of its own. -/
def checkNodespec (traits : JobTraits) (tests again : NodeTests) (ninfoArr : List ℕ)
    (specs : List SpecNode) (s : Assigning) : RunCheck × Assigning :=
  let nodes := ninfoArr.filter (suitableForJob traits tests)
  let found := findNodes traits tests nodes specs s
  match found.1 with
  | .nonFit => (requestNotMatched, found.2.preassignClean ninfoArr)
  | .occupied =>
      if traits.isAdminQueue then (nodespecNotEnoughNodesTotal, found.2)
      else
        let cleaned : Assigning := { found.2.preassignClean ninfoArr with schedule := [] }
        if traits.isStarving then
          let starved := findNodes traits again nodes specs cleaned
          if starved.1 = .occupied then (nodespecNotEnoughNodesTotal, starved.2)
          else (jobScheduled, starved.2)
        else (nodespecNotEnoughNodesTotal, cleaned)
  | .available => (.success, found.2)

/-- The check does not speak of dynamic resources. -/
theorem checkNodespec_code (traits : JobTraits) (tests again : NodeTests) (ninfoArr : List ℕ)
    (specs : List SpecNode) (s : Assigning) :
    (checkNodespec traits tests again ninfoArr specs s).1 ≠ .insuficientDynamicResource := by
  unfold checkNodespec requestNotMatched nodespecNotEnoughNodesTotal jobScheduled
  dsimp only
  split
  · simp
  · split
    · simp
    · split
      · split <;> simp
      · simp
  · simp

/-! ## The specification of a planned job -/

/-- The loop of `job_create_nodespec`: a part for each run of one node, the node of the
last run and its length. -/
def nodespecLoop (reqPpn : ℕ) : Option ℕ → ℕ → List (Option ℕ) → List SpecNode × Option ℕ × ℕ
  | planned, numPpn, [] => ([], planned, numPpn)
  | none, numPpn, entry :: entries =>
      nodespecLoop reqPpn entry (if entry = none then numPpn + 1 else numPpn) entries
  | some node, numPpn, entry :: entries =>
      if entry = some node then nodespecLoop reqPpn (some node) (numPpn + 1) entries
      else
        let rest := nodespecLoop reqPpn entry 1 entries
        (⟨1, node, numPpn * reqPpn⟩ :: rest.1, rest.2)

/-- Each entry once, where it comes first. -/
def distinctEntries (entries : List (Option ℕ)) : List (Option ℕ) :=
  entries.foldl (fun found entry => if entry ∈ found then found else found ++ [entry]) []

/-- What `job_create_nodespec` leaves: the specification as it is parsed back, the array of
nodes, and the nodes the check gets. -/
structure CreatedNodespec where
  specs : List SpecNode
  ninfoArr : List (Option ℕ)
  nodes : List ℕ

/-- `job_create_nodespec`; when the last entry is `NULL` the job keeps its specification
`own` and no node is returned. -/
def jobCreateNodespec (own : List SpecNode) (job : PlanJob) : CreatedNodespec :=
  match nodespecLoop job.reqPpn none 1 job.ninfoArr with
  | (_, none, _) => ⟨own, job.ninfoArr, []⟩
  | (parts, some node, numPpn) =>
      let distinct := distinctEntries job.ninfoArr
      { specs := parts ++ [⟨1, node, numPpn * job.reqPpn⟩]
        ninfoArr := distinct ++ List.replicate (job.ninfoArr.length - distinct.length) none
        nodes := distinct.reduceOption }

/-! ## The walk -/

/-- What the walk depends on: as for the walk without nodes, and the traits of the jobs,
the answers of the nodes by attempt, and the specifications the jobs came with. -/
structure NodeEnv where
  localServer : String
  rescInfoDb : List String
  outcome : ℕ → Outcome
  traits : PlanJob → JobTraits
  tests : ℕ → NodeTests
  again : ℕ → NodeTests
  nodespec : PlanJob → List SpecNode

/-- A call of `check_nodespec`: for which job and nodes, what it found on entry, and its
answer. -/
structure NodespecCall where
  attempt : ℕ
  job : PlanJob
  created : CreatedNodespec
  before : Assigning
  code : RunCheck

/-- The state of the walk with the marks on the nodes, the schedules of the jobs by job
identifier, and the calls of `check_nodespec` so far. -/
structure AssignState where
  run : RunState
  hasAssignment : ℕ → Bool
  schedules : String → List ℕ
  calls : List NodespecCall

/-- What `check_nodespec` finds on entry for a job. -/
def AssignState.assigning (st : AssignState) (job : PlanJob) : Assigning :=
  ⟨st.hasAssignment, st.schedules job.jinfo.jobId⟩

/-- The check of the nodes of a job in an attempt. -/
def NodeEnv.check (env : NodeEnv) (attempt : ℕ) (job : PlanJob) (created : CreatedNodespec)
    (s : Assigning) : RunCheck × Assigning :=
  checkNodespec (env.traits job) (env.tests attempt) (env.again attempt) created.nodes
    created.specs s

/-- The checks of `is_ok_to_run_job_new` in front of `check_nodespec`. -/
def NodeEnv.checksBefore (env : NodeEnv) (st : RunState) (job : PlanJob) : RunCheck × Counters :=
  isOkToRunJobNew env.rescInfoDb st.counters st.dynamicResources
    { env.outcome st.tried with nodespec := .success } job.jinfo

/-- `check_nodespec` is called for the job. -/
def NodeEnv.reaches (env : NodeEnv) (st : RunState) (job : PlanJob) : Bool :=
  (env.outcome st.tried).connected && (env.checksBefore st job).1 == .success

/-- The state after the call of `check_nodespec` for a job, if it is made. -/
def NodeEnv.assigned (env : NodeEnv) (st : AssignState) (job : PlanJob) : AssignState :=
  if env.reaches st.run job then
    let created := jobCreateNodespec (env.nodespec job) job
    let checked := env.check st.run.tried job created (st.assigning job)
    { st with
      hasAssignment := checked.2.hasAssignment
      schedules := Function.update st.schedules job.jinfo.jobId checked.2.schedule
      calls := st.calls ++ [⟨st.run.tried, job, created, st.assigning job, checked.1⟩] }
  else st

/-- The walk without nodes, with the answer of the checks for this job. -/
def NodeEnv.runEnv (env : NodeEnv) (st : AssignState) (job : PlanJob) : RunEnv where
  localServer := env.localServer
  rescInfoDb := env.rescInfoDb
  outcome := env.outcome
  isOk := fun run _ =>
    let before := env.checksBefore run job
    if before.1 = .success then
      ((env.check st.run.tried job (jobCreateNodespec (env.nodespec job) job)
        (st.assigning job)).1, before.2)
    else before

/-- Try to start a job that is due; the marks stay whatever comes of it. -/
def assignJob (env : NodeEnv) (timeNow : ℤ) (st : AssignState) (job : PlanJob) :
    Visit AssignState PlanJob :=
  let ninfoArr := (jobCreateNodespec (env.nodespec job) job).ninfoArr
  match tryRunJob (env.runEnv st job) timeNow st.run job with
  | .keep run job' =>
      .keep { env.assigned st job with run := run } { job' with ninfoArr := ninfoArr }
  | .remove run => .remove { env.assigned st job with run := run }
  | .stop run => .stop { env.assigned st job with run := run }

/-- The body of the loop of `try_run_plan`. -/
def assignVisit (env : NodeEnv) (timeNow : ℤ) (st : AssignState) (job : PlanJob) :
    Visit AssignState PlanJob :=
  if job.removable timeNow then .remove st
  else if job.due timeNow then assignJob env timeNow st job
  else .keep st job

/-- `try_run_plan` with the marks on the nodes. -/
def assignPlan (env : NodeEnv) (timeNow : ℤ) : AssignState → List (List PlanJob) → AssignState
  | st, [] => st
  | st, jobs :: rest =>
      let (st', _, finished) := walk (assignVisit env timeNow) st jobs
      if finished then assignPlan env timeNow st' rest else st'

/-- The state at the start of the call: the nodes and jobs are those of a new snapshot. -/
def AssignState.initial (counters : Counters)
    (dynamicResources : List (String × DynamicResource)) : AssignState where
  run := RunState.initial counters dynamicResources
  hasAssignment := fun _ => false
  schedules := fun _ => []
  calls := []

/-! ## The property and the condition -/

/-- The job found none of its nodes assigned and its schedule empty. -/
def NodespecCall.Clean (call : NodespecCall) : Prop :=
  (∀ node ∈ call.created.nodes, call.before.hasAssignment node = false) ∧
    call.before.schedule = []

/-- Neither a node nor the `JobInfo` of one job is one of the other. -/
def RunsApart (a b : PlanJob) : Prop :=
  a.jinfo.jobId ≠ b.jinfo.jobId ∧ ∀ node : ℕ, some node ∈ a.ninfoArr → some node ∉ b.ninfoArr

/-- No job of the plan leaves anything behind for another one, whatever the answers of the
nodes, of the limits and of the server. -/
def NothingLeftBehind (timeNow : ℤ) (clusters : List (List PlanJob)) : Prop :=
  ∀ (env : NodeEnv) (counters : Counters)
    (dynamicResources : List (String × DynamicResource)),
    ∀ call ∈ (assignPlan env timeNow (AssignState.initial counters dynamicResources)
        clusters).calls,
      call.Clean ∧ call.code =
        (env.check call.attempt call.job call.created ⟨fun _ => false, []⟩).1

/-- The due jobs have nothing in common, and none is in front of a job to be removed. -/
structure DueApart (timeNow : ℤ) (clusters : List (List PlanJob)) : Prop where
  removalsFirst : ∀ jobs ∈ clusters, RemovalsFirst timeNow jobs
  apart : (clusters.flatten.filter (PlanJob.due timeNow)).Pairwise RunsApart

/-! ## The check and the marks -/

/-- The marks of other nodes are the same. -/
def FrameOf (nodes : List ℕ) (s s' : Assigning) : Prop :=
  ∀ node, node ∉ nodes → s'.hasAssignment node = s.hasAssignment node

theorem FrameOf.trans {nodes : List ℕ} {s₁ s₂ s₃ : Assigning} (h : FrameOf nodes s₁ s₂)
    (h' : FrameOf nodes s₂ s₃) : FrameOf nodes s₁ s₃ :=
  fun node hnode => (h' node hnode).trans (h node hnode)

/-- Two states that differ at most in the marks of other nodes. -/
structure SameOn (nodes : List ℕ) (s t : Assigning) : Prop where
  schedule_eq : s.schedule = t.schedule
  marks_eq : ∀ node ∈ nodes, s.hasAssignment node = t.hasAssignment node

/-- Two answers that are the same, with states that differ at most in the marks of other
nodes. -/
structure SameAnswer {α : Type} (nodes : List ℕ) (r r' : α × Assigning) : Prop where
  answer_eq : r.1 = r'.1
  state : SameOn nodes r.2 r'.2

/-- Taking off marks does not touch other nodes. -/
theorem preassignClean_frame {nodes big : List ℕ} (hsub : ∀ n ∈ nodes, n ∈ big) (s : Assigning)
    (schedule : List ℕ) : FrameOf big s { s.preassignClean nodes with schedule := schedule } := by
  intro node hnode
  have hout : nodes.contains node = false := by
    cases hc : nodes.contains node with
    | false => rfl
    | true => exact absurd (hsub node (List.contains_iff_mem.mp hc)) hnode
  show (s.hasAssignment node && !nodes.contains node) = s.hasAssignment node
  rw [hout]
  exact Bool.and_true _

/-- Taking off marks keeps states that are the same. -/
theorem SameOn.preassignClean {big : List ℕ} {s t : Assigning} (h : SameOn big s t)
    (nodes : List ℕ) :
    SameOn big (s.preassignClean nodes) (t.preassignClean nodes) := by
  refine ⟨h.schedule_eq, ?_⟩
  intro node hnode
  show (s.hasAssignment node && _) = (t.hasAssignment node && _)
  rw [h.marks_eq node hnode]

/-- So does a new start with the schedule. -/
theorem SameOn.restart {big : List ℕ} {s t : Assigning} (h : SameOn big s t) (nodes : List ℕ) :
    SameOn big { s.preassignClean nodes with schedule := [] }
      { t.preassignClean nodes with schedule := [] } :=
  ⟨rfl, (h.preassignClean nodes).marks_eq⟩

section search

variable (traits : JobTraits) (tests : NodeTests) {big : List ℕ}

/-- Only the nodes looked at are taken. -/
theorem takeNode_frame {test : ℕ → CheckResult} (nodes : List ℕ) :
    ∀ {s s' : Assigning}, (∀ n ∈ nodes, n ∈ big) → takeNode test nodes s = some s' →
      FrameOf big s s' := by
  induction nodes with
  | nil =>
      intro s s' _ h
      cases h
  | cons node nodes ih =>
      intro s s' hsub h
      have hrest : ∀ n ∈ nodes, n ∈ big := fun n hn => hsub n (List.mem_cons_of_mem _ hn)
      rw [takeNode] at h
      split at h
      · exact ih hrest h
      · split at h
        · exact ih hrest h
        · cases h
          intro other hother
          refine Function.update_of_ne ?_ _ _
          rintro rfl
          exact hother (hsub other List.mem_cons_self)

/-- The node taken depends on the marks of the nodes looked at only. -/
theorem takeNode_same {test : ℕ → CheckResult} (nodes : List ℕ) :
    ∀ {s t : Assigning}, (∀ n ∈ nodes, n ∈ big) → SameOn big s t →
      (takeNode test nodes s = none ∧ takeNode test nodes t = none) ∨
      ∃ s' t', takeNode test nodes s = some s' ∧ takeNode test nodes t = some t' ∧
        SameOn big s' t' := by
  induction nodes with
  | nil =>
      intro s t _ _
      exact Or.inl ⟨rfl, rfl⟩
  | cons node nodes ih =>
      intro s t hsub h
      have hrest : ∀ n ∈ nodes, n ∈ big := fun n hn => hsub n (List.mem_cons_of_mem _ hn)
      rw [takeNode, takeNode, ← h.marks_eq node (hsub node List.mem_cons_self)]
      split
      · exact ih hrest h
      · split
        · exact ih hrest h
        · refine Or.inr ⟨_, _, rfl, rfl, ?_, ?_⟩
          · show s.schedule ++ [node] = t.schedule ++ [node]
            rw [h.schedule_eq]
          · intro other hother
            show Function.update _ _ _ other = Function.update _ _ _ other
            by_cases hnode : other = node
            · subst hnode
              rw [Function.update_self, Function.update_self]
            · rw [Function.update_of_ne hnode, Function.update_of_ne hnode, h.marks_eq other hother]

/-- `ondemand_reboot` is a search as well, or does nothing. -/
theorem ondemandReboot_eq (spec : SpecNode) (nodes : List ℕ) (s : Assigning) :
    ondemandReboot traits tests spec nodes s
      = takeNode (tests.canFitJobForBoot spec) (if traits.clusterMode ≠ .none then [] else nodes)
          s := by
  unfold ondemandReboot
  split <;> rfl

/-- Parts of the nodes looked at. -/
theorem mem_ite_nil {p : Prop} [Decidable p] {nodes : List ℕ} {n : ℕ}
    (h : n ∈ if p then [] else nodes) : n ∈ nodes := by
  split at h
  · cases h
  · exact h

/-- The loop over the nodes of one part: its frame. -/
theorem tryAssignNodes_frame {spec : SpecNode} {runNodes bootNodes : List ℕ}
    (hrun : ∀ n ∈ runNodes, n ∈ big) (hboot : ∀ n ∈ bootNodes, n ∈ big) (count : ℕ) :
    ∀ s, FrameOf big s (tryAssignNodes traits tests spec runNodes bootNodes count s).2 := by
  induction count with
  | zero => exact fun s node _ => rfl
  | succ count ih =>
      intro s
      rw [tryAssignNodes]
      split
      · next s' hs' => exact (takeNode_frame runNodes hrun hs').trans (ih s')
      · split
        · next s' hs' =>
            rw [ondemandReboot_eq] at hs'
            exact (takeNode_frame _ (fun n hn => hboot n (mem_ite_nil hn)) hs').trans (ih s')
        · split <;> exact fun node _ => rfl

/-- The loop over the nodes of one part: what it depends on. -/
theorem tryAssignNodes_same {spec : SpecNode} {runNodes bootNodes : List ℕ}
    (hrun : ∀ n ∈ runNodes, n ∈ big) (hboot : ∀ n ∈ bootNodes, n ∈ big) (count : ℕ) :
    ∀ {s t : Assigning}, SameOn big s t →
      SameAnswer big (tryAssignNodes traits tests spec runNodes bootNodes count s)
        (tryAssignNodes traits tests spec runNodes bootNodes count t) := by
  have hboot' : ∀ n ∈ (if traits.clusterMode ≠ .none then [] else bootNodes), n ∈ big :=
    fun n hn => hboot n (mem_ite_nil hn)
  induction count with
  | zero => exact fun h => ⟨rfl, h⟩
  | succ count ih =>
      intro s t h
      rw [tryAssignNodes, tryAssignNodes]
      unfold assignNode
      rcases takeNode_same runNodes hrun h with ⟨hs, ht⟩ | ⟨s', t', hs, ht, h'⟩
      · rw [hs, ht, ondemandReboot_eq, ondemandReboot_eq]
        rcases takeNode_same _ hboot' h with ⟨hs, ht⟩ | ⟨s', t', hs, ht, h'⟩
        · rw [hs, ht]
          dsimp only
          split <;> exact ⟨rfl, h⟩
        · rw [hs, ht]
          exact ih h'
      · rw [hs, ht]
        exact ih h'

/-- The search for all parts: its frame. -/
theorem tryAssignSpec_frame {nodes : List ℕ} (hsub : ∀ n ∈ nodes, n ∈ big)
    (specs : List SpecNode) :
    ∀ s, FrameOf big s (tryAssignSpec traits tests nodes specs s).2 := by
  induction specs with
  | nil => exact fun s node _ => rfl
  | cons spec specs ih =>
      intro s
      rw [tryAssignSpec]
      dsimp only
      set rebootNodes := nodes.filter (suitableForReboot traits tests s spec) with hreboot
      set found := tryAssignNodes traits tests spec (nodes.mergeSort tests.before)
        (rebootNodes.mergeSort tests.before) spec.nodeCount s with hfound
      have hframe : FrameOf big s found.2 := by
        rw [hfound]
        refine tryAssignNodes_frame traits tests ?_ ?_ _ s
        · intro n hn
          exact hsub n (List.mem_mergeSort.mp hn)
        · intro n hn
          exact hsub n (List.mem_filter.mp (List.mem_mergeSort.mp hn)).1
      split
      · exact fun node _ => rfl
      · split
        · exact hframe
        · split
          · exact hframe.trans (ih found.2)
          · exact hframe.trans (ih found.2)

/-- The search for all parts: what it depends on. -/
theorem tryAssignSpec_same {nodes : List ℕ} (hsub : ∀ n ∈ nodes, n ∈ big)
    (specs : List SpecNode) : ∀ {s t : Assigning}, SameOn big s t →
      SameAnswer big (tryAssignSpec traits tests nodes specs s)
        (tryAssignSpec traits tests nodes specs t) := by
  induction specs with
  | nil => exact fun h => ⟨rfl, h⟩
  | cons spec specs ih =>
      intro s t h
      have hfilter : nodes.filter (suitableForReboot traits tests s spec)
          = nodes.filter (suitableForReboot traits tests t spec) := by
        refine List.filter_congr ?_
        intro n hn
        unfold suitableForReboot
        rw [h.marks_eq n (hsub n hn)]
      rw [tryAssignSpec, tryAssignSpec]
      dsimp only
      rw [hfilter]
      set rebootNodes := nodes.filter (suitableForReboot traits tests t spec)
      have hfound : SameAnswer big
          (tryAssignNodes traits tests spec (nodes.mergeSort tests.before)
            (rebootNodes.mergeSort tests.before) spec.nodeCount s)
          (tryAssignNodes traits tests spec (nodes.mergeSort tests.before)
            (rebootNodes.mergeSort tests.before) spec.nodeCount t) := by
        refine tryAssignNodes_same traits tests ?_ ?_ _ h
        · intro n hn
          exact hsub n (List.mem_mergeSort.mp hn)
        · intro n hn
          exact hsub n (List.mem_filter.mp (List.mem_mergeSort.mp hn)).1
      have hrest := ih hfound.state
      split
      · exact ⟨rfl, h⟩
      · rw [hfound.answer_eq, hrest.answer_eq]
        split
        · exact ⟨by rw [hfound.answer_eq], hfound.state⟩
        · split
          · exact ⟨rfl, hrest.state⟩
          · exact ⟨hrest.answer_eq, hrest.state⟩

/-- The search over the values of the placement property: its frame. -/
theorem findPlace_frame {nodes : List ℕ} {specs : List SpecNode} (hsub : ∀ n ∈ nodes, n ∈ big)
    (values : List (ℕ → Bool)) : ∀ result s,
      FrameOf big s (findPlace traits tests nodes specs values result s).2 := by
  induction values with
  | nil => exact fun result s node _ => rfl
  | cons value values ih =>
      intro result s
      have hvalue : ∀ n ∈ nodes.filter value, n ∈ big :=
        fun n hn => hsub n (List.mem_filter.mp hn).1
      rw [findPlace]
      have hframe := (preassignClean_frame hsub s []).trans (tryAssignSpec_frame
        traits tests hvalue specs _)
      dsimp only
      split
      · exact hframe
      · exact hframe.trans (ih _ _)

/-- The search over the values of the placement property: what it depends on. -/
theorem findPlace_same {nodes : List ℕ} {specs : List SpecNode} (hsub : ∀ n ∈ nodes, n ∈ big)
    (values : List (ℕ → Bool)) : ∀ (result : CheckResult) {s t : Assigning}, SameOn big s t →
      SameAnswer big (findPlace traits tests nodes specs values result s)
        (findPlace traits tests nodes specs values result t) := by
  induction values with
  | nil => exact fun result s t h => ⟨rfl, h⟩
  | cons value values ih =>
      intro result s t h
      rw [findPlace, findPlace]
      have hvalue : ∀ n ∈ nodes.filter value, n ∈ big :=
        fun n hn => hsub n (List.mem_filter.mp hn).1
      have hfound := tryAssignSpec_same traits tests hvalue specs (h.restart nodes)
      dsimp only
      rw [hfound.answer_eq]
      split
      · exact ⟨hfound.answer_eq, hfound.state⟩
      · exact ih _ hfound.state

/-- `find_nodes`: its frame. -/
theorem findNodes_frame {nodes : List ℕ} {specs : List SpecNode} (hsub : ∀ n ∈ nodes, n ∈ big)
    (s : Assigning) : FrameOf big s (findNodes traits tests nodes specs s).2 := by
  unfold findNodes
  split
  · exact tryAssignSpec_frame traits tests hsub specs s
  · exact findPlace_frame traits tests hsub _ _ s

/-- `find_nodes`: what it depends on. -/
theorem findNodes_same {nodes : List ℕ} (specs : List SpecNode) (hsub : ∀ n ∈ nodes, n ∈ big)
    {s t : Assigning} (h : SameOn big s t) :
    SameAnswer big (findNodes traits tests nodes specs s)
      (findNodes traits tests nodes specs t) := by
  unfold findNodes
  split
  · exact tryAssignSpec_same traits tests hsub specs h
  · exact findPlace_same traits tests hsub _ _ h

end search

/-- The check changes the marks of no other node than those it gets. -/
theorem checkNodespec_frame (traits : JobTraits) (tests again : NodeTests) (ninfoArr : List ℕ)
    (specs : List SpecNode) (s : Assigning) :
    FrameOf ninfoArr s (checkNodespec traits tests again ninfoArr specs s).2 := by
  have hsub : ∀ n ∈ ninfoArr.filter (suitableForJob traits tests), n ∈ ninfoArr :=
    fun n hn => (List.mem_filter.mp hn).1
  unfold checkNodespec
  dsimp only
  set found := findNodes traits tests (ninfoArr.filter (suitableForJob traits tests)) specs s
    with hfound
  have hframe : FrameOf ninfoArr s found.2 := by
    rw [hfound]
    exact findNodes_frame traits tests hsub s
  have hclean := hframe.trans (preassignClean_frame (fun n hn => hn) found.2 found.2.schedule)
  have hrestart := hframe.trans (preassignClean_frame (fun n hn => hn) found.2 [])
  split
  · exact hclean
  · split
    · exact hframe
    · split
      · split <;> exact hrestart.trans (findNodes_frame traits again hsub _)
      · exact hrestart
  · exact hframe

/-- The answer of the check does not depend on the marks of other nodes. -/
theorem checkNodespec_alone {traits : JobTraits} {tests again : NodeTests} {ninfoArr : List ℕ}
    {specs : List SpecNode} {s t : Assigning} (h : SameOn ninfoArr s t) :
    (checkNodespec traits tests again ninfoArr specs s).1
      = (checkNodespec traits tests again ninfoArr specs t).1 := by
  have hsub : ∀ n ∈ ninfoArr.filter (suitableForJob traits tests), n ∈ ninfoArr :=
    fun n hn => (List.mem_filter.mp hn).1
  unfold checkNodespec
  dsimp only
  have hfound := findNodes_same traits tests specs hsub h
  have hstarved := findNodes_same traits again specs hsub (hfound.state.restart ninfoArr)
  rw [hfound.answer_eq]
  split
  · rfl
  · split
    · rfl
    · split
      · rw [hstarved.answer_eq]
        split <;> rfl
      · rfl
  · rfl

/-! ## Jobs that have nothing in common -/

/-- The entries of an array, each once. -/
theorem distinctEntries_spec (entries : List (Option ℕ)) :
    (∀ entry, entry ∈ distinctEntries entries ↔ entry ∈ entries) ∧
      (distinctEntries entries).Nodup := by
  -- the induction needs the entries found so far
  have hgeneral : ∀ (entries found : List (Option ℕ)), found.Nodup →
      (∀ entry, entry ∈ entries.foldl (fun found entry =>
          if entry ∈ found then found else found ++ [entry]) found ↔
        entry ∈ found ∨ entry ∈ entries) ∧
      (entries.foldl (fun found entry =>
        if entry ∈ found then found else found ++ [entry]) found).Nodup := by
    intro entries
    induction entries with
    | nil => exact fun found hnodup => ⟨by simp, hnodup⟩
    | cons first entries ih =>
        intro found hnodup
        rw [List.foldl_cons]
        split
        · next hmem =>
            obtain ⟨hiff, hnodup'⟩ := ih found hnodup
            refine ⟨?_, hnodup'⟩
            intro entry
            rw [hiff, List.mem_cons]
            constructor
            · rintro (h | h)
              · exact Or.inl h
              · exact Or.inr (Or.inr h)
            · rintro (h | rfl | h)
              · exact Or.inl h
              · exact Or.inl hmem
              · exact Or.inr h
        · next hmem =>
            obtain ⟨hiff, hnodup'⟩ := ih (found ++ [first]) (by
              refine List.nodup_append.mpr ⟨hnodup, List.nodup_singleton _, ?_⟩
              intro a ha b hb hab
              rw [List.mem_singleton.mp hb] at hab
              exact hmem (hab ▸ ha))
            refine ⟨?_, hnodup'⟩
            intro entry
            rw [hiff, List.mem_append, List.mem_singleton, List.mem_cons, or_assoc]
  obtain ⟨hiff, hnodup⟩ := hgeneral entries [] List.nodup_nil
  refine ⟨?_, hnodup⟩
  intro entry
  refine (hiff entry).trans ?_
  simp

/-- The nodes the check gets are nodes of the job. -/
theorem mem_created_nodes {own : List SpecNode} {job : PlanJob} {node : ℕ}
    (h : node ∈ (jobCreateNodespec own job).nodes) : some node ∈ job.ninfoArr := by
  unfold jobCreateNodespec at h
  split at h
  · cases h
  · exact ((distinctEntries_spec _).1 _).mp (List.reduceOption_mem_iff.mp h)

/-- Nothing that the job reads carries a mark. -/
structure Fresh (st : AssignState) (job : PlanJob) : Prop where
  marks : ∀ node : ℕ, some node ∈ job.ninfoArr → st.hasAssignment node = false
  schedule : st.schedules job.jinfo.jobId = []

/-- The call found nothing left behind. -/
def NodeEnv.Good (env : NodeEnv) (call : NodespecCall) : Prop :=
  call.Clean ∧ call.code = (env.check call.attempt call.job call.created ⟨fun _ => false, []⟩).1

section walk

variable (env : NodeEnv) (timeNow : ℤ)

/-- A due job is kept, or the walk ends at it; either way its marks stay. -/
theorem assignJob_cases (st : AssignState) (job : PlanJob) :
    (∃ run, assignJob env timeNow st job = .stop { env.assigned st job with run := run }) ∨
    ∃ run job', assignJob env timeNow st job
      = .keep { env.assigned st job with run := run } job' := by
  unfold assignJob
  dsimp only
  rcases tryRunJob_cases (env.runEnv st job) timeNow st.run job with
    ⟨run, hrun, _⟩ | ⟨run, job', hrun, _⟩
  · rw [hrun]
    exact Or.inl ⟨run, rfl⟩
  · rw [hrun]
    exact Or.inr ⟨run, _, rfl⟩

/-- Exactly the removable jobs are removed, and only the due ones are tried. -/
theorem assignVisit_orderly : Orderly (assignVisit env timeNow) (PlanJob.removable timeNow)
    (PlanJob.due timeNow) := by
  intro st job
  unfold assignVisit
  cases hrem : job.removable timeNow with
  | true => exact Or.inl ⟨rfl, by simp⟩
  | false =>
      right
      cases hdue : job.due timeNow with
      | false => exact Or.inl ⟨rfl, rfl, by simp⟩
      | true =>
          refine Or.inr ⟨rfl, rfl, ?_⟩
          simp only [Bool.false_eq_true, if_false, if_true]
          rcases assignJob_cases env timeNow st job with ⟨run, h⟩ | ⟨run, job', h⟩
          · exact Or.inl ⟨_, h⟩
          · exact Or.inr ⟨_, _, h⟩

/-- When removals come first, the whole call is one pass. -/
theorem assignPlan_eq (clusters : List (List PlanJob))
    (hfirst : ∀ jobs ∈ clusters, RemovalsFirst timeNow jobs) : ∀ st,
      assignPlan env timeNow st clusters = (passOnce (assignVisit env timeNow) st
        (clusters.flatten.filter (fun job => !job.removable timeNow))).state := by
  have horderly := assignVisit_orderly env timeNow
  induction clusters with
  | nil => exact fun st => rfl
  | cons jobs rest ih =>
      intro st
      have hnone : ∀ job ∈ jobs.filter (fun job => !job.removable timeNow),
          job.removable timeNow = false := by
        intro job hjob
        simpa using (List.mem_filter.mp hjob).2
      rw [assignPlan, List.flatten_cons, List.filter_append, passOnce_append_state,
        horderly.walk_filter jobs (hfirst jobs List.mem_cons_self), walk_eq]
      cases hp : passOnce (assignVisit env timeNow) st
          (jobs.filter (fun job => !job.removable timeNow)) with
      | finished st' jobs' =>
          simp only [if_true]
          exact ih (fun l hl => hfirst l (List.mem_cons_of_mem _ hl)) st'
      | stopped st' jobs' => rfl
      | removed st' jobs' => exact absurd hp (horderly.ne_removed _ st hnone st' jobs')

/-- The call for a job that nothing was left for, and what is left after it. -/
theorem assigned_fresh {st : AssignState} {job : PlanJob} (hfresh : Fresh st job)
    (hcalls : ∀ call ∈ st.calls, env.Good call) :
    (∀ call ∈ (env.assigned st job).calls, env.Good call) ∧
    ∀ other, RunsApart job other → Fresh st other → Fresh (env.assigned st job) other := by
  unfold NodeEnv.assigned
  split
  · dsimp only
    set created := jobCreateNodespec (env.nodespec job) job with hcreated
    have hmarks : ∀ node ∈ created.nodes, st.hasAssignment node = false :=
      fun node hnode => hfresh.marks node (mem_created_nodes hnode)
    refine ⟨?_, ?_⟩
    · intro call hcall
      rcases List.mem_append.mp hcall with hcall | hcall
      · exact hcalls call hcall
      · rw [List.mem_singleton.mp hcall]
        refine ⟨⟨hmarks, hfresh.schedule⟩, ?_⟩
        exact checkNodespec_alone ⟨hfresh.schedule, hmarks⟩
    · intro other hapart hother
      refine ⟨?_, ?_⟩
      · intro node hnode
        refine (checkNodespec_frame _ _ _ _ _ _ node ?_).trans (hother.marks node hnode)
        intro hmem
        exact hapart.2 node (mem_created_nodes hmem) hnode
      · show Function.update _ _ _ _ = _
        rw [Function.update_of_ne hapart.1.symm]
        exact hother.schedule
  · exact ⟨hcalls, fun other _ hother => hother⟩

/-- A pass over jobs that have nothing in common. -/
theorem passOnce_good (jobs : List PlanJob) : ∀ st,
    (jobs.filter (PlanJob.due timeNow)).Pairwise RunsApart →
    (∀ job ∈ jobs, job.due timeNow = true → Fresh st job) →
    (∀ call ∈ st.calls, env.Good call) →
    ∀ call ∈ (passOnce (assignVisit env timeNow) st jobs).state.calls, env.Good call := by
  induction jobs with
  | nil => exact fun st _ _ hcalls => hcalls
  | cons job jobs ih =>
      intro st hapart hfresh hcalls
      have hrest : ∀ j ∈ jobs, j.due timeNow = true → Fresh st j :=
        fun j hj => hfresh j (List.mem_cons_of_mem _ hj)
      rcases assignVisit_orderly env timeNow st job with
        ⟨_, hv⟩ | ⟨_, hdue, hv⟩ | ⟨hrem, hdue, _⟩
      · rw [passOnce_of_remove hv]
        exact hcalls
      · rw [passOnce_of_keep hv, Pass.cons_state]
        rw [List.filter_cons_of_neg (by rw [hdue]; simp)] at hapart
        exact ih st hapart hrest hcalls
      · rw [List.filter_cons_of_pos hdue, List.pairwise_cons] at hapart
        obtain ⟨hgood, hkept⟩ := assigned_fresh env (hfresh job List.mem_cons_self hdue) hcalls
        have hv : assignVisit env timeNow st job = assignJob env timeNow st job := by
          unfold assignVisit
          rw [hrem, hdue]
          simp
        rcases assignJob_cases env timeNow st job with ⟨run, h⟩ | ⟨run, job', h⟩
        · rw [passOnce_of_stop (hv.trans h)]
          exact hgood
        · rw [passOnce_of_keep (hv.trans h), Pass.cons_state]
          refine ih _ hapart.2 ?_ hgood
          intro j hj hjdue
          have := hkept j (hapart.1 j (List.mem_filter.mpr ⟨hj, hjdue⟩)) (hrest j hj hjdue)
          exact ⟨this.marks, this.schedule⟩

end walk

/-- Due jobs that have nothing in common leave nothing behind for each other. -/
theorem nothingLeftBehind_of_apart {timeNow : ℤ} {clusters : List (List PlanJob)}
    (h : DueApart timeNow clusters) : NothingLeftBehind timeNow clusters := by
  intro env counters dynamicResources
  rw [assignPlan_eq env timeNow clusters h.removalsFirst]
  refine passOnce_good env timeNow _ _ ?_ ?_ ?_
  · rw [List.filter_filter]
    refine h.apart.sublist ?_
    refine List.monotone_filter_right _ ?_
    intro job hjob
    exact (Bool.and_eq_true_iff.mp hjob).1
  · intro job _ _
    exact ⟨fun _ _ => rfl, rfl⟩
  · intro call hcall
    cases hcall

/-! ## When everything fits -/

/-- All nodes are available to all jobs, which come from an admin queue; the server
refuses every job. -/
def NodeEnv.allFit : NodeEnv where
  localServer := ""
  rescInfoDb := []
  outcome := fun _ => ⟨true, .success, .success, 1⟩
  traits := fun _ => ⟨.none, none, true, false⟩
  tests := fun _ => ⟨fun _ => "", fun _ => .available, fun _ => .available,
    fun _ _ => .available, fun _ _ => .available, fun _ _ => true⟩
  again := fun _ => ⟨fun _ => "", fun _ => .available, fun _ => .available,
    fun _ _ => .available, fun _ _ => .available, fun _ _ => true⟩
  nodespec := fun _ => []

/-- Marks and entries are only added. -/
structure Assigning.Grows (s s' : Assigning) : Prop where
  marks : ∀ node, s.hasAssignment node = true → s'.hasAssignment node = true
  schedule : s.schedule ≠ [] → s'.schedule ≠ []

theorem Assigning.Grows.refl (s : Assigning) : s.Grows s := ⟨fun _ h => h, fun h => h⟩

theorem Assigning.Grows.trans {s₁ s₂ s₃ : Assigning} (h : s₁.Grows s₂) (h' : s₂.Grows s₃) :
    s₁.Grows s₃ :=
  ⟨fun node hnode => h'.marks node (h.marks node hnode), fun hs => h'.schedule (h.schedule hs)⟩

theorem Assigning.grows_assign (s : Assigning) (node : ℕ) :
    s.Grows (s.assign node) ∧ (s.assign node).schedule ≠ [] := by
  refine ⟨⟨?_, ?_⟩, ?_⟩
  · intro other hother
    show Function.update s.hasAssignment node true other = true
    by_cases h : other = node
    · subst h
      exact Function.update_self _ _ _
    · rw [Function.update_of_ne h]
      exact hother
  · intro _
    simp [Assigning.assign]
  · simp [Assigning.assign]

/-- If all tests pass, a node is taken unless all carry an assignment. -/
theorem takeNode_available (nodes : List ℕ) (s : Assigning) :
    (takeNode (fun _ => .available) nodes s = none ∧
      ∀ node ∈ nodes, s.hasAssignment node = true) ∨
    ∃ node ∈ nodes, s.hasAssignment node = false ∧
      takeNode (fun _ => .available) nodes s = some (s.assign node) := by
  induction nodes with
  | nil => exact Or.inl ⟨rfl, by simp⟩
  | cons node nodes ih =>
      rw [takeNode]
      cases hnode : s.hasAssignment node with
      | false =>
          right
          exact ⟨node, List.mem_cons_self, hnode, by simp⟩
      | true =>
          simp only [if_true]
          rcases ih with ⟨hnone, hall⟩ | ⟨other, hmem, hfree, hsome⟩
          · left
            refine ⟨hnone, ?_⟩
            intro other hother
            rcases List.mem_cons.mp hother with rfl | hother
            · exact hnode
            · exact hall other hother
          · exact Or.inr ⟨other, List.mem_cons_of_mem _ hmem, hfree, hsome⟩

/-- One part for one node: a node is marked, or all were. -/
theorem tryAssignNodes_allFit (attempt : ℕ) (job : PlanJob) (spec : SpecNode)
    {runNodes bootNodes : List ℕ} (s : Assigning) (hrun : runNodes ≠ []) :
    (∃ node ∈ runNodes, s.hasAssignment node = false ∧
      tryAssignNodes (NodeEnv.allFit.traits job) (NodeEnv.allFit.tests attempt) spec runNodes
        bootNodes 1 s = (.available, s.assign node)) ∨
    ((∀ node ∈ runNodes, s.hasAssignment node = true) ∧
      ∃ code s', tryAssignNodes (NodeEnv.allFit.traits job) (NodeEnv.allFit.tests attempt) spec
        runNodes bootNodes 1 s = (code, s') ∧ code ≠ .nonFit ∧ s.Grows s') := by
  have hassign : assignNode (NodeEnv.allFit.traits job) (NodeEnv.allFit.tests attempt) spec
      runNodes s = takeNode (fun _ => .available) runNodes s := rfl
  have hboot : ondemandReboot (NodeEnv.allFit.traits job) (NodeEnv.allFit.tests attempt) spec
      bootNodes s = takeNode (fun _ => .available) bootNodes s := rfl
  rw [tryAssignNodes, hassign, hboot]
  rcases takeNode_available runNodes s with ⟨hnone, hall⟩ | ⟨node, hmem, hfree, hsome⟩
  · right
    refine ⟨hall, ?_⟩
    rw [hnone]
    rcases takeNode_available bootNodes s with ⟨hnone', -⟩ | ⟨node, -, -, hsome'⟩
    · rw [hnone']
      refine ⟨.occupied, s, ?_, by decide, Assigning.Grows.refl s⟩
      dsimp only
      rw [if_neg (fun h => hrun h.1)]
    · rw [hsome']
      exact ⟨.available, _, rfl, by decide, (s.grows_assign node).1⟩
  · left
    refine ⟨node, hmem, hfree, ?_⟩
    rw [hsome]
    rfl

/-- The nodes without assignment. -/
def Assigning.free (s : Assigning) (nodes : List ℕ) : List ℕ :=
  nodes.filter (fun node => !s.hasAssignment node)

/-- There is one free node less. -/
theorem free_assign_length {s : Assigning} {nodes : List ℕ} {node : ℕ}
    (hmem : node ∈ nodes) (hfree : s.hasAssignment node = false) :
    ((s.assign node).free nodes).length + 1 ≤ (s.free nodes).length := by
  have hsub : ((s.assign node).free nodes).Sublist (s.free nodes) := by
    refine List.monotone_filter_right _ ?_
    intro other hother
    have hmark : (s.assign node).hasAssignment other = false := by simpa using hother
    cases hold : s.hasAssignment other with
    | false => rfl
    | true =>
        rw [(s.grows_assign node).1.marks other hold] at hmark
        cases hmark
  refine Nat.succ_le_of_lt (lt_of_le_of_ne hsub.length_le ?_)
  intro hlength
  have hin : node ∈ s.free nodes := List.mem_filter.mpr ⟨hmem, by simp [hfree]⟩
  rw [← hsub.eq_of_length hlength] at hin
  have hmark := (List.mem_filter.mp hin).2
  simp [Assigning.assign] at hmark

/-- With a part for each free node, all nodes are marked in the end. -/
theorem tryAssignSpec_allFit (attempt : ℕ) (job : PlanJob) {nodes : List ℕ} (hne : nodes ≠ [])
    (specs : List SpecNode) (hone : ∀ spec ∈ specs, spec.nodeCount = 1) : ∀ s,
      ∃ code s', tryAssignSpec (NodeEnv.allFit.traits job) (NodeEnv.allFit.tests attempt) nodes
          specs s = (code, s') ∧ code ≠ .nonFit ∧ s.Grows s' ∧
        ((s.free nodes).length ≤ specs.length →
          ∀ node ∈ nodes, s'.hasAssignment node = true) ∧
        (s.free nodes ≠ [] → specs ≠ [] → s'.schedule ≠ []) := by
  induction specs with
  | nil =>
      intro s
      refine ⟨.available, s, rfl, by decide, Assigning.Grows.refl s, ?_, fun _ h => absurd rfl h⟩
      intro hlength node hnode
      have hnil := List.eq_nil_of_length_eq_zero (Nat.le_zero.mp hlength)
      cases hmark : s.hasAssignment node with
      | true => rfl
      | false =>
          have : node ∈ s.free nodes := List.mem_filter.mpr ⟨hnode, by simp [hmark]⟩
          rw [hnil] at this
          cases this
  | cons spec specs ih =>
      intro s
      have hspec := hone spec List.mem_cons_self
      have hih := ih (fun spec' hspec' => hone spec' (List.mem_cons_of_mem _ hspec'))
      -- sorting loses no node, so the loop has one to look at
      have hsorted : nodes.mergeSort (NodeEnv.allFit.tests attempt).before ≠ [] := by
        intro hnil
        apply hne
        have hlength : (nodes.mergeSort (NodeEnv.allFit.tests attempt).before).length
            = nodes.length := List.length_mergeSort _
        rw [hnil] at hlength
        exact List.eq_nil_of_length_eq_zero hlength.symm
      rw [tryAssignSpec]
      dsimp only
      rw [hspec, if_neg (by
        cases nodes with
        | nil => exact absurd rfl hne
        | cons node nodes =>
            rw [not_lt, Nat.one_le_iff_ne_zero]
            simp [List.dedup_eq_nil])]
      set rebootNodes := (nodes.filter (suitableForReboot (NodeEnv.allFit.traits job)
        (NodeEnv.allFit.tests attempt) s spec)).mergeSort (NodeEnv.allFit.tests attempt).before
      -- a free node is taken, or all nodes are marked already
      rcases tryAssignNodes_allFit attempt job spec s hsorted with
        ⟨node, hmem, hfree, hrun⟩ | ⟨hall, code, s₁, hrun, hcode, hgrows⟩
      · rw [hrun]
        dsimp only
        rw [if_neg (by decide)]
        obtain ⟨code', s', hrest, hcode', hgrows', hmarked, -⟩ := hih (s.assign node)
        obtain ⟨hassign, hentry⟩ := s.grows_assign node
        have hmem' := List.mem_mergeSort.mp hmem
        have hlength := free_assign_length hmem' hfree
        rw [hrest]
        dsimp only
        have hfacts : s.Grows s' ∧
            ((s.free nodes).length ≤ (spec :: specs).length →
              ∀ node ∈ nodes, s'.hasAssignment node = true) ∧
            (s.free nodes ≠ [] → (spec :: specs) ≠ [] → s'.schedule ≠ []) := by
          refine ⟨hassign.trans hgrows', ?_, fun _ _ => hgrows'.schedule hentry⟩
          intro hle
          rw [List.length_cons] at hle
          exact hmarked (by omega)
        split
        · exact ⟨.available, s', rfl, by decide, hfacts⟩
        · exact ⟨code', s', rfl, hcode', hfacts⟩
      · rw [hrun]
        dsimp only
        rw [if_neg hcode]
        obtain ⟨code', s', hrest, hcode', hgrows', -, -⟩ := hih s₁
        rw [hrest]
        dsimp only
        have hmarks : ∀ node ∈ nodes, s.hasAssignment node = true :=
          fun node hnode => hall node (List.mem_mergeSort.mpr hnode)
        have hfacts : s.Grows s' ∧
            ((s.free nodes).length ≤ (spec :: specs).length →
              ∀ node ∈ nodes, s'.hasAssignment node = true) ∧
            (s.free nodes ≠ [] → (spec :: specs) ≠ [] → s'.schedule ≠ []) := by
          refine ⟨hgrows.trans hgrows', ?_, ?_⟩
          · intro _ node hnode
            exact (hgrows.trans hgrows').marks node (hmarks node hnode)
          · intro hfree
            refine absurd (List.filter_eq_nil_iff.mpr ?_) hfree
            intro node hnode
            simp [hmarks node hnode]
        split
        · exact ⟨code, s', rfl, hcode, hfacts⟩
        · exact ⟨code', s', rfl, hcode', hfacts⟩

/-- The parts written by `job_create_nodespec`: one node each, and all nodes get one. -/
theorem nodespecLoop_spec (reqPpn : ℕ) (entries : List (Option ℕ)) :
    ∀ (planned : Option ℕ) (numPpn : ℕ),
      (∀ part ∈ (nodespecLoop reqPpn planned numPpn entries).1, part.nodeCount = 1) ∧
      (∀ node : ℕ, planned = some node ∨ some node ∈ entries →
        node ∈ (nodespecLoop reqPpn planned numPpn entries).1.map SpecNode.host ∨
        (nodespecLoop reqPpn planned numPpn entries).2.1 = some node) ∧
      (∀ node : ℕ, (nodespecLoop reqPpn planned numPpn entries).2.1 = some node →
        planned = some node ∨ some node ∈ entries) := by
  induction entries with
  | nil =>
      intro planned numPpn
      cases planned <;> simp [nodespecLoop]
  | cons entry entries ih =>
      intro planned numPpn
      cases planned with
      | none =>
          rw [nodespecLoop]
          obtain ⟨hone, hall, hlast⟩ := ih entry (if entry = none then numPpn + 1 else numPpn)
          refine ⟨hone, ?_, ?_⟩
          · rintro node (h | h)
            · cases h
            · exact hall node ((List.mem_cons.mp h).imp Eq.symm id)
          · intro node h
            rcases hlast node h with h | h
            · exact Or.inr (by rw [h]; exact List.mem_cons_self)
            · exact Or.inr (List.mem_cons_of_mem _ h)
      | some planned =>
          rw [nodespecLoop]
          split
          · next hsame =>
              obtain ⟨hone, hall, hlast⟩ := ih (some planned) (numPpn + 1)
              refine ⟨hone, ?_, ?_⟩
              · rintro node (h | h)
                · exact hall node (Or.inl h)
                · rcases List.mem_cons.mp h with h | h
                  · exact hall node (Or.inl (hsame.symm.trans h.symm))
                  · exact hall node (Or.inr h)
              · intro node h
                exact (hlast node h).imp id (List.mem_cons_of_mem _)
          · obtain ⟨hone, hall, hlast⟩ := ih entry 1
            refine ⟨?_, ?_, ?_⟩
            · intro part hpart
              rcases List.mem_cons.mp hpart with rfl | hpart
              · rfl
              · exact hone part hpart
            · rintro node (h | h)
              · obtain rfl := Option.some.inj h
                exact Or.inl (by simp)
              · rcases hall node ((List.mem_cons.mp h).imp Eq.symm id) with h | h
                · exact Or.inl (by rw [List.map_cons]; exact List.mem_cons_of_mem _ h)
                · exact Or.inr h
            · intro node h
              rcases hlast node h with h | h
              · exact Or.inr (by rw [h]; exact List.mem_cons_self)
              · exact Or.inr (List.mem_cons_of_mem _ h)

/-- In an array without `NULL` the last run is one of a node. -/
theorem nodespecLoop_last (reqPpn : ℕ) (entries : List (Option ℕ)) (hfull : none ∉ entries) :
    ∀ (planned : Option ℕ) (numPpn : ℕ), planned ≠ none ∨ entries ≠ [] →
      (nodespecLoop reqPpn planned numPpn entries).2.1 ≠ none := by
  induction entries with
  | nil =>
      rintro planned numPpn (h | h)
      · cases planned <;> exact h
      · exact absurd rfl h
  | cons entry entries ih =>
      intro planned numPpn _
      rw [List.mem_cons, not_or] at hfull
      have hentry : entry ≠ none := fun h => hfull.1 h.symm
      cases planned with
      | none =>
          rw [nodespecLoop]
          exact ih hfull.2 _ _ (Or.inl hentry)
      | some planned =>
          rw [nodespecLoop]
          split
          · exact ih hfull.2 _ _ (Or.inl (Option.some_ne_none _))
          · exact ih hfull.2 _ _ (Or.inl hentry)

/-- The job has its nodes, as `update_job` leaves it. -/
def PlanJob.Placed (job : PlanJob) : Prop := none ∉ job.ninfoArr ∧ job.ninfoArr ≠ []

/-- A job without a specification of its own: there is no part, or each is for one node. -/
theorem created_parts (job : PlanJob) :
    ((jobCreateNodespec [] job).nodes = [] ∧ (jobCreateNodespec [] job).specs = []) ∨
    ((jobCreateNodespec [] job).nodes ≠ [] ∧
      ∀ spec ∈ (jobCreateNodespec [] job).specs, spec.nodeCount = 1) := by
  obtain ⟨hone, -, hlast⟩ := nodespecLoop_spec job.reqPpn job.ninfoArr none 1
  unfold jobCreateNodespec
  split
  · exact Or.inl ⟨rfl, rfl⟩
  · next parts node numPpn hloop =>
      rw [hloop] at hone hlast
      right
      refine ⟨?_, ?_⟩
      · intro hnil
        rcases hlast node rfl with h | h
        · cases h
        · have hmem := List.reduceOption_mem_iff.mpr (((distinctEntries_spec _).1 _).mpr h)
          change (distinctEntries job.ninfoArr).reduceOption = [] at hnil
          rw [hnil] at hmem
          cases hmem
      · intro spec hspec
        rcases List.mem_append.mp hspec with hspec | hspec
        · exact hone spec hspec
        · rw [List.mem_singleton.mp hspec]

/-- A placed job: the check gets all of its nodes, and there is a part for each. -/
theorem created_placed {job : PlanJob} (h : job.Placed) :
    (∀ node : ℕ, some node ∈ job.ninfoArr → node ∈ (jobCreateNodespec [] job).nodes) ∧
    (jobCreateNodespec [] job).nodes.length ≤ (jobCreateNodespec [] job).specs.length ∧
    (jobCreateNodespec [] job).nodes ≠ [] := by
  obtain ⟨-, hall, -⟩ := nodespecLoop_spec job.reqPpn job.ninfoArr none 1
  obtain ⟨entry, hentry⟩ := List.exists_mem_of_ne_nil _ h.2
  obtain ⟨first, rfl⟩ := Option.ne_none_iff_exists'.mp (fun hnone => h.1 (hnone ▸ hentry))
  have hlastSome := nodespecLoop_last job.reqPpn job.ninfoArr h.1 none 1 (Or.inr h.2)
  unfold jobCreateNodespec
  split
  · next hloop =>
      rw [hloop] at hlastSome
      exact absurd rfl hlastSome
  · next parts node numPpn hloop =>
      rw [hloop] at hall
      have hmem : ∀ node : ℕ, some node ∈ job.ninfoArr →
          node ∈ (distinctEntries job.ninfoArr).reduceOption :=
        fun node hnode => List.reduceOption_mem_iff.mpr (((distinctEntries_spec _).1 _).mpr hnode)
      refine ⟨hmem, ?_, List.ne_nil_of_mem (hmem first hentry)⟩
      have hnodup : (distinctEntries job.ninfoArr).reduceOption.Nodup := by
        refine (distinctEntries_spec job.ninfoArr).2.filterMap ?_
        intro a a' b hb hb'
        exact (Option.mem_def.mp hb).trans (Option.mem_def.mp hb').symm
      have hsub : (distinctEntries job.ninfoArr).reduceOption ⊆
          (parts ++ [(⟨1, node, numPpn * job.reqPpn⟩ : SpecNode)]).map SpecNode.host := by
        intro other hother
        have hin := ((distinctEntries_spec _).1 _).mp (List.reduceOption_mem_iff.mp hother)
        rw [List.map_append, List.mem_append]
        rcases hall other (Or.inr hin) with h | h
        · exact Or.inl h
        · exact Or.inr (by simpa using h.symm)
      have hlength := (List.subperm_of_subset hnodup hsub).length_le
      rwa [List.length_map] at hlength

/-- There are no limits and no running jobs. -/
def Unlimited (st : AssignState) : Prop := st.run.counters = Counters.idle

/-- Without limits all checks in front of the nodes pass and leave the counters alone. -/
theorem checkLimits_idle (jinfo : JobInfo) :
    checkLimits Counters.idle jinfo = (.success, Counters.idle) := by
  have hcounters : ∀ runCode userCode groupCode,
      checkCounters (RunCounters.snapshot RESC_INFINITY RESC_INFINITY RESC_INFINITY []) jinfo
        runCode userCode groupCode
        = (.success, RunCounters.snapshot RESC_INFINITY RESC_INFINITY RESC_INFINITY []) :=
    fun _ _ _ => rfl
  unfold checkLimits Counters.idle
  simp only [hcounters, ne_eq, not_true, if_false]
  rw [Function.update_eq_self]

theorem checksBefore_allFit {st : AssignState} (h : Unlimited st) (job : PlanJob) :
    NodeEnv.allFit.checksBefore st.run job = (.success, Counters.idle) := by
  unfold NodeEnv.checksBefore isOkToRunJobNew
  rw [h, checkLimits_idle]
  rfl

/-- The marks and schedules of one state are those of the other, with more added. -/
structure StateGrows (st st' : AssignState) : Prop where
  marks : ∀ node, st.hasAssignment node = true → st'.hasAssignment node = true
  schedules : ∀ id, st.schedules id ≠ [] → st'.schedules id ≠ []
  calls : ∀ call ∈ st.calls, call ∈ st'.calls

theorem StateGrows.refl (st : AssignState) : StateGrows st st :=
  ⟨fun _ h => h, fun _ h => h, fun _ h => h⟩

theorem StateGrows.trans {st₁ st₂ st₃ : AssignState} (h : StateGrows st₁ st₂)
    (h' : StateGrows st₂ st₃) : StateGrows st₁ st₃ :=
  ⟨fun node hnode => h'.marks node (h.marks node hnode),
    fun id hid => h'.schedules id (h.schedules id hid),
    fun call hcall => h'.calls call (h.calls call hcall)⟩

/-- All the job reads carries a mark. -/
structure Taken (st : AssignState) (job : PlanJob) : Prop where
  marks : ∀ node : ℕ, some node ∈ job.ninfoArr → st.hasAssignment node = true
  schedule : st.schedules job.jinfo.jobId ≠ []

theorem Taken.grows {st st' : AssignState} {job : PlanJob} (h : Taken st job)
    (hgrows : StateGrows st st') : Taken st' job :=
  ⟨fun node hnode => hgrows.marks node (h.marks node hnode), hgrows.schedules _ h.schedule⟩

/-- The check where everything fits: marks are only added, and a job that found nothing
has all its nodes marked. -/
theorem check_allFit (attempt : ℕ) (job : PlanJob) (s : Assigning) :
    s.Grows (NodeEnv.allFit.check attempt job (jobCreateNodespec [] job) s).2 ∧
    (job.Placed → (∀ node ∈ (jobCreateNodespec [] job).nodes, s.hasAssignment node = false) →
      (∀ node : ℕ, some node ∈ job.ninfoArr →
        (NodeEnv.allFit.check attempt job (jobCreateNodespec [] job) s).2.hasAssignment node
          = true) ∧
      (NodeEnv.allFit.check attempt job (jobCreateNodespec [] job) s).2.schedule ≠ []) := by
  unfold NodeEnv.check checkNodespec
  set created := jobCreateNodespec [] job
  have hall : created.nodes.filter
      (suitableForJob (NodeEnv.allFit.traits job) (NodeEnv.allFit.tests attempt))
      = created.nodes := List.filter_eq_self.mpr (fun _ _ => rfl)
  have hfind : ∀ s, findNodes (NodeEnv.allFit.traits job) (NodeEnv.allFit.tests attempt)
      created.nodes created.specs s = tryAssignSpec (NodeEnv.allFit.traits job)
        (NodeEnv.allFit.tests attempt) created.nodes created.specs s := fun _ => rfl
  have hadmin : (NodeEnv.allFit.traits job).isAdminQueue = true := rfl
  dsimp only
  rw [hall, hfind, hadmin]
  -- a text without parts has no nodes to assign
  rcases created_parts job with ⟨hnodes, hspecs⟩ | ⟨hnodes, hone⟩
  · refine ⟨?_, ?_⟩
    · rw [hspecs]
      exact Assigning.Grows.refl s
    · intro hplaced
      exact absurd hnodes (created_placed hplaced).2.2
  · obtain ⟨code, s', hrun, hcode, hgrows, hmarked, hentry⟩ :=
      tryAssignSpec_allFit attempt job hnodes created.specs hone s
    have hstate : (match (code, s').1 with
        | .nonFit => (requestNotMatched, (code, s').2.preassignClean created.nodes)
        | .occupied => (nodespecNotEnoughNodesTotal, (code, s').2)
        | .available => (RunCheck.success, (code, s').2)).2 = s' := by
      cases code with
      | nonFit => exact absurd rfl hcode
      | occupied => rfl
      | available => rfl
    rw [hrun]
    simp only [if_true]
    rw [hstate]
    refine ⟨hgrows, ?_⟩
    intro hplaced hfree
    obtain ⟨hmem, hlength, -⟩ := created_placed hplaced
    have hfreeAll : s.free created.nodes = created.nodes := by
      refine List.filter_eq_self.mpr ?_
      intro node hnode
      simp [hfree node hnode]
    refine ⟨?_, hentry (by rw [hfreeAll]; exact hnodes) ?_⟩
    · intro node hnode
      exact hmarked (by rw [hfreeAll]; exact hlength) node (hmem node hnode)
    · intro hnil
      rw [hnil, List.length_nil] at hlength
      exact hnodes (List.eq_nil_of_length_eq_zero (Nat.le_zero.mp hlength))

/-- The same job, with another array of nodes. -/
def SameJob (job job' : PlanJob) : Prop := ∃ ninfoArr, job' = { job with ninfoArr := ninfoArr }

/-- The same jobs, with other arrays of nodes. -/
structure SameJobs (jobs jobs' : List PlanJob) : Prop where
  length_eq : jobs'.length = jobs.length
  kept : ∀ job ∈ jobs, ∃ job' ∈ jobs', SameJob job job'

theorem SameJobs.cons {job job' : PlanJob} {jobs jobs' : List PlanJob} (h : SameJob job job')
    (hs : SameJobs jobs jobs') : SameJobs (job :: jobs) (job' :: jobs') := by
  refine ⟨by rw [List.length_cons, List.length_cons, hs.length_eq], ?_⟩
  intro j hj
  rcases List.mem_cons.mp hj with rfl | hj
  · exact ⟨job', List.mem_cons_self, h⟩
  · obtain ⟨j', hj', hsame⟩ := hs.kept j hj
    exact ⟨j', List.mem_cons_of_mem _ hj', hsame⟩

/-- A due job where everything fits. -/
structure FitVisit (st : AssignState) (job : PlanJob) (st' : AssignState) : Prop where
  unlimited : Unlimited st'
  grows : StateGrows st st'
  called : ∃ call ∈ st'.calls, (call.Clean → Fresh st job ∨ ¬ job.Placed) ∧
    (call.Clean → st.schedules job.jinfo.jobId = []) ∧
    (call.Clean → job.Placed → Taken st' job)

theorem assignVisit_allFit {timeNow : ℤ} {st : AssignState} {job : PlanJob}
    (h : Unlimited st) (hdue : job.due timeNow = true) :
    ∃ st' job', assignVisit NodeEnv.allFit timeNow st job = .keep st' job' ∧ SameJob job job' ∧
      FitVisit st job st' := by
  have hbefore := checksBefore_allFit h job
  set created := jobCreateNodespec [] job with hcreated
  set checked := NodeEnv.allFit.check st.run.tried job created (st.assigning job) with hchecked
  have hreaches : NodeEnv.allFit.reaches st.run job = true := by
    unfold NodeEnv.reaches
    rw [hbefore]
    rfl
  have hassigned : NodeEnv.allFit.assigned st job =
      { st with
        hasAssignment := checked.2.hasAssignment
        schedules := Function.update st.schedules job.jinfo.jobId checked.2.schedule
        calls := st.calls ++ [⟨st.run.tried, job, created, st.assigning job, checked.1⟩] } := by
    unfold NodeEnv.assigned
    rw [if_pos hreaches]
    rfl
  -- whatever the check answers, the visit ends with its marks and its schedule
  have hrun : ∃ run, assignVisit NodeEnv.allFit timeNow st job
      = .keep { NodeEnv.allFit.assigned st job with run := run }
        { job with ninfoArr := created.ninfoArr } ∧ run.counters = Counters.idle := by
    have hok : (NodeEnv.allFit.runEnv st job).isOk st.run job = (checked.1, Counters.idle) := by
      show (if (NodeEnv.allFit.checksBefore st.run job).1 = .success then _ else _) = _
      rw [if_pos (by rw [hbefore]), hbefore]
      rfl
    have hcode : checked.1 ≠ .insuficientDynamicResource := checkNodespec_code _ _ _ _ _ _
    unfold assignVisit assignJob
    rw [PlanJob.not_removable_of_due hdue, hdue]
    simp only [Bool.false_eq_true, if_false, if_true]
    unfold tryRunJob
    rw [hok]
    simp only [if_neg hcode]
    by_cases hsuccess : checked.1 = .success
    · rw [if_neg (not_not.mpr hsuccess)]
      exact ⟨_, rfl, rfl⟩
    · rw [if_pos hsuccess]
      exact ⟨_, rfl, rfl⟩
  obtain ⟨run, hvisit, hcounters⟩ := hrun
  obtain ⟨hgrows, htaken⟩ := check_allFit st.run.tried job (st.assigning job)
  refine ⟨_, _, hvisit, ⟨_, rfl⟩, hcounters, ?_, ?_⟩
  · rw [hassigned]
    refine ⟨hgrows.marks, ?_, ?_⟩
    · intro id hid
      show Function.update st.schedules job.jinfo.jobId checked.2.schedule id ≠ []
      by_cases hsame : id = job.jinfo.jobId
      · subst hsame
        rw [Function.update_self]
        exact hgrows.schedule hid
      · rw [Function.update_of_ne hsame]
        exact hid
    · intro call hcall
      exact List.mem_append_left _ hcall
  · rw [hassigned]
    refine ⟨⟨st.run.tried, job, created, st.assigning job, checked.1⟩,
      List.mem_append_right _ List.mem_cons_self, ?_, ?_, ?_⟩
    · intro hclean
      by_cases hplaced : job.Placed
      · refine Or.inl ⟨?_, hclean.2⟩
        intro node hnode
        exact hclean.1 node ((created_placed hplaced).1 node hnode)
      · exact Or.inr hplaced
    · intro hclean
      exact hclean.2
    · intro hclean hplaced
      obtain ⟨hmarks, hentry⟩ := htaken hplaced hclean.1
      refine ⟨hmarks, ?_⟩
      show Function.update st.schedules job.jinfo.jobId checked.2.schedule job.jinfo.jobId ≠ []
      rw [Function.update_self]
      exact hentry

/-- A pass over jobs that stay, where everything fits. -/
structure FitPass (timeNow : ℤ) (st : AssignState) (jobs : List PlanJob) (st' : AssignState) :
    Prop where
  unlimited : Unlimited st'
  grows : StateGrows st st'
  called : ∀ job ∈ jobs, job.due timeNow = true → ∃ call ∈ st'.calls,
    (call.Clean → st.schedules job.jinfo.jobId = []) ∧
    (call.Clean → job.Placed → st'.schedules job.jinfo.jobId ≠ [])

theorem passOnce_allFit {timeNow : ℤ} (jobs : List PlanJob)
    (hstay : ∀ job ∈ jobs, job.removable timeNow = false) : ∀ st, Unlimited st →
      ∃ st' jobs', passOnce (assignVisit NodeEnv.allFit timeNow) st jobs = .finished st' jobs' ∧
        SameJobs jobs jobs' ∧ FitPass timeNow st jobs st' := by
  induction jobs with
  | nil =>
      intro st h
      exact ⟨st, [], rfl, ⟨rfl, by simp⟩, h, StateGrows.refl st, by simp⟩
  | cons job jobs ih =>
      intro st h
      have hrest := ih (fun j hj => hstay j (List.mem_cons_of_mem _ hj))
      cases hdue : job.due timeNow with
      | false =>
          have hv : assignVisit NodeEnv.allFit timeNow st job = .keep st job := by
            unfold assignVisit
            rw [hstay job List.mem_cons_self, hdue]
            simp
          obtain ⟨st', jobs', hpass, hsame, hfit⟩ := hrest st h
          refine ⟨st', job :: jobs', ?_, SameJobs.cons ⟨_, rfl⟩ hsame, hfit.unlimited,
            hfit.grows, ?_⟩
          · rw [passOnce_of_keep hv, hpass]
            rfl
          · intro j hj hjdue
            rcases List.mem_cons.mp hj with rfl | hj
            · rw [hdue] at hjdue
              cases hjdue
            · exact hfit.called j hj hjdue
      | true =>
          obtain ⟨st₁, job', hv, hjob, hvisit⟩ := assignVisit_allFit h hdue
          obtain ⟨st', jobs', hpass, hsame, hfit⟩ := hrest st₁ hvisit.unlimited
          refine ⟨st', job' :: jobs', ?_, SameJobs.cons hjob hsame, hfit.unlimited,
            hvisit.grows.trans hfit.grows, ?_⟩
          · rw [passOnce_of_keep hv, hpass]
            rfl
          · intro j hj hjdue
            rcases List.mem_cons.mp hj with rfl | hj
            · obtain ⟨call, hcall, -, hempty, htaken⟩ := hvisit.called
              exact ⟨call, hfit.grows.calls call hcall, hempty, fun hclean hplaced =>
                hfit.grows.schedules _ (htaken hclean hplaced).schedule⟩
            · obtain ⟨call, hcall, hempty, htaken⟩ := hfit.called j hj hjdue
              refine ⟨call, hcall, ?_, htaken⟩
              intro hclean
              by_contra hne
              exact hvisit.grows.schedules _ hne (hempty hclean)

/-- A pass over any list: to its end, or to the first job to be removed. -/
theorem anyPass_allFit {timeNow : ℤ} (jobs : List PlanJob) {st : AssignState}
    (h : Unlimited st) :
    (∃ st' jobs', passOnce (assignVisit NodeEnv.allFit timeNow) st jobs = .finished st' jobs' ∧
      (∀ job ∈ jobs, job.removable timeNow = false) ∧ FitPass timeNow st jobs st') ∨
    ∃ pre gone post pre' st', jobs = pre ++ gone :: post ∧ gone.removable timeNow = true ∧
      (∀ job ∈ pre, job.removable timeNow = false) ∧
      passOnce (assignVisit NodeEnv.allFit timeNow) st jobs = .removed st' (pre' ++ post) ∧
      SameJobs pre pre' ∧ FitPass timeNow st pre st' := by
  by_cases hstay : ∀ job ∈ jobs, job.removable timeNow = false
  · obtain ⟨st', jobs', hpass, -, hfit⟩ := passOnce_allFit jobs hstay st h
    exact Or.inl ⟨st', jobs', hpass, hstay, hfit⟩
  · obtain ⟨pre, gone, post, rfl, hgone, hpre⟩ := split_first hstay
    obtain ⟨st', pre', hpass, hsame, hfit⟩ := passOnce_allFit pre hpre st h
    refine Or.inr ⟨pre, gone, post, pre', st', rfl, hgone, hpre, ?_, hsame, hfit⟩
    refine passOnce_append_remove pre hpass ?_
    unfold assignVisit
    rw [if_pos hgone]

/-- A walk gets to its end, and only adds to the state. -/
theorem walk_allFit (timeNow : ℤ) (jobs : List PlanJob) : ∀ {st : AssignState}, Unlimited st →
    ∃ st' jobs', walk (assignVisit NodeEnv.allFit timeNow) st jobs = (st', jobs', true) ∧
      Unlimited st' ∧ StateGrows st st' := by
  induction hn : jobs.length using Nat.strong_induction_on generalizing jobs with
  | _ n ih =>
      intro st h
      rw [walk_eq]
      rcases anyPass_allFit jobs h with ⟨st', jobs', hpass, -, hfit⟩ |
        ⟨pre, gone, post, pre', st₁, rfl, -, -, hpass, hsame, hfit⟩
      · rw [hpass]
        exact ⟨st', jobs', rfl, hfit.unlimited, hfit.grows⟩
      · rw [hpass]
        obtain ⟨st', jobs', hwalk, hunlimited, hgrows⟩ := ih (pre' ++ post).length (by
          rw [← hn, List.length_append, List.length_append, hsame.length_eq]
          simp) (pre' ++ post) rfl hfit.unlimited
        exact ⟨st', jobs', hwalk, hunlimited, hfit.grows.trans hgrows⟩

/-- A job that was tried before and comes again finds its schedule. -/
theorem walk_again {timeNow : ℤ} {id : String} (jobs : List PlanJob) : ∀ {st : AssignState},
    Unlimited st → st.schedules id ≠ [] →
    (∃ job ∈ jobs, job.due timeNow = true ∧ job.jinfo.jobId = id) →
    ∃ call ∈ (walk (assignVisit NodeEnv.allFit timeNow) st jobs).1.calls, ¬ call.Clean := by
  induction hn : jobs.length using Nat.strong_induction_on generalizing jobs with
  | _ n ih =>
      rintro st h hid ⟨job, hjob, hdue, rfl⟩
      rw [walk_eq]
      rcases anyPass_allFit jobs h with ⟨st', jobs', hpass, -, hfit⟩ |
        ⟨pre, gone, post, pre', st₁, rfl, hgone, -, hpass, hsame, hfit⟩
      · rw [hpass]
        obtain ⟨call, hcall, hempty, -⟩ := hfit.called job hjob hdue
        exact ⟨call, hcall, fun hclean => hid (hempty hclean)⟩
      · rw [hpass]
        show ∃ call ∈ (walk _ st₁ (pre' ++ post)).1.calls, _
        rcases List.mem_append.mp hjob with hpre | hpost
        · obtain ⟨call, hcall, hempty, -⟩ := hfit.called job hpre hdue
          obtain ⟨st', jobs', hwalk, -, hgrows⟩ :=
            walk_allFit timeNow (pre' ++ post) hfit.unlimited
          rw [hwalk]
          exact ⟨call, hgrows.calls call hcall, fun hclean => hid (hempty hclean)⟩
        · have hmem : job ∈ post := by
            rcases List.mem_cons.mp hpost with rfl | hpost
            · rw [PlanJob.not_removable_of_due hdue] at hgone
              cases hgone
            · exact hpost
          refine ih (pre' ++ post).length ?_ (pre' ++ post) rfl hfit.unlimited
            (hfit.grows.schedules _ hid) ⟨job, List.mem_append_right _ hmem, hdue, rfl⟩
          rw [← hn, List.length_append, List.length_append, hsame.length_eq]
          simp

/-- A due job in front of one to be removed comes again. -/
theorem walk_notFirst {timeNow : ℤ} (jobs : List PlanJob) : ∀ {st : AssignState}, Unlimited st →
    (∀ job ∈ jobs, job.due timeNow = true → job.Placed) → ¬ RemovalsFirst timeNow jobs →
    ∃ call ∈ (walk (assignVisit NodeEnv.allFit timeNow) st jobs).1.calls, ¬ call.Clean := by
  induction hn : jobs.length using Nat.strong_induction_on generalizing jobs with
  | _ n ih =>
      intro st h hplaced hnot
      rw [walk_eq]
      rcases anyPass_allFit jobs h with ⟨st', jobs', -, hstay, -⟩ |
        ⟨pre, gone, post, pre', st₁, rfl, hgone, hpre, hpass, hsame, hfit⟩
      · refine absurd (List.pairwise_of_forall_mem_list ?_) hnot
        intro a _ b hb hab
        rw [hstay b hb] at hab
        cases hab.2
      · by_cases hdue : ∃ job ∈ pre, job.due timeNow = true
        · -- the job was tried in this pass, and will be tried again
          obtain ⟨job, hjob, hjobdue⟩ := hdue
          obtain ⟨call, hcall, -, htaken⟩ := hfit.called job hjob hjobdue
          rw [hpass]
          show ∃ call ∈ (walk _ st₁ (pre' ++ post)).1.calls, _
          by_cases hclean : call.Clean
          · obtain ⟨job', hjob', ninfoArr, rfl⟩ := hsame.kept job hjob
            exact walk_again (pre' ++ post) hfit.unlimited (htaken hclean (hplaced job
              (List.mem_append_left _ hjob) hjobdue))
              ⟨_, List.mem_append_left _ hjob', hjobdue, rfl⟩
          · obtain ⟨st', jobs', hwalk, -, hgrows⟩ :=
              walk_allFit timeNow (pre' ++ post) hfit.unlimited
            rw [hwalk]
            exact ⟨call, hgrows.calls call hcall, hclean⟩
        · -- nothing was tried, and the pair stands behind the removed job
          have hidle : ∀ job ∈ pre, job.removable timeNow = false ∧ job.due timeNow = false := by
            intro job hjob
            refine ⟨hpre job hjob, ?_⟩
            cases hjobdue : job.due timeNow with
            | false => rfl
            | true => exact absurd ⟨job, hjob, hjobdue⟩ hdue
          rw [(assignVisit_orderly NodeEnv.allFit timeNow).passOnce_removes hgone pre hidle]
          refine ih (pre ++ post).length ?_ (pre ++ post) rfl h ?_ ?_
          · rw [← hn]
            simp
          · intro job hjob
            refine hplaced job ?_
            rcases List.mem_append.mp hjob with hjob | hjob
            · exact List.mem_append_left _ hjob
            · exact List.mem_append_right _ (List.mem_cons_of_mem _ hjob)
          · intro hfirst
            apply hnot
            unfold RemovalsFirst at hfirst ⊢
            rw [List.pairwise_append] at hfirst ⊢
            refine ⟨hfirst.1, List.pairwise_cons.mpr ⟨?_, hfirst.2.1⟩, ?_⟩
            · intro b _ hab
              rw [PlanJob.not_removable_of_due hab.1] at hgone
              cases hgone
            · intro a ha b _ hab
              exact hdue ⟨a, ha, hab.1⟩

/-- If all jobs of a pass found nothing, they have nothing in common. -/
theorem apart_of_clean {timeNow : ℤ} (jobs : List PlanJob)
    (hstay : ∀ job ∈ jobs, job.removable timeNow = false)
    (hplaced : ∀ job ∈ jobs, job.due timeNow = true → job.Placed) : ∀ st, Unlimited st →
    (∀ call ∈ (passOnce (assignVisit NodeEnv.allFit timeNow) st jobs).state.calls, call.Clean) →
    (jobs.filter (PlanJob.due timeNow)).Pairwise RunsApart ∧
      ∀ earlier, Taken st earlier → ∀ job ∈ jobs, job.due timeNow = true →
        RunsApart earlier job := by
  induction jobs with
  | nil =>
      intro st _ _
      exact ⟨List.Pairwise.nil, by simp⟩
  | cons job jobs ih =>
      intro st h hclean
      have hstay' : ∀ j ∈ jobs, j.removable timeNow = false :=
        fun j hj => hstay j (List.mem_cons_of_mem _ hj)
      have hrest := ih hstay' (fun j hj => hplaced j (List.mem_cons_of_mem _ hj))
      cases hdue : job.due timeNow with
      | false =>
          have hv : assignVisit NodeEnv.allFit timeNow st job = .keep st job := by
            unfold assignVisit
            rw [hstay job List.mem_cons_self, hdue]
            simp
          rw [passOnce_of_keep hv, Pass.cons_state] at hclean
          obtain ⟨hapart, hearlier⟩ := hrest st h hclean
          refine ⟨by rw [List.filter_cons_of_neg (by rw [hdue]; simp)]; exact hapart, ?_⟩
          intro earlier htaken j hj hjdue
          rcases List.mem_cons.mp hj with rfl | hj
          · rw [hdue] at hjdue
            cases hjdue
          · exact hearlier earlier htaken j hj hjdue
      | true =>
          obtain ⟨st₁, job', hv, -, hvisit⟩ := assignVisit_allFit h hdue
          rw [passOnce_of_keep hv, Pass.cons_state] at hclean
          obtain ⟨hapart, hearlier⟩ := hrest st₁ hvisit.unlimited hclean
          -- the call for this job is among the calls in the end, so it was clean
          obtain ⟨st₂, jobs₂, hpass, -, hfit⟩ := passOnce_allFit jobs hstay' st₁ hvisit.unlimited
          rw [hpass] at hclean
          obtain ⟨call, hcall, hfresh, -, htaken⟩ := hvisit.called
          have hcallClean := hclean call (hfit.grows.calls call hcall)
          have hplacedJob := hplaced job List.mem_cons_self hdue
          have hfreshJob : Fresh st job :=
            (hfresh hcallClean).resolve_right (fun hnot => hnot hplacedJob)
          have htakenJob := htaken hcallClean hplacedJob
          refine ⟨?_, ?_⟩
          · rw [List.filter_cons_of_pos hdue, List.pairwise_cons]
            refine ⟨?_, hapart⟩
            intro j hj
            obtain ⟨hj, hjdue⟩ := List.mem_filter.mp hj
            exact hearlier job htakenJob j hj hjdue
          · intro earlier hearlierTaken j hj hjdue
            rcases List.mem_cons.mp hj with rfl | hj
            · refine ⟨?_, ?_⟩
              · intro hid
                exact hearlierTaken.schedule (hid ▸ hfreshJob.schedule)
              · intro node hnode hnode'
                have hmark := hearlierTaken.marks node hnode
                rw [hfreshJob.marks node hnode'] at hmark
                cases hmark
            · exact hearlier earlier (hearlierTaken.grows hvisit.grows) j hj hjdue

/-- A call in which a due job is in front of a job to be removed. -/
theorem assignPlan_notFirst {timeNow : ℤ} (clusters : List (List PlanJob))
    (hplaced : ∀ job ∈ clusters.flatten, job.due timeNow = true → job.Placed) :
    ∀ st, Unlimited st → (∃ jobs ∈ clusters, ¬ RemovalsFirst timeNow jobs) →
      ∃ call ∈ (assignPlan NodeEnv.allFit timeNow st clusters).calls, ¬ call.Clean := by
  have hgrowsAll : ∀ (clusters : List (List PlanJob)) {st : AssignState}, Unlimited st →
      StateGrows st (assignPlan NodeEnv.allFit timeNow st clusters) := by
    intro clusters
    induction clusters with
    | nil => exact fun _ => StateGrows.refl _
    | cons jobs rest ih =>
        intro st h
        obtain ⟨st', jobs', hwalk, hunlimited, hgrows⟩ := walk_allFit timeNow jobs h
        rw [assignPlan, hwalk]
        exact hgrows.trans (ih hunlimited)
  induction clusters with
  | nil =>
      rintro st _ ⟨jobs, hjobs, -⟩
      cases hjobs
  | cons jobs rest ih =>
      rintro st h ⟨bad, hbad, hnot⟩
      obtain ⟨st', jobs', hwalk, hunlimited, -⟩ := walk_allFit timeNow jobs h
      rw [assignPlan, hwalk]
      simp only [if_true]
      rcases List.mem_cons.mp hbad with rfl | hbad
      · obtain ⟨call, hcall, hclean⟩ := walk_notFirst bad h (fun job hjob =>
          hplaced job (by rw [List.flatten_cons]; exact List.mem_append_left _ hjob)) hnot
        rw [hwalk] at hcall
        exact ⟨call, (hgrowsAll rest hunlimited).calls call hcall, hclean⟩
      · refine ih ?_ st' hunlimited ⟨bad, hbad, hnot⟩
        intro job hjob
        exact hplaced job (by rw [List.flatten_cons]; exact List.mem_append_right _ hjob)

/-- **No job of the plan leaves an assignment or a schedule behind that a later one finds,
whatever the nodes, limits and servers answer, exactly if the due jobs have no node and no
`JobInfo` in common and none is in front of a job to be removed.** -/
theorem calls_clean_iff (plan : PlanLists) (timeNow : ℤ)
    (hplaced : ∀ job ∈ plan.clusters.flatten, job.due timeNow = true → job.Placed) :
    NothingLeftBehind timeNow plan.clusters ↔ DueApart timeNow plan.clusters := by
  constructor
  · intro hnothing
    have hclean : ∀ call ∈ (assignPlan NodeEnv.allFit timeNow
        (AssignState.initial Counters.idle []) plan.clusters).calls, call.Clean :=
      fun call hcall => (hnothing NodeEnv.allFit Counters.idle [] call hcall).1
    have hfirst : ∀ jobs ∈ plan.clusters, RemovalsFirst timeNow jobs := by
      intro jobs hjobs
      by_contra hnot
      obtain ⟨call, hcall, hdirty⟩ := assignPlan_notFirst plan.clusters hplaced
        (AssignState.initial Counters.idle []) rfl ⟨jobs, hjobs, hnot⟩
      exact hdirty (hclean call hcall)
    refine ⟨hfirst, ?_⟩
    rw [assignPlan_eq NodeEnv.allFit timeNow plan.clusters hfirst] at hclean
    have hapart := (apart_of_clean _ (by
      intro job hjob
      simpa using (List.mem_filter.mp hjob).2) (by
      intro job hjob
      exact hplaced job (List.mem_filter.mp hjob).1) (AssignState.initial Counters.idle []) rfl
      hclean).1
    rw [List.filter_filter] at hapart
    have hsame : plan.clusters.flatten.filter
          (fun job => job.due timeNow && !job.removable timeNow)
        = plan.clusters.flatten.filter (PlanJob.due timeNow) := by
      refine List.filter_congr ?_
      intro job _
      cases hdue : job.due timeNow with
      | false => rfl
      | true =>
          rw [PlanJob.not_removable_of_due hdue]
          rfl
    rwa [hsame] at hapart
  · exact nothingLeftBehind_of_apart

/-- A queued job of one CPU that is due since ten seconds, on the given node. -/
def dueJob (ptr : ℕ) (id : String) (node : ℕ) : PlanJob :=
  { PlanJob.filled ptr { (default : JobInfo) with state := .queued, jobId := id } 1 1 Nat.one_pos
      1 600 0 1700000000 with
    ninfoArr := [some node] }

/-- Two jobs on nodes of their own leave nothing behind for each other. -/
theorem calls_clean_two :
    NothingLeftBehind 1700000010 [[dueJob 1 "7.meta" 0, dueJob 2 "8.meta" 1]] := by
  refine (calls_clean_iff ⟨[[dueJob 1 "7.meta" 0, dueJob 2 "8.meta" 1]], by decide⟩ 1700000010
    ?_).mpr ⟨?_, ?_⟩
  · intro job hjob _
    have hjob : job ∈ [dueJob 1 "7.meta" 0, dueJob 2 "8.meta" 1] := hjob
    rcases List.mem_cons.mp hjob with rfl | hjob
    · exact ⟨by decide, by decide⟩
    · rw [List.mem_singleton.mp hjob]
      exact ⟨by decide, by decide⟩
  · intro jobs hjobs
    rw [List.mem_singleton.mp hjobs]
    unfold RemovalsFirst
    decide +kernel
  · have hdue : [[dueJob 1 "7.meta" 0, dueJob 2 "8.meta" 1]].flatten.filter
        (PlanJob.due 1700000010) = [dueJob 1 "7.meta" 0, dueJob 2 "8.meta" 1] := by
      decide +kernel
    rw [hdue, List.pairwise_pair]
    refine ⟨by decide, ?_⟩
    intro node hnode hnode'
    have h₁ : node = 0 := by simpa [dueJob] using hnode
    have h₂ : node = 1 := by simpa [dueJob] using hnode'
    omega

/-- Servers accept every job, and all nodes have room for all jobs but cannot be booted. -/
def oneNodeEnv : NodeEnv where
  localServer := ""
  rescInfoDb := []
  outcome := fun _ => ⟨true, .success, .success, 0⟩
  traits := fun _ => ⟨.none, none, false, false⟩
  tests := fun _ => ⟨fun _ => "zubat1", fun _ => .available, fun _ => .nonFit,
    fun _ _ => .available, fun _ _ => .nonFit, fun _ _ => true⟩
  again := fun _ => ⟨fun _ => "zubat1", fun _ => .available, fun _ => .nonFit,
    fun _ _ => .available, fun _ _ => .nonFit, fun _ _ => true⟩
  nodespec := fun _ => []

/-- Two jobs on one node: the first one is started and leaves its assignment there, so the
check for the second one finds the node occupied. -/
theorem calls_find_assignment :
    (assignPlan oneNodeEnv 1700000010 (AssignState.initial Counters.idle [])
        [[dueJob 1 "7.meta" 0, dueJob 2 "8.meta" 0]]).calls.map
      (fun call => (call.job.ptr, call.created.nodes.map call.before.hasAssignment, call.code,
        (oneNodeEnv.check call.attempt call.job call.created ⟨fun _ => false, []⟩).1))
      = [(1, [false], .success, .success),
        (2, [true], nodespecNotEnoughNodesTotal, .success)] ∧
    ¬ NothingLeftBehind 1700000010 [[dueJob 1 "7.meta" 0, dueJob 2 "8.meta" 0]] := by
  have hcalls : (assignPlan oneNodeEnv 1700000010 (AssignState.initial Counters.idle [])
        [[dueJob 1 "7.meta" 0, dueJob 2 "8.meta" 0]]).calls.map
      (fun call => (call.job.ptr, call.created.nodes.map call.before.hasAssignment, call.code,
        (oneNodeEnv.check call.attempt call.job call.created ⟨fun _ => false, []⟩).1))
      = [(1, [false], .success, .success),
        (2, [true], nodespecNotEnoughNodesTotal, .success)] := by
    decide +kernel
  refine ⟨hcalls, ?_⟩
  intro hnothing
  have hmem : (2, [true], nodespecNotEnoughNodesTotal, RunCheck.success) ∈
      (assignPlan oneNodeEnv 1700000010 (AssignState.initial Counters.idle [])
        [[dueJob 1 "7.meta" 0, dueJob 2 "8.meta" 0]]).calls.map
      (fun call => (call.job.ptr, call.created.nodes.map call.before.hasAssignment, call.code,
        (oneNodeEnv.check call.attempt call.job call.created ⟨fun _ => false, []⟩).1)) := by
    rw [hcalls]
    exact List.mem_cons_of_mem _ List.mem_cons_self
  obtain ⟨call, hcall, heq⟩ := List.mem_map.mp hmem
  obtain ⟨-, halone⟩ := hnothing oneNodeEnv Counters.idle [] call hcall
  simp only [Prod.mk.injEq] at heq
  rw [heq.2.2.1, heq.2.2.2] at halone
  exact absurd halone (by decide)

end PlanSched
