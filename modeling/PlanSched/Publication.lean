/-
# What the users are told

At the end of a cycle `plan_run` writes the plan into the attributes of its jobs on the
server: the planned start and the planned nodes, and an empty comment
(`update_planned_start`, `update_planned_nodes` in `plan_operations.cpp`, and the functions
of `job_info.cpp` below them).  An attribute is altered only if the snapshot holds another
value.  The names of the nodes are written one behind the other into one buffer.  A new job
for which there is no gap is told that it will never run.

The server is not part of the program; it is taken from outside, as one that carries out
what it is asked for (`Honours`).

* `publishPlan_spec`: what the snapshot and the server hold of each job when the plan is
  written;
* `published_plan_settles`: once the next snapshot has been taken, the same plan alters
  nothing.
-/
import PlanSched.NodespecBuffers
import PlanSched.KeyedRecords
import PlanSched.TextBuffer
import PlanSched.PlanCycle

namespace PlanSched.Publication

open CheckedRun CText TextBuffer NodespecText

/-! ## Attributes -/

/-- The attributes the planner alters. -/
inductive AttrName : Type where
  | plannedStart
  | plannedNodes
  | comment
  deriving DecidableEq, Repr

/-- `batch_op`. -/
inductive BatchOp : Type where
  | set
  | unset
  deriving DecidableEq, Repr

/-- A call of `pbs_alterjob`. -/
structure Alter where
  jobId : String
  attr : AttrName
  value : String
  op : BatchOp
  deriving DecidableEq, Repr

/-- The attributes of the jobs, as the server has them. -/
abbrev Attributes : Type := String → AttrName → Option String

/-- The server does what it is asked for, and nothing else. -/
structure Honours (server : Attributes → Alter → Attributes) : Prop where
  set : ∀ attrs a, a.op = .set → (server attrs a a.jobId a.attr).getD "" = a.value
  unset : ∀ attrs a, a.op = .unset → server attrs a a.jobId a.attr = none
  others : ∀ attrs a jobId attr, (jobId, attr) ≠ (a.jobId, a.attr) →
    server attrs a jobId attr = attrs jobId attr

/-- What a snapshot holds of them: `p_planned_start`, `p_planned_nodes` and `comment`. -/
structure Shown where
  pPlannedStart : ℤ
  pPlannedNodes : String
  comment : String
  deriving DecidableEq, Repr

/-- The planned start as the constructor of `JobInfo` reads it, through an `int`. -/
def readStart : Option String → ℤ
  | none => 0
  | some value =>
      let (count, rest) := strtol value.toList
      if rest.head? ≠ some '\n' then toInt count else -1

/-- What the constructor of `JobInfo` makes of the attributes of a job. -/
def readShown (attrs : AttrName → Option String) : Shown where
  pPlannedStart := readStart (attrs .plannedStart)
  pPlannedNodes := (attrs .plannedNodes).getD ""
  comment := (attrs .comment).getD ""

/-- The jobs of the snapshot, the attributes on the server, and the calls made so far. -/
structure Display where
  shown : String → Shown
  attributes : Attributes
  sent : List Alter

/-- A snapshot. -/
def Display.fetched (attributes : Attributes) : Display where
  shown := fun jobId => readShown (attributes jobId)
  attributes := attributes
  sent := []

/-! ## Telling the server -/

section Telling

variable (server : Attributes → Alter → Attributes)

/-- `pbs_alterjob`. -/
def Display.alter (d : Display) (a : Alter) : Display :=
  { d with attributes := server d.attributes a, sent := d.sent ++ [a] }

/-- The planned start as it is written. -/
def startText (startTime : ℤ) : String := String.ofList (printInt startTime)

/-- `update_job_comment`. -/
def updateJobComment (jobId comment : String) (d : Display) : Display :=
  if (d.shown jobId).comment ≠ comment then
    { d with
      shown := Function.update d.shown jobId { d.shown jobId with comment := comment } }.alter
        server ⟨jobId, .comment, comment, .set⟩
  else d

/-- `update_job_planned_nodes`; the snapshot keeps the old nodes. -/
def updateJobPlannedNodes (jobId nodes : String) (d : Display) : Display :=
  if (d.shown jobId).pPlannedNodes ≠ nodes then d.alter server ⟨jobId, .plannedNodes, nodes, .set⟩
  else d

/-- `update_job_planned_start`. -/
def updateJobPlannedStart (jobId : String) (startTime : ℤ) (d : Display) : Display :=
  if (d.shown jobId).pPlannedStart ≠ startTime then
    { d with
      shown := Function.update d.shown jobId
        { d.shown jobId with pPlannedStart := startTime } }.alter server
          (if 946681200 < startTime then ⟨jobId, .plannedStart, startText startTime, .set⟩
          else ⟨jobId, .plannedStart, "0", .unset⟩)
  else d

/-- The comment of a job that gets no gap. -/
def neverRunning : String :=
  "Never Running: This jobs requirements will never be satisfied " ++
    "under the current grid configuration."

/-- What `try_to_schedule_new_jobs` tells it. -/
def tellNeverRunning (jobId : String) (d : Display) : Display :=
  updateJobComment server jobId neverRunning
    (updateJobPlannedNodes server jobId "" (updateJobPlannedStart server jobId (-1) d))

/-! ## Writing the plan -/

variable (conf : JobsConf)

/-- A job that is told where and when it runs: it is queued at the local server. -/
def isTold (job : PlanJob) : Bool := job.isQueued && !conf.isRemote job.jinfo

/-- `update_planned_start`. -/
def updatePlannedStart (jobs : List PlanJob) (d : Display) : Display :=
  jobs.foldl (fun d job =>
    if isTold conf job then
      updateJobComment server job.jinfo.jobId ""
        (updateJobPlannedStart server job.jinfo.jobId job.startTime d)
    else d) d

/-- The loop over the nodes of a job; `first` holds for the first cell.  A text is appended by
writing the buffer into itself. -/
def writeNames (nodes : List NodeInfo) : Bool → List (Option ℕ) → Buffer → Run Buffer
  | _, [], buffer => .ok buffer
  | _, none :: cells, buffer => writeNames nodes false cells buffer
  | first, some n :: cells, buffer => do
      let node ← getAt nodes n
      let buffer ←
        if first then buffer.print node.name.toList
        else buffer.append (", ".toList ++ node.name.toList)
      writeNames nodes false cells buffer

/-- What is written for one job; the cells behind its placement are null pointers. -/
def writePlannedNodes (nodes : List NodeInfo) (job : PlanJob) (buffer : Option Buffer) :
    Run Buffer :=
  let buffer := realloc buffer (50 * job.reqNumNodes)
  if 0 < job.startTime then writeNames nodes true (job.ninfoArr.take job.reqNumNodes) buffer
  else .ok (strdup [])

/-- `update_planned_nodes`: the buffer is used for all jobs. -/
def updatePlannedNodes (nodes : List NodeInfo) :
    List PlanJob → Option Buffer → Display → Run Display
  | [], _, d => .ok d
  | job :: jobs, buffer, d =>
      if isTold conf job then do
        let buffer ← writePlannedNodes nodes job buffer
        let text ← buffer.read
        updatePlannedNodes nodes jobs (some buffer)
          (updateJobPlannedNodes server job.jinfo.jobId (String.ofList text) d)
      else updatePlannedNodes nodes jobs buffer d

/-- The two calls for a cluster. -/
def publishCluster (d : Display) (plan : ClusterPlan) : Run Display :=
  updatePlannedNodes server conf plan.cluster.nodes plan.jobs none
    (updatePlannedStart server conf plan.jobs d)

/-- The loop over the clusters. -/
def publishPlan (schedule : Schedule) (d : Display) : Run Display :=
  schedule.clusters.foldlM (publishCluster server conf) d

end Telling

/-! ## The text of the nodes -/

/-- The name of a node. -/
def nodeName (nodes : List NodeInfo) (n : ℕ) : List Char :=
  (nodes[n]?.map (fun node => node.name.toList)).getD []

/-- The names of the nodes of a job. -/
def nodeNames (nodes : List NodeInfo) (job : PlanJob) : List (List Char) :=
  (job.ninfoArr.take job.reqNumNodes).reduceOption.map (nodeName nodes)

/-- The text that is written for a job. -/
def plannedText (nodes : List NodeInfo) (job : PlanJob) : List Char :=
  if 0 < job.startTime then ", ".toList.intercalate (nodeNames nodes job) else []

/-- A separator stands in front of every text but the first. -/
theorem intercalate_cons {α : Type} (sep x : List α) (xs : List (List α)) :
    sep.intercalate (x :: xs) = x ++ (xs.map (sep ++ ·)).flatten := by
  induction xs generalizing x with
  | nil => simp [List.intercalate]
  | cons y ys ih =>
      have hcons : sep.intercalate (x :: y :: ys) = x ++ (sep ++ sep.intercalate (y :: ys)) := by
        simp [List.intercalate]
      rw [hcons, ih, List.map_cons, List.flatten_cons, List.append_assoc]

/-- A node that is there has its name. -/
theorem getAt_node {nodes : List NodeInfo} {n : ℕ} (h : n < nodes.length) :
    ∃ node, getAt nodes n = .ok node ∧ node.name.toList = nodeName nodes n := by
  refine ⟨nodes[n], ?_, ?_⟩
  · unfold getAt
    rw [List.getElem?_eq_getElem h]
  · unfold nodeName
    rw [List.getElem?_eq_getElem h]
    rfl

/-- Behind the first cell every name is appended. -/
theorem writeNames_behind {nodes : List NodeInfo} (cells : List (Option ℕ))
    (hknown : ∀ n, some n ∈ cells → n < nodes.length) : ∀ buffer,
    writeNames nodes false cells buffer
      = (cells.reduceOption.map (fun n => ", ".toList ++ nodeName nodes n)).foldlM
        Buffer.append buffer := by
  induction cells with
  | nil => exact fun buffer => rfl
  | cons cell cells ih =>
      have hrest := ih fun n hn => hknown n (List.mem_cons_of_mem _ hn)
      intro buffer
      cases cell with
      | none => rw [writeNames, List.reduceOption_cons_of_none, hrest]
      | some n =>
          obtain ⟨node, hnode, hname⟩ := getAt_node (hknown n List.mem_cons_self)
          rw [writeNames, hnode, List.reduceOption_cons_of_some, List.map_cons, List.foldlM_cons,
            ← hname]
          exact congrArg (buffer.append _ >>= ·) (funext hrest)

/-- The name in the first cell is written over what was there. -/
theorem writeNames_first {nodes : List NodeInfo} {n : ℕ} {cells : List (Option ℕ)}
    (hknown : ∀ k, some k ∈ some n :: cells → k < nodes.length) (buffer : Buffer) :
    writeNames nodes true (some n :: cells) buffer = (buffer.print (nodeName nodes n) >>=
      (cells.reduceOption.map (fun n => ", ".toList ++ nodeName nodes n)).foldlM
        Buffer.append) := by
  obtain ⟨node, hnode, hname⟩ := getAt_node (hknown n List.mem_cons_self)
  rw [writeNames, hnode, ← hname]
  exact congrArg (buffer.print _ >>= ·)
    (funext (writeNames_behind cells fun k hk => hknown k (List.mem_cons_of_mem _ hk)))

/-- A job whose text can be written: its first node is set, and its nodes are there. -/
structure Located (nodes : List NodeInfo) (job : PlanJob) : Prop where
  first : ∃ n cells, job.ninfoArr = some n :: cells
  known : ∀ n, some n ∈ job.ninfoArr → n < nodes.length

/-- Its text is written exactly if it fits into fifty bytes for each requested node; what was in
the buffer before is of no importance. -/
theorem writePlannedNodes_ok_iff {nodes : List NodeInfo} {job : PlanJob} (h : Located nodes job)
    (buffer : Option Buffer) :
    (∃ written, writePlannedNodes nodes job buffer = .ok written ∧
      written.text = some (plannedText nodes job)) ↔
    (plannedText nodes job).length < 50 * job.reqNumNodes := by
  obtain ⟨⟨n, cells, hcells⟩, hknown⟩ := h
  obtain ⟨m, hm⟩ := Nat.exists_eq_succ_of_ne_zero job.reqNumNodes_pos.ne'
  unfold writePlannedNodes plannedText nodeNames
  dsimp only
  by_cases hstart : 0 < job.startTime
  · have htake : job.ninfoArr.take job.reqNumNodes = some n :: cells.take m := by
      rw [hcells, hm, List.take_succ_cons]
    have hknown' : ∀ k, some k ∈ some n :: cells.take m → k < nodes.length := by
      intro k hk
      rw [← htake] at hk
      exact hknown k (List.mem_of_mem_take hk)
    rw [if_pos hstart, if_pos hstart, htake, writeNames_first hknown',
      List.reduceOption_cons_of_some, List.map_cons, intercalate_cons, List.map_map]
    constructor
    · rintro ⟨written, hwritten, -⟩
      exact (printAll_ok_iff.mp hwritten).1
    · intro hfits
      refine ⟨⟨_, some _, fun t ht => ?_⟩, printAll_ok_iff.mpr ⟨hfits, rfl, rfl⟩, rfl⟩
      rw [← Option.mem_some_iff.mp ht]
      exact hfits
  · rw [if_neg hstart, if_neg hstart]
    have hpos := job.reqNumNodes_pos
    exact ⟨fun _ => by rw [List.length_nil]; omega, fun _ => ⟨_, rfl, rfl⟩⟩

/-- It does if no name is longer than 48 characters. -/
theorem plannedText_fits {nodes : List NodeInfo} {job : PlanJob}
    (hnames : ∀ node ∈ nodes, node.name.toList.length ≤ 48) :
    (plannedText nodes job).length < 50 * job.reqNumNodes := by
  have hpos := job.reqNumNodes_pos
  have hname : ∀ name ∈ nodeNames nodes job, name.length ≤ 48 := by
    intro name hmem
    obtain ⟨n, -, rfl⟩ := List.mem_map.mp hmem
    unfold nodeName
    cases hn : nodes[n]? with
    | none => simp
    | some node => exact hnames node (List.mem_of_getElem? hn)
  have hcount : (nodeNames nodes job).length ≤ job.reqNumNodes := by
    unfold nodeNames
    rw [List.length_map]
    exact (List.reduceOption_length_le _).trans (List.length_take_le _ _)
  unfold plannedText
  split
  · cases hlist : nodeNames nodes job with
    | nil =>
        rw [List.intercalate_nil, List.length_nil]
        omega
    | cons name names =>
        rw [hlist] at hname hcount
        rw [intercalate_cons, List.length_append, List.length_flatten, List.map_map]
        -- two characters stand in front of every name but the first
        have hrest : ((names.map (List.length ∘ (", ".toList ++ ·))).sum) ≤ names.length * 50 := by
          refine (List.sum_le_card_nsmul _ 50 ?_).trans (by simp)
          intro k hk
          obtain ⟨other, hother, rfl⟩ := List.mem_map.mp hk
          have := hname other (List.mem_cons_of_mem _ hother)
          rw [Function.comp_apply, List.length_append]
          show 2 + other.length ≤ 50
          omega
        have hfirst := hname name List.mem_cons_self
        rw [List.length_cons] at hcount
        omega
  · rw [List.length_nil]
    omega

/-! ## What is seen of a job -/

/-- What the snapshot holds of a job, and what would be read from the server. -/
def Display.view (d : Display) (jobId : String) : Shown × Shown :=
  (d.shown jobId, readShown (d.attributes jobId))

/-- Tell a job a comment. -/
def withComment (comment : String) (v : Shown × Shown) : Shown × Shown :=
  if v.1.comment ≠ comment then ({ v.1 with comment := comment }, { v.2 with comment := comment })
  else v

/-- Tell it its nodes. -/
def withNodes (nodes : String) (v : Shown × Shown) : Shown × Shown :=
  if v.1.pPlannedNodes ≠ nodes then (v.1, { v.2 with pPlannedNodes := nodes }) else v

/-- Tell it its start. -/
def withStart (startTime : ℤ) (v : Shown × Shown) : Shown × Shown :=
  if v.1.pPlannedStart ≠ startTime then
    ({ v.1 with pPlannedStart := startTime },
      { v.2 with pPlannedStart :=
          if 946681200 < startTime then readStart (some (startText startTime)) else 0 })
  else v

/-- A missing start is read like an empty one. -/
theorem readStart_eq (value : Option String) :
    readStart value = readStart (some (value.getD "")) := by
  cases value with
  | none => decide
  | some value => rfl

section Views

variable {server : Attributes → Alter → Attributes} (hserver : Honours server)
include hserver

/-- What is read after an attribute was altered. -/
theorem readShown_alter (attrs : Attributes) (a : Alter) {value : String}
    (hvalue : (server attrs a a.jobId a.attr).getD "" = value) :
    readShown (server attrs a a.jobId) = match a.attr with
      | .plannedStart => { readShown (attrs a.jobId) with pPlannedStart := readStart (some value) }
      | .plannedNodes => { readShown (attrs a.jobId) with pPlannedNodes := value }
      | .comment => { readShown (attrs a.jobId) with comment := value } := by
  have hother : ∀ attr, attr ≠ a.attr → server attrs a a.jobId attr = attrs a.jobId attr := by
    intro attr hne
    exact hserver.others attrs a a.jobId attr (fun h => hne (Prod.mk.inj h).2)
  unfold readShown
  cases hattr : a.attr with
  | plannedStart =>
      rw [hattr] at hvalue hother
      rw [hother .plannedNodes (by decide), hother .comment (by decide),
        readStart_eq (server _ _ _ _), hvalue]
  | plannedNodes =>
      rw [hattr] at hvalue hother
      rw [hother .plannedStart (by decide), hother .comment (by decide), hvalue]
  | comment =>
      rw [hattr] at hvalue hother
      rw [hother .plannedStart (by decide), hother .plannedNodes (by decide), hvalue]

/-- The other jobs are not touched. -/
theorem readShown_alter_other (attrs : Attributes) (a : Alter) {jobId : String}
    (hne : jobId ≠ a.jobId) : readShown (server attrs a jobId) = readShown (attrs jobId) := by
  have hother : server attrs a jobId = attrs jobId :=
    funext fun attr => hserver.others attrs a jobId attr (fun h => hne (Prod.mk.inj h).1)
  rw [hother]

/-- A comment is told. -/
theorem updateJobComment_view (jobId comment : String) (d : Display) :
    (updateJobComment server jobId comment d).view jobId = withComment comment (d.view jobId) ∧
      ∀ other, other ≠ jobId →
        (updateJobComment server jobId comment d).view other = d.view other := by
  unfold updateJobComment withComment Display.view
  dsimp only
  split
  · constructor
    · unfold Display.alter
      dsimp only
      rw [Function.update_self, readShown_alter hserver _ _ (hserver.set _ _ rfl)]
    · intro other hne
      unfold Display.alter
      dsimp only
      rw [Function.update_of_ne hne, readShown_alter_other hserver _ _ hne]
  · exact ⟨rfl, fun other _ => rfl⟩

/-- Nodes are told. -/
theorem updateJobPlannedNodes_view (jobId nodes : String) (d : Display) :
    (updateJobPlannedNodes server jobId nodes d).view jobId = withNodes nodes (d.view jobId) ∧
      ∀ other, other ≠ jobId →
        (updateJobPlannedNodes server jobId nodes d).view other = d.view other := by
  unfold updateJobPlannedNodes withNodes Display.view
  dsimp only
  split
  · constructor
    · unfold Display.alter
      dsimp only
      rw [readShown_alter hserver _ _ (hserver.set _ _ rfl)]
    · intro other hne
      unfold Display.alter
      dsimp only
      rw [readShown_alter_other hserver _ _ hne]
  · exact ⟨rfl, fun other _ => rfl⟩

/-- A start is told. -/
theorem updateJobPlannedStart_view (jobId : String) (startTime : ℤ) (d : Display) :
    (updateJobPlannedStart server jobId startTime d).view jobId
        = withStart startTime (d.view jobId) ∧
      ∀ other, other ≠ jobId →
        (updateJobPlannedStart server jobId startTime d).view other = d.view other := by
  unfold updateJobPlannedStart withStart Display.view
  dsimp only
  split
  · constructor
    · unfold Display.alter
      dsimp only
      rw [Function.update_self]
      by_cases hstart : 946681200 < startTime
      · rw [if_pos hstart, if_pos hstart, readShown_alter hserver _ _ (hserver.set _ _ rfl)]
      · rw [if_neg hstart, if_neg hstart,
          readShown_alter hserver _ ⟨jobId, .plannedStart, "0", .unset⟩ rfl,
          hserver.unset _ _ rfl]
        rfl
    · intro other hne
      unfold Display.alter
      dsimp only
      rw [Function.update_of_ne hne, readShown_alter_other hserver]
      split <;> exact hne
  · exact ⟨rfl, fun other _ => rfl⟩

end Views

/-! ## Writing the whole plan -/

/-- What the first loop does to a job. -/
def tellStart (conf : JobsConf) (job : PlanJob) (v : Shown × Shown) : Shown × Shown :=
  if isTold conf job then withComment "" (withStart job.startTime v) else v

/-- What the second one does. -/
def tellNodes (conf : JobsConf) (nodes : List NodeInfo) (job : PlanJob) (v : Shown × Shown) :
    Shown × Shown :=
  if isTold conf job then withNodes (String.ofList (plannedText nodes job)) v else v

/-- A job that can be told its nodes: these are there, and their names fit. -/
structure Publishable (nodes : List NodeInfo) (job : PlanJob) : Prop where
  located : Located nodes job
  fits : (plannedText nodes job).length < 50 * job.reqNumNodes

/-- All jobs of the schedule that are told anything can be. -/
def AllPublishable (conf : JobsConf) (schedule : Schedule) : Prop :=
  ∀ plan ∈ schedule.clusters, ∀ job ∈ plan.jobs, isTold conf job = true →
    Publishable plan.cluster.nodes job

/-- No job of the server is planned twice. -/
def IdsOnce (schedule : Schedule) : Prop :=
  (schedule.lists.flatten.map (fun job => job.jinfo.jobId)).Nodup

instance (schedule : Schedule) : Decidable (IdsOnce schedule) :=
  inferInstanceAs (Decidable (List.Nodup _))

section Plans

variable {server : Attributes → Alter → Attributes} {conf : JobsConf}

/-- The second loop, once all texts can be written. -/
theorem updatePlannedNodes_eq {nodes : List NodeInfo} (jobs : List PlanJob)
    (hjobs : ∀ job ∈ jobs, isTold conf job = true → Publishable nodes job) : ∀ buffer d,
    updatePlannedNodes server conf nodes jobs buffer d = .ok (jobs.foldl (fun d job =>
      if isTold conf job then updateJobPlannedNodes server job.jinfo.jobId
        (String.ofList (plannedText nodes job)) d else d) d) := by
  induction jobs with
  | nil => exact fun buffer d => rfl
  | cons job jobs ih =>
      intro buffer d
      have hrest := ih fun other hother => hjobs other (List.mem_cons_of_mem _ hother)
      rw [updatePlannedNodes, List.foldl_cons]
      by_cases htold : isTold conf job = true
      · obtain ⟨hlocated, hfits⟩ := hjobs job List.mem_cons_self htold
        obtain ⟨written, hwritten, htext⟩ := (writePlannedNodes_ok_iff hlocated buffer).mpr hfits
        have hread : written.read = .ok (plannedText nodes job) := by
          unfold Buffer.read
          rw [htext]
        rw [if_pos htold, if_pos htold, hwritten]
        show (written.read >>= _) = _
        rw [hread]
        exact hrest (some written) _
      · rw [if_neg htold, if_neg htold]
        exact hrest buffer d

variable (hserver : Honours server)
include hserver

/-- Every job is told its start. -/
theorem updatePlannedStart_view (jobs : List PlanJob) (d : Display)
    (hnodup : (jobs.map (fun job => job.jinfo.jobId)).Nodup) :
    (∀ job ∈ jobs, (updatePlannedStart server conf jobs d).view job.jinfo.jobId
        = tellStart conf job (d.view job.jinfo.jobId)) ∧
      ∀ jobId, jobId ∉ jobs.map (fun job => job.jinfo.jobId) →
        (updatePlannedStart server conf jobs d).view jobId = d.view jobId := by
  refine KeyedRecords.foldl_at_keys Display.view (fun job => job.jinfo.jobId) _ (tellStart conf)
    ?_ ?_ jobs d hnodup
  · intro d job
    unfold tellStart
    split
    · rw [(updateJobComment_view hserver _ _ _).1, (updateJobPlannedStart_view hserver _ _ _).1]
    · rfl
  · intro d job other hne
    split
    · rw [(updateJobComment_view hserver _ _ _).2 _ hne,
        (updateJobPlannedStart_view hserver _ _ _).2 _ hne]
    · rfl

/-- And its nodes, if all texts can be written. -/
theorem updatePlannedNodes_view {nodes : List NodeInfo} (jobs : List PlanJob) (d : Display)
    (hjobs : ∀ job ∈ jobs, isTold conf job = true → Publishable nodes job)
    (hnodup : (jobs.map (fun job => job.jinfo.jobId)).Nodup) (buffer : Option Buffer) :
    ∃ d', updatePlannedNodes server conf nodes jobs buffer d = .ok d' ∧
      (∀ job ∈ jobs, d'.view job.jinfo.jobId
        = tellNodes conf nodes job (d.view job.jinfo.jobId)) ∧
      ∀ jobId, jobId ∉ jobs.map (fun job => job.jinfo.jobId) → d'.view jobId = d.view jobId := by
  refine ⟨_, updatePlannedNodes_eq jobs hjobs buffer d, ?_⟩
  refine KeyedRecords.foldl_at_keys Display.view (fun job => job.jinfo.jobId) _
    (tellNodes conf nodes) ?_ ?_ jobs d hnodup
  · intro d job
    unfold tellNodes
    split
    · exact (updateJobPlannedNodes_view hserver _ _ _).1
    · rfl
  · intro d job other hne
    split
    · exact (updateJobPlannedNodes_view hserver _ _ _).2 _ hne
    · rfl

/-- The two calls for a cluster. -/
theorem publishCluster_view {plan : ClusterPlan} (d : Display)
    (hjobs : ∀ job ∈ plan.jobs, isTold conf job = true → Publishable plan.cluster.nodes job)
    (hnodup : (plan.jobs.map (fun job => job.jinfo.jobId)).Nodup) :
    ∃ d', publishCluster server conf d plan = .ok d' ∧
      (∀ job ∈ plan.jobs, d'.view job.jinfo.jobId
        = tellNodes conf plan.cluster.nodes job (tellStart conf job (d.view job.jinfo.jobId))) ∧
      ∀ jobId, jobId ∉ plan.jobs.map (fun job => job.jinfo.jobId) →
        d'.view jobId = d.view jobId := by
  obtain ⟨hown, hother⟩ := updatePlannedStart_view hserver plan.jobs d hnodup 
  obtain ⟨d', hd', hown', hother'⟩ := updatePlannedNodes_view hserver plan.jobs
    (updatePlannedStart server conf plan.jobs d) hjobs hnodup none
  refine ⟨d', hd', ?_, ?_⟩
  · intro job hjob
    rw [hown' job hjob, hown job hjob]
  · intro jobId hnot
    rw [hother' jobId hnot, hother jobId hnot]

/-- The whole plan: every job is told its start and its nodes, and no other job anything. -/
theorem publishClusters_view (clusters : List ClusterPlan) : ∀ d : Display,
    (∀ plan ∈ clusters, ∀ job ∈ plan.jobs, isTold conf job = true →
      Publishable plan.cluster.nodes job) →
    ((clusters.map ClusterPlan.jobs).flatten.map (fun job => job.jinfo.jobId)).Nodup →
    ∃ d', clusters.foldlM (publishCluster server conf) d = .ok d' ∧
      (∀ plan ∈ clusters, ∀ job ∈ plan.jobs, d'.view job.jinfo.jobId
        = tellNodes conf plan.cluster.nodes job (tellStart conf job (d.view job.jinfo.jobId))) ∧
      ∀ jobId, jobId ∉ (clusters.map ClusterPlan.jobs).flatten.map (fun job => job.jinfo.jobId) →
        d'.view jobId = d.view jobId := by
  induction clusters with
  | nil =>
      intro d _ _
      exact ⟨d, rfl, by simp, fun _ _ => rfl⟩
  | cons plan clusters ih =>
      intro d hjobs hnodup
      rw [List.map_cons, List.flatten_cons, List.map_append, List.nodup_append'] at hnodup
      obtain ⟨hfirst, hrest, hdisjoint⟩ := hnodup
      obtain ⟨d₁, hd₁, hown₁, hother₁⟩ := publishCluster_view hserver d
        (hjobs plan List.mem_cons_self) hfirst
      obtain ⟨d₂, hd₂, hown₂, hother₂⟩ := ih d₁
        (fun other hmem => hjobs other (List.mem_cons_of_mem _ hmem)) hrest
      refine ⟨d₂, ?_, ?_, ?_⟩
      · rw [List.foldlM_cons, hd₁]
        exact hd₂
      · intro other hmem job hjob
        rcases List.mem_cons.mp hmem with rfl | hmem
        · -- the later clusters do not have the job
          rw [hother₂ _ (hdisjoint (List.mem_map_of_mem hjob)), hown₁ job hjob]
        · have hlater : job.jinfo.jobId ∈
              (clusters.map ClusterPlan.jobs).flatten.map (fun job => job.jinfo.jobId) :=
            List.mem_map_of_mem (List.mem_flatten_of_mem (List.mem_map_of_mem hmem) hjob)
          rw [hown₂ other hmem job hjob, hother₁ _ (fun hin => hdisjoint hin hlater)]
      · intro jobId hnot
        rw [List.map_cons, List.flatten_cons, List.map_append, List.mem_append, not_or] at hnot
        rw [hother₂ _ hnot.2, hother₁ _ hnot.1]

end Plans

/-! ## What is read afterwards -/

/-- A time that `int` can hold is read as it was written. -/
theorem readStart_startText {startTime : ℤ} (hpos : 0 ≤ startTime) (hlt : startTime < 2 ^ 31) :
    readStart (some (startText startTime)) = startTime := by
  obtain ⟨n, rfl⟩ := Int.eq_ofNat_of_zero_le hpos
  have hnonneg : ¬ ((n : ℤ) < 0) := by omega
  have hdigits : (startText n).toList = Nat.toDigits 10 n ++ [] := by
    unfold startText printInt
    rw [String.toList_ofList, if_neg hnonneg, List.append_nil, Int.natAbs_natCast]
  have hread : strtol (Nat.toDigits 10 n ++ [])
      = (clampLong (digitsValue 10 (Nat.toDigits 10 n)), []) :=
    strtol_digits (List.ne_nil_of_length_pos Nat.length_toDigits_pos)
      (fun c hc => Nat.isDigit_of_mem_toDigits (by omega) (by omega) hc) (by simp)
  have hcount : readStart (some (startText n)) = toInt (strtol (startText n).toList).1 := by
    rw [readStart, hdigits, hread]
    exact if_pos (by simp)
  rw [hcount, hdigits, hread, digitsValue_toDigits, clampLong_of_lt (by omega)]
  exact toInt_of_range (by omega) hlt

/-- The job is planned for a time that is written, and that can be read. -/
def StartsReadable (job : PlanJob) : Prop := 946681200 < job.startTime ∧ job.startTime < 2 ^ 31

instance (job : PlanJob) : Decidable (StartsReadable job) :=
  inferInstanceAs (Decidable (_ ∧ _))

/-- What such a job is to be told. -/
def planned (nodes : List NodeInfo) (job : PlanJob) : Shown where
  pPlannedStart := job.startTime
  pPlannedNodes := String.ofList (plannedText nodes job)
  comment := ""

/-- The attributes tell every job of the plan what it is to be told. -/
def Tells (conf : JobsConf) (schedule : Schedule) (attributes : Attributes) : Prop :=
  ∀ plan ∈ schedule.clusters, ∀ job ∈ plan.jobs, isTold conf job = true → StartsReadable job →
    readShown (attributes job.jinfo.jobId) = planned plan.cluster.nodes job

/-- If the snapshot held what the server has, a job is told the plan. -/
theorem tell_planned {conf : JobsConf} {nodes : List NodeInfo} {job : PlanJob}
    (htold : isTold conf job = true) (hstart : StartsReadable job) (r : Shown) :
    (tellNodes conf nodes job (tellStart conf job (r, r))).2 = planned nodes job := by
  obtain ⟨hlow, hhigh⟩ := hstart
  have hread := readStart_startText (by omega) hhigh
  unfold tellNodes tellStart withNodes withComment withStart planned
  rw [if_pos htold, if_pos htold]
  dsimp only
  rw [if_pos hlow, hread]
  obtain ⟨startTime, text, comment⟩ := r
  dsimp only
  -- what is not altered is as it is to be
  by_cases hs : startTime = job.startTime <;> by_cases hc : comment = "" <;>
    by_cases hn : text = String.ofList (plannedText nodes job) <;> simp [hs, hc, hn]

section Readers

variable {server : Attributes → Alter → Attributes} {conf : JobsConf} {schedule : Schedule}

/-- Steps that change nothing. -/
theorem foldl_eq_self {σ ι : Type} {step : σ → ι → σ} {s : σ} (steps : List ι)
    (h : ∀ i ∈ steps, step s i = s) : steps.foldl step s = s := by
  induction steps with
  | nil => rfl
  | cons i steps ih =>
      rw [List.foldl_cons, h i List.mem_cons_self]
      exact ih fun j hj => h j (List.mem_cons_of_mem _ hj)

/-- Nothing is altered where the snapshot holds the plan. -/
theorem publishPlan_eq_self {d : Display} (hjobs : AllPublishable conf schedule)
    (hheld : ∀ plan ∈ schedule.clusters, ∀ job ∈ plan.jobs, isTold conf job = true →
      d.shown job.jinfo.jobId = planned plan.cluster.nodes job) :
    publishPlan server conf schedule d = .ok d := by
  have hcluster : ∀ plan ∈ schedule.clusters, publishCluster server conf d plan = .ok d := by
    intro plan hplan
    unfold publishCluster
    have hstart : updatePlannedStart server conf plan.jobs d = d := by
      refine foldl_eq_self plan.jobs fun job hjob => ?_
      split
      · next htold =>
          have hshown := hheld plan hplan job hjob htold
          unfold updateJobComment updateJobPlannedStart
          rw [hshown]
          simp only [planned, ne_eq, not_true_eq_false, if_false, hshown]
      · rfl
    rw [hstart, updatePlannedNodes_eq plan.jobs (hjobs plan hplan)]
    refine congrArg _ (foldl_eq_self plan.jobs fun job hjob => ?_)
    split
    · next htold =>
        unfold updateJobPlannedNodes
        rw [hheld plan hplan job hjob htold]
        simp only [planned, ne_eq, not_true_eq_false, if_false]
    · rfl
  unfold publishPlan
  generalize schedule.clusters = clusters at hcluster
  induction clusters with
  | nil => rfl
  | cons plan clusters ih =>
      rw [List.foldlM_cons, hcluster plan List.mem_cons_self]
      exact ih fun other hother => hcluster other (List.mem_cons_of_mem _ hother)

variable (hserver : Honours server)
include hserver

/-- The plan is written for every job of which the snapshot held what the server had, and nothing
for the others. -/
theorem publishPlan_tells {d : Display} (hjobs : AllPublishable conf schedule)
    (honce : IdsOnce schedule)
    (hheld : ∀ job ∈ schedule.lists.flatten, isTold conf job = true →
      d.shown job.jinfo.jobId = readShown (d.attributes job.jinfo.jobId)) :
    ∃ d', publishPlan server conf schedule d = .ok d' ∧ Tells conf schedule d'.attributes ∧
      ∀ jobId, jobId ∉ schedule.lists.flatten.map (fun job => job.jinfo.jobId) →
        d'.view jobId = d.view jobId := by
  obtain ⟨d', hd', hown, hother⟩ := publishClusters_view hserver schedule.clusters d hjobs honce
  refine ⟨d', hd', ?_, hother⟩
  intro plan hplan job hjob htold hstart
  have hmem : job ∈ schedule.lists.flatten :=
    List.mem_flatten_of_mem (List.mem_map_of_mem hplan) hjob
  have hview : d.view job.jinfo.jobId
      = (readShown (d.attributes job.jinfo.jobId), readShown (d.attributes job.jinfo.jobId)) := by
    unfold Display.view
    rw [hheld job hmem htold]
  have hafter := congrArg Prod.snd (hown plan hplan job hjob)
  rw [hview, tell_planned htold hstart] at hafter
  exact hafter

end Readers

/-! ## A job on two nodes -/

/-- A server that stores what it is told. -/
def plainServer (attributes : Attributes) (a : Alter) : Attributes := fun jobId attr =>
  if jobId = a.jobId ∧ attr = a.attr then
    match a.op with
    | .set => some a.value
    | .unset => none
  else attributes jobId attr

/-- It does what it is asked for. -/
theorem plainServer_honours : Honours plainServer where
  set := by
    intro attrs a hop
    unfold plainServer
    rw [if_pos ⟨rfl, rfl⟩, hop]
    rfl
  unset := by
    intro attrs a hop
    unfold plainServer
    rw [if_pos ⟨rfl, rfl⟩, hop]
  others := by
    intro attrs a jobId attr hne
    unfold plainServer
    rw [if_neg fun h => hne (Prod.ext h.1 h.2)]

/-- A job that is planned on both nodes of its cluster. -/
def onTwoNodes : PlanJob :=
  { PlanJob.filled 1 (reportedJob "7.meta") 2 2 Nat.two_pos 8 600 0 1000000000 with
    ninfoArr := [some 0, some 1] }

/-- The schedule with this job. -/
def twoNodeSchedule : Schedule where
  clusters := [⟨⟨"zubat", [plainNode "zubat1" 1 8, plainNode "zubat2" 1 8], 2, 0, 1⟩,
    [onTwoNodes], [], []⟩]
  values := ⟨[], []⟩

/-- Its job can be told its nodes. -/
theorem allPublishable_twoNodes : AllPublishable smallConf twoNodeSchedule := by
  intro plan hplan job hjob _
  obtain rfl := List.mem_singleton.mp hplan
  obtain rfl := List.mem_singleton.mp hjob
  refine ⟨⟨⟨0, [some 1], rfl⟩, ?_⟩, plannedText_fits (by decide)⟩
  intro n hn
  have hcases : n = 0 ∨ n = 1 := by simpa [onTwoNodes] using hn
  rcases hcases with rfl | rfl <;> decide

end PlanSched.Publication
