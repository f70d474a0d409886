/-
# The comparators of the planner

`compare_fairshare` (`fairshare.cpp`), by which `plan_known_jobs_update` sorts the jobs of the
server, and `node_info::operator<` (`NodeInfo.cpp`), by which `try_assign_spec` sorts nodes through
`NodeStateSort`.  Both are cascades of early returns; each is shown to be a lexicographic order of
ranks, so that it is a strict weak order whatever the values are.

The ratio of a percentage and a usage is taken exactly.

* `compareFairshare_iff`: the cascade is the order by class, ratio and number of the job;
* `nodeLess_iff`: the cascade is the order by kind, time, priority, state, free cores and name;
* `planner_orders` is what the two `std::sort` calls need.
-/
import PlanSched.DataTypes
import PlanSched.CText
import PlanSched.WeakOrders

namespace PlanSched

open CText WeakOrders

/-! ## Jobs -/

/-- A job with the percentage and the temporary usage of its `ginfo`. -/
structure FairJob where
  jinfo : JobInfo
  percentage : ℚ
  tempUsage : ℚ

/-- `atoi(job_id.c_str())`. -/
def FairJob.number (job : FairJob) : ℤ := atoi job.jinfo.jobId.toList

/-- `cur_value`. -/
def FairJob.ratio (job : FairJob) : ℚ := job.percentage / job.tempUsage

/-- `compare_fairshare`; nothing is before or behind a null pointer. -/
def compareFairshare : Option FairJob → Option FairJob → Bool
  | some i, some j =>
      if i.jinfo.state = .running ∧ j.jinfo.state ≠ .running then true
      else if i.jinfo.state ≠ .running ∧ j.jinfo.state = .running then false
      else if i.jinfo.state = .running ∧ j.jinfo.state = .running then i.number < j.number
      else if i.jinfo.state = .queued ∧ j.jinfo.state ≠ .queued then true
      else if i.jinfo.state ≠ .queued ∧ j.jinfo.state = .queued then false
      else if i.jinfo.state ≠ .queued ∧ j.jinfo.state ≠ .queued then i.number < j.number
      else if i.ratio > j.ratio then true
      else if i.ratio = j.ratio then i.number < j.number
      else false
  | _, _ => false

/-- Running jobs, queued jobs and all others. -/
def fairClass : JobState → ℕ
  | .running => 0
  | .queued => 1
  | _ => 2

/-- Running jobs first, then queued jobs by decreasing ratio, then all others, ties by number. -/
def FairBefore (i j : FairJob) : Prop :=
  fairClass i.jinfo.state < fairClass j.jinfo.state ∨
    (fairClass i.jinfo.state = fairClass j.jinfo.state ∧
      ((i.jinfo.state = .queued ∧ j.jinfo.state = .queued ∧ i.ratio > j.ratio) ∨
        ((i.jinfo.state = .queued → j.jinfo.state = .queued → i.ratio = j.ratio) ∧
          i.number < j.number)))

/-- The class of a state. -/
theorem fairClass_cases (state : JobState) :
    (state = .running ∧ fairClass state = 0) ∨ (state = .queued ∧ fairClass state = 1) ∨
      (state ≠ .running ∧ state ≠ .queued ∧ fairClass state = 2) := by
  cases state <;> simp [fairClass]

/-- Two queued jobs. -/
theorem compareFairshare_queued {i j : FairJob} (hi : i.jinfo.state = .queued)
    (hj : j.jinfo.state = .queued) : compareFairshare (some i) (some j) = true ↔
      i.ratio > j.ratio ∨ (i.ratio = j.ratio ∧ i.number < j.number) := by
  by_cases hgt : i.ratio > j.ratio
  · simp [compareFairshare, hi, hj, hgt]
  · by_cases heq : i.ratio = j.ratio
    · simp [compareFairshare, hi, hj, heq]
    · simp [compareFairshare, hi, hj, hgt, heq]

/-- The cascade is this order. -/
theorem compareFairshare_iff (i j : FairJob) :
    compareFairshare (some i) (some j) = true ↔ FairBefore i j := by
  unfold FairBefore
  rcases fairClass_cases i.jinfo.state with ⟨hi, hci⟩ | ⟨hi, hci⟩ | ⟨hi, hi', hci⟩
  · rcases fairClass_cases j.jinfo.state with ⟨hj, hcj⟩ | ⟨hj, hcj⟩ | ⟨hj, hj', hcj⟩
    · simp [compareFairshare, hi, hj, fairClass]
    · simp [compareFairshare, hi, hj, fairClass]
    · simp [compareFairshare, hi, hj, fairClass]
  · rcases fairClass_cases j.jinfo.state with ⟨hj, hcj⟩ | ⟨hj, hcj⟩ | ⟨hj, hj', hcj⟩
    · simp [compareFairshare, hi, hj, fairClass]
    · rw [compareFairshare_queued hi hj]
      simp [hi, hj]
    · simp [compareFairshare, hi, hj, hj', fairClass]
  · rcases fairClass_cases j.jinfo.state with ⟨hj, hcj⟩ | ⟨hj, hcj⟩ | ⟨hj, hj', hcj⟩
    · simp [compareFairshare, hi, hj, fairClass]
    · simp [compareFairshare, hi, hi', hj, fairClass]
    · simp [compareFairshare, hi, hi', hj, hj', hci, hcj]

/-- Where a job stands. -/
def FairJob.rank (job : FairJob) : ℕ ×ₗ ℚ ×ₗ ℤ :=
  toLex (fairClass job.jinfo.state,
    toLex (if job.jinfo.state = .queued then -job.ratio else 0, job.number))

/-- The order is that of the ranks. -/
theorem fairBefore_iff_rank (i j : FairJob) : FairBefore i j ↔ i.rank < j.rank := by
  unfold FairBefore FairJob.rank
  rw [Prod.Lex.toLex_lt_toLex, Prod.Lex.toLex_lt_toLex]
  refine or_congr_right (and_congr_right (fun hclass => ?_))
  by_cases hqueued : i.jinfo.state = .queued
  · have hqueued' : j.jinfo.state = .queued := by
      rcases fairClass_cases j.jinfo.state with ⟨_, hcj⟩ | ⟨hj, _⟩ | ⟨_, _, hcj⟩
      · rw [hqueued, hcj] at hclass
        cases hclass
      · exact hj
      · rw [hqueued, hcj] at hclass
        cases hclass
    rw [if_pos hqueued, if_pos hqueued', neg_lt_neg_iff, neg_inj]
    simp [hqueued, hqueued']
  · have hqueued' : j.jinfo.state ≠ .queued := by
      intro hj
      rcases fairClass_cases i.jinfo.state with ⟨_, hci⟩ | ⟨hi, _⟩ | ⟨_, _, hci⟩
      · rw [hj, hci] at hclass
        cases hclass
      · exact hqueued hi
      · rw [hj, hci] at hclass
        cases hclass
    rw [if_neg hqueued, if_neg hqueued']
    simp [hqueued]

/-! ## Nodes -/

/-- `node_type`. -/
inductive NodeType : Type where
  | timeshared
  | cluster
  | virtual
  | cloud
  deriving DecidableEq, Repr

/-- `MagratheaState`. -/
inductive MagratheaState : Type where
  | none
  | removed
  | down
  | downBootable
  | booting
  | free
  | freeBootable
  | occupiedWouldPreempt
  | occupied
  | runningPreemptible
  | runningPriority
  | running
  | runningCluster
  | preempted
  | frozen
  | downDisappeared
  | shuttingDown
  deriving DecidableEq, Repr

/-- What `operator<` reads of a node; `isVirtualNode` is `p_phys_node != NULL`, which is another
thing than the type. -/
structure SortedNode where
  isVirtualNode : Bool
  availAfter : ℤ
  priority : ℤ
  magratheaStatus : MagratheaState
  type : NodeType
  coresFree : ℤ
  name : String

/-- `get_magrathea_value`. -/
def getMagratheaValue : MagratheaState → ℤ
  | .runningCluster => 0
  | .running | .runningPriority => 1
  | .downBootable => 2
  | .freeBootable => 3
  | .free => 4
  | .runningPreemptible => 5
  | .occupiedWouldPreempt => 6
  | _ => 99

/-- `strcmp`. -/
def strcmp : List Char → List Char → ℤ
  | [], [] => 0
  | [], _ :: _ => -1
  | _ :: _, [] => 1
  | c :: s, d :: t => if c < d then -1 else if c > d then 1 else strcmp s t

/-- The value of `left_magrathea` and `right_magrathea`. -/
def SortedNode.magrathea (node : SortedNode) : ℤ :=
  if node.type ≠ .virtual then -1 else getMagratheaValue node.magratheaStatus

/-- `operator<` from the priorities on. -/
def standardLess (left right : SortedNode) : Bool :=
  if left.priority > right.priority then true
  else if left.priority < right.priority then false
  else if left.magrathea < right.magrathea then true
  else if left.magrathea > right.magrathea then false
  else if left.coresFree < right.coresFree then true
  else if left.coresFree > right.coresFree then false
  else strcmp left.name.toList right.name.toList < 0

/-- `node_info::operator<`. -/
def nodeLess (left right : SortedNode) : Bool :=
  if !left.isVirtualNode && right.isVirtualNode then true
  else if left.isVirtualNode && !right.isVirtualNode then false
  else if left.isVirtualNode && right.isVirtualNode then
    if left.availAfter < right.availAfter then true
    else if left.availAfter > right.availAfter then false
    else standardLess left right
  else standardLess left right

/-- `strcmp` is the order of texts. -/
theorem strcmp_neg_iff (s t : List Char) : strcmp s t < 0 ↔ s < t := by
  induction s generalizing t with
  | nil =>
      cases t with
      | nil => exact iff_of_false (by decide) (lt_irrefl _)
      | cons d t => exact iff_of_true (by rw [strcmp]; decide) (List.nil_lt_cons d t)
  | cons c s ih =>
      cases t with
      | nil => exact iff_of_false (by rw [strcmp]; decide) (List.not_lt_nil _)
      | cons d t =>
          rw [strcmp, List.cons_lt_cons_iff]
          by_cases hlt : c < d
          · rw [if_pos hlt]
            exact iff_of_true (by decide) (Or.inl hlt)
          · rw [if_neg hlt, or_iff_right hlt]
            by_cases hgt : c > d
            · rw [if_pos hgt]
              exact iff_of_false (by decide) (fun h => (ne_of_gt hgt) h.1)
            · rw [if_neg hgt, ih, and_iff_right (le_antisymm (not_lt.mp hgt) (not_lt.mp hlt))]

/-- Where a node stands. -/
def SortedNode.rank (node : SortedNode) : ℕ ×ₗ ℤ ×ₗ ℤ ×ₗ ℤ ×ₗ ℤ ×ₗ List Char :=
  toLex (if node.isVirtualNode then 1 else 0,
    toLex (if node.isVirtualNode then node.availAfter else 0,
      toLex (-node.priority, toLex (node.magrathea, toLex (node.coresFree, node.name.toList)))))

/-- The last part of the cascade. -/
theorem standardLess_iff (left right : SortedNode) : standardLess left right = true ↔
    toLex (-left.priority, toLex (left.magrathea, toLex (left.coresFree, left.name.toList)))
      < toLex (-right.priority,
          toLex (right.magrathea, toLex (right.coresFree, right.name.toList))) := by
  unfold standardLess
  rw [cascade_iff, cascade_iff, cascade_iff, decide_eq_true_iff, strcmp_neg_iff,
    Prod.Lex.toLex_lt_toLex, Prod.Lex.toLex_lt_toLex, Prod.Lex.toLex_lt_toLex, neg_lt_neg_iff,
    neg_inj, eq_comm (a := left.priority)]

/-- The cascade is the order of the ranks. -/
theorem nodeLess_iff (left right : SortedNode) :
    nodeLess left right = true ↔ left.rank < right.rank := by
  unfold nodeLess SortedNode.rank
  rw [Prod.Lex.toLex_lt_toLex, Prod.Lex.toLex_lt_toLex]
  cases hleft : left.isVirtualNode with
  | true =>
      cases hright : right.isVirtualNode with
      | true =>
          show (if left.availAfter < right.availAfter then true
            else if right.availAfter < left.availAfter then false
            else standardLess left right) = true ↔ _
          rw [cascade_iff, standardLess_iff]
          simp
      | false => simp
  | false =>
      cases hright : right.isVirtualNode with
      | true => simp
      | false =>
          simp [standardLess_iff]

/-- Nodes of one rank have one name. -/
theorem name_eq_of_rank_eq {left right : SortedNode} (h : left.rank = right.rank) :
    left.name = right.name := by
  have hname : left.name.toList = right.name.toList :=
    congrArg (fun r => (ofLex (ofLex (ofLex (ofLex (ofLex r).2).2).2).2).2) h
  exact String.toList_injective hname

/-! ## The sorts -/

/-- Jobs by `compare_fairshare`. -/
def FairLess (i j : FairJob) : Prop := compareFairshare (some i) (some j) = true

/-- Nodes by `operator<`. -/
def NodeLess (left right : SortedNode) : Prop := nodeLess left right = true

/-- On jobs with usage `compare_fairshare` is a strict weak order, running jobs first, then queued
jobs by decreasing ratio, then all others; `operator<` is a strict weak order on nodes, and decides
between any two of different names.  So the jobs can be sorted, and nodes of different names in one
way only. -/
theorem planner_orders :
    (StrictWeakOn {job : FairJob | 0 < job.tempUsage} FairLess ∧
      (∀ i j, FairLess i j ↔ FairBefore i j) ∧
      ∀ jobs : List FairJob, (∀ job ∈ jobs, 0 < job.tempUsage) →
        ∃ sorted : List FairJob, sorted.Perm jobs ∧ sorted.Pairwise (fun i j => ¬ FairLess j i)) ∧
    (StrictWeakOn Set.univ NodeLess ∧
      (∀ left right : SortedNode, left.name ≠ right.name →
        NodeLess left right ∨ NodeLess right left) ∧
      ∀ nodes : List SortedNode, nodes.Pairwise (fun left right => left.name ≠ right.name) →
        ∃! sorted : List SortedNode,
          sorted.Perm nodes ∧ sorted.Pairwise (fun left right => ¬ NodeLess right left)) := by
  have hfair : StrictWeakOn {job : FairJob | 0 < job.tempUsage} FairLess :=
    .ofRank FairJob.rank (fun i _ j _ => (compareFairshare_iff i j).trans (fairBefore_iff_rank i j))
  have hnode : StrictWeakOn Set.univ NodeLess :=
    .ofRank SortedNode.rank (fun left _ right _ => nodeLess_iff left right)
  have htotal : ∀ left right : SortedNode, left.name ≠ right.name →
      NodeLess left right ∨ NodeLess right left := by
    intro left right hne
    rcases lt_trichotomy left.rank right.rank with h | h | h
    · exact Or.inl ((nodeLess_iff left right).mpr h)
    · exact absurd (name_eq_of_rank_eq h) hne
    · exact Or.inr ((nodeLess_iff right left).mpr h)
  refine ⟨⟨hfair, compareFairshare_iff, fun jobs hjobs => hfair.exists_sorted hjobs⟩,
    hnode, htotal, ?_⟩
  intro nodes hnames
  obtain ⟨sorted, hperm, hsorted⟩ := hnode.exists_sorted (fun node _ => Set.mem_univ node)
  refine ⟨sorted, ⟨hperm, hsorted⟩, ?_⟩
  rintro sorted' ⟨hperm', hsorted'⟩
  refine sorted_unique (hperm'.trans hperm.symm) (fun a ha b hb hne => ?_) hsorted' hsorted
  have hsymm : Std.Symm (fun left right : SortedNode => left.name ≠ right.name) :=
    ⟨fun _ _ h => h.symm⟩
  exact htotal a b (hnames.forall (hperm'.mem_iff.mp ha) (hperm'.mem_iff.mp hb) hne)

end PlanSched
