/-
# Taking back an attempt of the optimisation

Models `backup_job_order`, `random_job_to_random_position` and `restore_job_order`
(`plan_optimization.cpp`) with the memory of the jobs: an attempt takes a job out, plans
the others, puts it in again somewhere else and plans once more; if the plan is not
better, the job list is rebuilt from the saved array of addresses and the fixed nodes of
the moved job from their copy.

`update_sched` frees a job it cannot place, and the saved array still holds its address.

* `updateSched_keeps`: what `update_sched` leaves of the addresses and fixed nodes;
* `restoreItems_spec`: the list is rebuilt from addresses that are in use;
* `rollback_iff`: an attempt is taken back completely exactly if no call of
  `update_sched` in it fails to place a job.
-/
import PlanSched.Replanning

namespace PlanSched

open CheckedRun

/-! ## Fixed nodes and planning -/

/-- All nodes of the job are fixed. -/
def PlanJob.Complete (job : PlanJob) : Prop := none ∉ job.fixedNnameArr

/-- Taking a CPU leaves fixed nodes alone that were not given up. -/
theorem takeCpu_fixed {cluster : PlanCluster} {slots : List FirstFreeSlot} {job : PlanJob}
    {sel sel' : Selection} {c : ℕ} (h : takeCpu cluster slots job false sel c = .ok sel') :
    sel'.fixedNnameArr = sel.fixedNnameArr := by
  have henter : ∀ ninfo, (enterCpu slots (considerNode job sel c ninfo) c).fixedNnameArr
      = sel.fixedNnameArr := by
    intro ninfo
    unfold enterCpu considerNode
    split <;> rfl
  obtain ⟨slot, hslot⟩ := exists_slot_of_takeCpu h
  rw [takeCpu_eq hslot rfl] at h
  split at h
  · exact ((completeChunk_reset h).fixed_eq rfl).trans (henter slot.ninfo)
  · rw [← Except.ok.inj h]
    exact henter slot.ninfo

/-- So does the choice of all CPUs. -/
theorem selectCpus_fixed {cluster : PlanCluster} {slots : List FirstFreeSlot} {job : PlanJob}
    (fuel : ℕ) {sel sel' : Selection}
    (h : selectCpus cluster slots job false fuel sel = .ok (some sel')) :
    sel'.fixedNnameArr = sel.fixedNnameArr := by
  have hloop := selectCpus_keeps (P := fun next => next.fixedNnameArr = sel.fixedNnameArr)
    (fun hnext _ _ hstep => (takeCpu_fixed hstep).trans hnext) fuel rfl h
  exact hloop.1

/-- The job of the same address and state; if it was pinned, to the same nodes. -/
structure KeepsFixed (job job' : PlanJob) : Prop where
  ptr_eq : job'.ptr = job.ptr
  isQueued_eq : job'.isQueued = job.isQueued
  fixed_eq : (job.isQueued = true → job.Complete) → job'.fixedNnameArr = job.fixedNnameArr

theorem KeepsFixed.refl (job : PlanJob) : KeepsFixed job job := ⟨rfl, rfl, fun _ => rfl⟩

theorem KeepsFixed.trans {job₁ job₂ job₃ : PlanJob} (h : KeepsFixed job₁ job₂)
    (h' : KeepsFixed job₂ job₃) : KeepsFixed job₁ job₃ := by
  refine ⟨h'.ptr_eq.trans h.ptr_eq, h'.isQueued_eq.trans h.isQueued_eq, ?_⟩
  intro hcomplete
  have hfixed := h.fixed_eq hcomplete
  refine (h'.fixed_eq ?_).trans hfixed
  intro hqueued
  unfold PlanJob.Complete
  rw [hfixed]
  exact hcomplete (h.isQueued_eq ▸ hqueued)

/-- Times do not matter. -/
theorem KeepsFixed.startAt {job job' : PlanJob} (h : KeepsFixed job job') (t : ℤ) :
    KeepsFixed job (job'.startAt t) := ⟨h.ptr_eq, h.isQueued_eq, h.fixed_eq⟩

/-- What is kept by the choice is kept after the adjustment. -/
theorem KeepsFixed.adjust {conf : LimitsForClusters} {cluster : PlanCluster}
    {values : LimitsValues} {limits : List PlanLimit} {job placed job' : PlanJob}
    (h : KeepsFixed job placed)
    (hadjust : adjustJobStarttimeAccordingToLimits conf cluster values limits placed = .ok job') :
    KeepsFixed job job' := by
  rcases adjustJob_cases hadjust with rfl | ⟨t, rfl⟩
  · exact h
  · exact h.startAt t

/-- Complete fixed nodes are not given up. -/
theorem wipeFixedNodes_of_complete {job : PlanJob} (h : job.Complete) :
    wipeFixedNodes job = (job.fixedNnameArr, false) := by
  unfold wipeFixedNodes
  rw [if_neg]
  rw [List.contains_iff_mem]
  exact h

/-- The choice of CPUs keeps the fixed nodes. -/
theorem placeShared_keeps {cluster : PlanCluster} {job placed : PlanJob}
    {slots : List FirstFreeSlot} (hqueued : job.isQueued = true)
    (h : placeShared cluster job slots = .ok (some placed)) : KeepsFixed job placed := by
  obtain ⟨avail, sel, -, hselected, rfl⟩ := placeShared_ok h
  refine ⟨rfl, rfl, ?_⟩
  intro hcomplete
  rw [wipeFixedNodes_of_complete (hcomplete hqueued)] at hselected
  exact selectCpus_fixed _ hselected

/-- The choice of whole nodes keeps the fixed nodes. -/
theorem placeExclusive_keeps {cluster : PlanCluster} {job placed : PlanJob}
    {slots claimed : List FirstFreeSlot} (hqueued : job.isQueued = true)
    (h : placeExclusive cluster job slots = .ok (some (placed, claimed))) :
    KeepsFixed job placed := by
  obtain ⟨avail, nodes, startTime, -, -, -, rfl, -⟩ := placeExclusive_ok h
  refine ⟨rfl, rfl, ?_⟩
  intro hcomplete
  dsimp only
  rw [wipeFixedNodes_of_complete (hcomplete hqueued)]

/-- `update_job` keeps the address, the state and the fixed nodes of a queued job. -/
theorem updateJob_keeps {conf : LimitsForClusters} {cluster : PlanCluster} {values : LimitsValues}
    {limits : List PlanLimit} {slots : List FirstFreeSlot} {job : PlanJob} {update : JobUpdate}
    (hqueued : job.isQueued = true)
    (h : updateJob conf cluster values limits slots job = .ok (some update)) :
    KeepsFixed job update.job := by
  rcases updateJob_cases h with ⟨-, placed, adjusted, claimed, hcall⟩ | ⟨-, placed, hcall⟩
  · have hkeeps := (placeExclusive_keeps hqueued hcall.placed_ok).adjust hcall.adjusted_ok
    rw [hcall.job_eq]
    exact ⟨hkeeps.ptr_eq, hkeeps.isQueued_eq, hkeeps.fixed_eq⟩
  · exact (placeShared_keeps hqueued hcall.placed_ok).adjust hcall.adjusted_ok

/-- The second loop of `update_sched` on the jobs: all are kept, or those before the one
that cannot be placed. -/
theorem planJobs_keeps {conf : LimitsForClusters} {cluster : PlanCluster} {values : LimitsValues}
    (jobs : List PlanJob) : ∀ {st : Planning} {ending : PlanningEnd},
      planJobs conf cluster values jobs st = .ok ending →
      (∃ st' planned, ending = .complete st' ∧ st'.done = st.done ++ planned ∧
        List.Forall₂ KeepsFixed jobs planned) ∨
      (∃ st' pre job behind planned, ending = .failed st' behind ∧ jobs = pre ++ job :: behind ∧
        st'.done = st.done ++ planned ∧ List.Forall₂ KeepsFixed pre planned) := by
  induction jobs with
  | nil =>
      intro st ending h
      rw [planJobs] at h
      cases h
      exact Or.inl ⟨st, [], rfl, (List.append_nil _).symm, List.Forall₂.nil⟩
  | cons job rest ih =>
      intro st ending h
      rw [planJobs] at h
      obtain ⟨next, hnext, h⟩ := bind_ok.mp h
      cases next with
      | none =>
          cases pure_ok.mp h
          exact Or.inr ⟨_, [], job, rest, [], rfl, rfl, (List.append_nil _).symm,
            List.Forall₂.nil⟩
      | some st₁ =>
          obtain ⟨job', hdone, hkeeps⟩ : ∃ job', st₁.done = st.done ++ [job'] ∧
              KeepsFixed job job' := by
            have hmoved : KeepsFixed job job.afterMove := by
              rcases afterMove_eq job with heq | ⟨priority, heq⟩ <;> rw [heq]
              · exact KeepsFixed.refl job
              · exact ⟨rfl, rfl, fun _ => rfl⟩
            rcases planJob_cases hnext with ⟨hqueued, update, hplan⟩ | ⟨-, hpass⟩
            · exact ⟨_, hplan.done_eq, hmoved.trans (updateJob_keeps hqueued hplan.update_ok)⟩
            · exact ⟨_, hpass.done_eq, hmoved⟩
          -- the other jobs are all planned, or one of them fails
          rcases ih h with ⟨st', planned, hend, hdone', hall⟩ |
            ⟨st', pre, failed, behind, planned, hend, hsplit, hdone', hall⟩
          · refine Or.inl ⟨st', job' :: planned, hend, ?_, List.Forall₂.cons hkeeps hall⟩
            rw [hdone', hdone, List.append_assoc, List.singleton_append]
          · refine Or.inr ⟨st', job :: pre, failed, behind, job' :: planned, hend, ?_, ?_,
              List.Forall₂.cons hkeeps hall⟩
            · rw [hsplit, List.cons_append]
            · rw [hdone', hdone, List.append_assoc, List.singleton_append]

/-- What a call of `update_sched` leaves of the jobs: each one left was there before, and
if none failed, all are left. -/
structure SchedKeeps (code : ℕ) (jobs jobs' : List PlanJob) : Prop where
  origin : ∀ job' ∈ jobs', ∃ job ∈ jobs, KeepsFixed job job'
  addresses : (jobs'.map PlanJob.ptr).Subperm (jobs.map PlanJob.ptr)
  all_left : code ≠ 2 → jobs'.length = jobs.length
  one_gone : code = 2 → jobs'.length < jobs.length

/-- Kept jobs have their addresses. -/
theorem forall₂_ptr {jobs jobs' : List PlanJob} (h : List.Forall₂ KeepsFixed jobs jobs') :
    jobs'.map PlanJob.ptr = jobs.map PlanJob.ptr := by
  induction h with
  | nil => rfl
  | cons hkeeps _ ih => rw [List.map_cons, List.map_cons, hkeeps.ptr_eq, ih]

/-- Each kept job was there before. -/
theorem forall₂_origin {jobs jobs' : List PlanJob} (h : List.Forall₂ KeepsFixed jobs jobs') :
    ∀ job' ∈ jobs', ∃ job ∈ jobs, KeepsFixed job job' := by
  induction h with
  | nil =>
      intro job' hjob'
      cases hjob'
  | cons hkeeps _ ih =>
      intro job' hjob'
      rcases List.mem_cons.mp hjob' with rfl | hjob'
      · exact ⟨_, List.mem_cons_self, hkeeps⟩
      · obtain ⟨job, hjob, h⟩ := ih job' hjob'
        exact ⟨job, List.mem_cons_of_mem _ hjob, h⟩

/-- `update_sched` on the jobs of a cluster. -/
theorem updateSched_keeps {conf : LimitsForClusters} {time : ℤ} {values : LimitsValues}
    {plan : ClusterPlan} {result : SchedUpdate}
    (h : updateSched conf time values plan = .ok result) :
    SchedKeeps result.code plan.jobs result.plan.jobs := by
  unfold updateSched at h
  obtain ⟨slots, -, h⟩ := bind_ok.mp h
  obtain ⟨values', -, h⟩ := bind_ok.mp h
  obtain ⟨jobs, hjobs, h⟩ := bind_ok.mp h
  obtain ⟨ending, hending, h⟩ := bind_ok.mp h
  -- the preferred jobs come to the front, and nothing but a priority changes
  have hperm := movePreferred_perm (f := fun job => job.setPriority 0) (fun _ _ => rfl) _ hjobs
  rw [List.nil_append] at hperm
  have hptrs : (jobs.map PlanJob.ptr).Perm (plan.jobs.map PlanJob.ptr) := by
    have hmap := hperm.map PlanJob.ptr
    rw [List.map_map, List.map_map] at hmap
    exact hmap
  have horigin : ∀ job' ∈ jobs, ∃ job ∈ plan.jobs, KeepsFixed job job' := by
    intro job' hjob'
    have hmem := hperm.mem_iff.mp (List.mem_map_of_mem hjob')
    obtain ⟨job, hjob, heq⟩ := List.mem_map.mp hmem
    refine ⟨job, hjob, ?_, ?_, ?_⟩
    · exact (congrArg PlanJob.ptr heq).symm
    · exact (congrArg PlanJob.isQueued heq).symm
    · intro _
      exact (congrArg PlanJob.fixedNnameArr heq).symm
  have hthrough : ∀ pre planned, (∀ job ∈ pre, job ∈ jobs) → List.Forall₂ KeepsFixed pre planned →
      ∀ job' ∈ planned, ∃ job ∈ plan.jobs, KeepsFixed job job' := by
    intro pre planned hpre hall job' hjob'
    obtain ⟨mid, hmid, hkeeps⟩ := forall₂_origin hall job' hjob'
    obtain ⟨job, hjob, hkeeps'⟩ := horigin mid (hpre mid hmid)
    exact ⟨job, hjob, hkeeps'.trans hkeeps⟩
  have hlength : jobs.length = plan.jobs.length := by
    have := hptrs.length_eq
    rwa [List.length_map, List.length_map] at this
  -- all jobs were planned, or the one that could not be is missing
  rcases planJobs_keeps jobs hending with ⟨st', planned, rfl, hdone, hall⟩ |
    ⟨st', pre, job, behind, planned, rfl, hsplit, hdone, hall⟩
  · obtain ⟨gaps, -, h⟩ := bind_ok.mp h
    rw [← pure_ok.mp h]
    dsimp only
    rw [hdone, List.nil_append]
    refine ⟨hthrough jobs planned (fun _ hj => hj) hall, ?_, ?_, ?_⟩
    · rw [forall₂_ptr hall]
      exact hptrs.subperm
    · intro _
      rw [← hall.length_eq, hlength]
    · intro hcode
      cases hcode
  · rw [← pure_ok.mp h]
    dsimp only
    rw [hdone, List.nil_append]
    refine ⟨?_, ?_, ?_, ?_⟩
    · intro job' hjob'
      rcases List.mem_append.mp hjob' with hjob' | hjob'
      · exact hthrough pre planned (fun j hj => by simp [hsplit, hj]) hall job' hjob'
      · exact horigin job' (by simp [hsplit, hjob'])
    · refine List.Subperm.trans ?_ hptrs.subperm
      rw [hsplit, List.map_append, List.map_append, List.map_cons, forall₂_ptr hall]
      exact ((List.sublist_cons_self _ _).append_left _).subperm
    · intro hcode
      exact absurd rfl hcode
    · intro _
      rw [← hlength, hsplit, List.length_append, List.length_append, List.length_cons,
        hall.length_eq]
      omega

/-! ## The job list in memory -/

/-- What a `plan_job` in memory holds of interest here. -/
structure JobCell where
  predeccessor : Option ℕ
  successor : Option ℕ
  fixedNnameArr : List (Option String)
  fixedNnameArrBackup : Option (List (Option String))

/-- The memory of the jobs; `none` where there is no job, or none any more. -/
abbrev JobHeap : Type := ℕ → Option JobCell

/-- The head of a `plan_list`. -/
structure PlanList where
  numItems : ℕ
  first : Option ℕ
  last : Option ℕ
  current : Option ℕ

/-- Change a job in memory. -/
def JobHeap.write (heap : JobHeap) (item : ℕ) (f : JobCell → JobCell) : Run JobHeap := do
  let cell ← deref (heap item)
  return Function.update heap item (some (f cell))

/-- `set_successor`; nothing is done for `NULL`. -/
def setSuccessor (heap : JobHeap) (item successor : Option ℕ) : Run JobHeap :=
  match item with
  | none => .ok heap
  | some item => heap.write item (fun cell => { cell with successor := successor })

/-- `set_predeccessor`; nothing is done for `NULL`. -/
def setPredeccessor (heap : JobHeap) (item predeccessor : Option ℕ) : Run JobHeap :=
  match item with
  | none => .ok heap
  | some item => heap.write item (fun cell => { cell with predeccessor := predeccessor })

/-- `job_restore_fixnodes` on one job: the copy takes the place of the fixed nodes. -/
def JobCell.restoreFixnodes (cell : JobCell) : JobCell :=
  match cell.fixedNnameArrBackup with
  | none => cell
  | some backup => { cell with fixedNnameArr := backup, fixedNnameArrBackup := none }

/-- The links of one item of `restore_job_order`; the first one is entered while the list
is empty. -/
def linkItem (list : PlanList) (heap : JobHeap) (item : ℕ) : Run JobHeap :=
  if list.numItems = 0 then do
    let heap ← setPredeccessor heap (some item) none
    setSuccessor heap (some item) none
  else do
    let heap ← setSuccessor heap list.last (some item)
    let heap ← setPredeccessor heap (some item) list.last
    setSuccessor heap (some item) none

/-- The rebuilt list with one more item. -/
def PlanList.extend (list : PlanList) (item : ℕ) : PlanList :=
  { list with
    numItems := list.numItems + 1
    first := if list.numItems = 0 then some item else list.first
    last := some item }

/-- The loop of `restore_job_order`. -/
def restoreItems : List ℕ → PlanList → JobHeap → Run (PlanList × JobHeap)
  | [], list, heap => .ok (list, heap)
  | item :: backup, list, heap => do
      let heap ← linkItem list heap item
      let heap ← heap.write item JobCell.restoreFixnodes
      restoreItems backup (list.extend item) heap

/-- `restore_job_order` on the list of one cluster; `backup` is `none` for `NULL`. -/
def restoreJobList (backup : Option (List ℕ)) (list : PlanList) (heap : JobHeap) :
    Run (PlanList × JobHeap) :=
  match backup with
  | none => .ok (list, heap)
  | some backup =>
      if list.numItems = 0 then .ok (list, heap)
      else restoreItems backup ⟨0, none, none, none⟩ heap

/-- `backup_job_order` follows the list from the first job on. -/
def backupItems (heap : JobHeap) : ℕ → Option ℕ → Run (List ℕ)
  | 0, _ => .ok []
  | n + 1, current => do
      let item ← deref current
      let cell ← deref (heap item)
      let rest ← backupItems heap n cell.successor
      return item :: rest

/-- `backup_job_order`; `NULL` for an empty list. -/
def backupJobOrder (list : PlanList) (heap : JobHeap) : Run (Option (List ℕ)) :=
  if list.numItems = 0 then .ok none
  else do
    let backup ← backupItems heap list.numItems list.first
    return some backup

/-- The list is well formed and holds the jobs at `items` in that order. -/
structure ListOf (heap : JobHeap) (list : PlanList) (items : List ℕ) : Prop where
  numItems : list.numItems = items.length
  first : list.first = items.head?
  last : list.last = items.getLast?
  nodup : items.Nodup
  links : ∀ pre item post, items = pre ++ item :: post → ∃ cell, heap item = some cell ∧
    cell.predeccessor = pre.getLast? ∧ cell.successor = post.head?

/-- Writing needs a job, and changes only that one. -/
theorem JobHeap.write_ok {heap heap' : JobHeap} {item : ℕ} {f : JobCell → JobCell} :
    heap.write item f = .ok heap' ↔
      ∃ cell, heap item = some cell ∧ heap' = Function.update heap item (some (f cell)) := by
  unfold JobHeap.write
  rw [bind_ok]
  constructor
  · rintro ⟨cell, hcell, h⟩
    exact ⟨cell, deref_ok.mp hcell, (pure_ok.mp h).symm⟩
  · rintro ⟨cell, hcell, rfl⟩
    exact ⟨cell, deref_ok.mpr hcell, rfl⟩

/-- `backup_job_order` reads the jobs of a well-formed list. -/
theorem backupItems_eq {heap : JobHeap} {list : PlanList} {items : List ℕ}
    (h : ListOf heap list items) (rest : List ℕ) :
    ∀ pre, items = pre ++ rest → backupItems heap rest.length rest.head? = .ok rest := by
  induction rest with
  | nil =>
      intro pre _
      rfl
  | cons item rest ih =>
      intro pre hsplit
      obtain ⟨cell, hcell, -, hsucc⟩ := h.links pre item rest hsplit
      have hnext := ih (pre ++ [item]) (by rw [hsplit, List.append_assoc, List.singleton_append])
      rw [List.length_cons, List.head?_cons, backupItems]
      refine bind_ok.mpr ⟨item, rfl, bind_ok.mpr ⟨cell, ?_, bind_ok.mpr ⟨rest, ?_, rfl⟩⟩⟩
      · rw [hcell]
        rfl
      · rw [hsucc]
        exact hnext

/-- `backup_job_order` on a well-formed list. -/
theorem backupJobOrder_eq {heap : JobHeap} {list : PlanList} {items : List ℕ}
    (h : ListOf heap list items) :
    backupJobOrder list heap = .ok (if items = [] then none else some items) := by
  unfold backupJobOrder
  rw [h.numItems, h.first]
  cases items with
  | nil => rfl
  | cons item items =>
      rw [if_neg (by simp), if_neg (by simp)]
      exact bind_ok.mpr ⟨_, backupItems_eq h _ [] rfl, rfl⟩

/-! ## Rebuilding the list -/

/-- What a job's fixed nodes are after they were restored. -/
def JobCell.restored (cell : JobCell) : List (Option String) :=
  cell.fixedNnameArrBackup.getD cell.fixedNnameArr

theorem JobCell.restoreFixnodes_spec (cell : JobCell) :
    cell.restoreFixnodes.fixedNnameArr = cell.restored ∧
      cell.restoreFixnodes.predeccessor = cell.predeccessor ∧
      cell.restoreFixnodes.successor = cell.successor := by
  unfold JobCell.restoreFixnodes JobCell.restored
  split
  · next hnone =>
      rw [hnone]
      exact ⟨rfl, rfl, rfl⟩
  · next backup hsome =>
      rw [hsome]
      exact ⟨rfl, rfl, rfl⟩

/-- The fixed nodes of jobs are left alone by the links. -/
def SameFixed (cell cell' : JobCell) : Prop :=
  cell'.fixedNnameArr = cell.fixedNnameArr ∧
    cell'.fixedNnameArrBackup = cell.fixedNnameArrBackup

/-- The two ways to split a list with one more item at its end. -/
theorem split_concat {done : List ℕ} {item x : ℕ} {pre post : List ℕ}
    (h : done ++ [item] = pre ++ x :: post) :
    (pre = done ∧ x = item ∧ post = []) ∨
      ∃ post', post = post' ++ [item] ∧ done = pre ++ x :: post' := by
  rcases List.eq_nil_or_concat' post with rfl | ⟨post', last, rfl⟩
  · obtain ⟨hpre, hx⟩ := List.append_inj' h rfl
    exact Or.inl ⟨hpre.symm, (List.cons.inj hx).1.symm, rfl⟩
  · rw [← List.cons_append, ← List.append_assoc] at h
    obtain ⟨hdone, hlast⟩ := List.append_inj' h rfl
    refine Or.inr ⟨post', ?_, hdone⟩
    rw [(List.cons.inj hlast).1]

/-- The first item of the rebuilt list. -/
theorem linkItem_first {list : PlanList} {heap : JobHeap} {item : ℕ} {cell : JobCell}
    (h : list.numItems = 0) (hcell : heap item = some cell) :
    linkItem list heap item = .ok (Function.update heap item
      (some { cell with predeccessor := none, successor := none })) := by
  unfold linkItem
  rw [if_pos h]
  refine bind_ok.mpr ⟨_, JobHeap.write_ok.mpr ⟨cell, hcell, rfl⟩, ?_⟩
  refine JobHeap.write_ok.mpr ⟨_, Function.update_self _ _ _, ?_⟩
  rw [Function.update_idem]

/-- A further item of the rebuilt list. -/
theorem linkItem_next {list : PlanList} {heap : JobHeap} {item last : ℕ} {cell cellLast : JobCell}
    (h : list.numItems ≠ 0) (hlast : list.last = some last) (hne : last ≠ item)
    (hcellLast : heap last = some cellLast) (hcell : heap item = some cell) :
    linkItem list heap item = .ok (Function.update
      (Function.update heap last (some { cellLast with successor := some item })) item
      (some { cell with predeccessor := some last, successor := none })) := by
  unfold linkItem
  rw [if_neg h, hlast]
  refine bind_ok.mpr ⟨_, JobHeap.write_ok.mpr ⟨cellLast, hcellLast, rfl⟩, ?_⟩
  refine bind_ok.mpr ⟨_, JobHeap.write_ok.mpr ⟨cell, ?_, rfl⟩, ?_⟩
  · rw [Function.update_of_ne hne.symm]
    exact hcell
  · refine JobHeap.write_ok.mpr ⟨_, Function.update_self _ _ _, ?_⟩
    rw [Function.update_idem]

/-- One item is appended to the rebuilt list. -/
theorem linkItem_spec {list : PlanList} {heap : JobHeap} {done : List ℕ} {item : ℕ}
    {cell : JobCell} (h : ListOf heap list done) (hnew : item ∉ done)
    (hcell : heap item = some cell) :
    ∃ heap', linkItem list heap item = .ok heap' ∧
      ListOf heap' (list.extend item) (done ++ [item]) ∧
      (∀ p c, heap p = some c → ∃ c', heap' p = some c' ∧ SameFixed c c') := by
  have hnodup : (done ++ [item]).Nodup := by
    rw [← List.concat_eq_append]
    exact h.nodup.concat hnew
  -- the item is the first one, or it is linked behind the last one
  rcases List.eq_nil_or_concat' done with rfl | ⟨init, last, rfl⟩
  · refine ⟨_, linkItem_first h.numItems hcell, ⟨?_, ?_, rfl, hnodup, ?_⟩, ?_⟩
    · rw [PlanList.extend, h.numItems]
      rfl
    · rw [PlanList.extend, h.numItems]
      rfl
    · intro pre x post hsplit
      rcases split_concat hsplit with ⟨rfl, rfl, rfl⟩ | ⟨post', -, hdone⟩
      · exact ⟨_, Function.update_self _ _ _, rfl, rfl⟩
      · simp at hdone
    · intro p c hc
      by_cases hp : p = item
      · subst hp
        rw [hcell] at hc
        cases hc
        exact ⟨_, Function.update_self _ _ _, rfl, rfl⟩
      · exact ⟨c, by rw [Function.update_of_ne hp]; exact hc, rfl, rfl⟩
  · have hpos : list.numItems ≠ 0 := by
      rw [h.numItems]
      simp
    have hlast : list.last = some last := by
      rw [h.last]
      simp
    have hne : last ≠ item := by
      rintro rfl
      exact hnew (by simp)
    -- the cell of the last item gets a successor
    obtain ⟨cellLast, hcellLast, hpredLast, -⟩ := h.links init last [] (by simp)
    refine ⟨_, linkItem_next hpos hlast hne hcellLast hcell, ⟨?_, ?_, ?_, hnodup, ?_⟩, ?_⟩
    · rw [PlanList.extend, h.numItems]
      simp
    · rw [PlanList.extend, if_neg hpos, h.first]
      simp
    · simp [PlanList.extend]
    · intro pre x post hsplit
      rcases split_concat hsplit with ⟨rfl, rfl, rfl⟩ | ⟨post', rfl, hdone⟩
      · exact ⟨_, Function.update_self _ _ _, by simp, rfl⟩
      · have hx : x ≠ item := by
          rintro rfl
          exact hnew (by rw [hdone]; simp)
        rw [Function.update_of_ne hx]
        obtain ⟨cell', hcell', hpred, hsucc⟩ := h.links pre x post' hdone
        rcases split_concat hdone with ⟨rfl, rfl, rfl⟩ | ⟨post'', rfl, hinit⟩
        · -- the item before the new one
          rw [hcellLast] at hcell'
          cases hcell'
          exact ⟨_, Function.update_self _ _ _, hpred, rfl⟩
        · have hxl : x ≠ last := by
            rintro rfl
            have hn := h.nodup
            rw [hinit, List.nodup_append] at hn
            exact hn.2.2 x (by simp) x (by simp) rfl
          rw [Function.update_of_ne hxl]
          refine ⟨cell', hcell', hpred, ?_⟩
          rw [hsucc]
          exact (List.head?_append_of_ne_nil (post'' ++ [last]) (by simp)).symm
    · intro p c hc
      by_cases hp : p = item
      · subst hp
        rw [hcell] at hc
        cases hc
        exact ⟨_, Function.update_self _ _ _, rfl, rfl⟩
      · rw [Function.update_of_ne hp]
        by_cases hpl : p = last
        · subst hpl
          rw [hcellLast] at hc
          cases hc
          exact ⟨_, Function.update_self _ _ _, rfl, rfl⟩
        · exact ⟨c, by rw [Function.update_of_ne hpl]; exact hc, rfl, rfl⟩

/-- Restoring the fixed nodes does not touch the list. -/
theorem ListOf.restoreFixnodes {heap : JobHeap} {list : PlanList} {items : List ℕ} {item : ℕ}
    {cell : JobCell} (h : ListOf heap list items) (hcell : heap item = some cell) :
    ListOf (Function.update heap item (some cell.restoreFixnodes)) list items := by
  refine ⟨h.numItems, h.first, h.last, h.nodup, ?_⟩
  intro pre x post hsplit
  obtain ⟨cell', hcell', hpred, hsucc⟩ := h.links pre x post hsplit
  by_cases hx : x = item
  · subst hx
    rw [hcell] at hcell'
    cases hcell'
    obtain ⟨-, hpred', hsucc'⟩ := cell.restoreFixnodes_spec
    exact ⟨_, Function.update_self _ _ _, hpred'.trans hpred, hsucc'.trans hsucc⟩
  · exact ⟨cell', by rw [Function.update_of_ne hx]; exact hcell', hpred, hsucc⟩

/-- The list is rebuilt from addresses of jobs: in order, and with their fixed nodes
restored. -/
theorem restoreItems_spec (rest : List ℕ) :
    ∀ {done : List ℕ} {list : PlanList} {heap : JobHeap}, ListOf heap list done →
      (done ++ rest).Nodup → (∀ p ∈ rest, ∃ cell, heap p = some cell) →
      ∃ list' heap', restoreItems rest list heap = .ok (list', heap') ∧
        ListOf heap' list' (done ++ rest) ∧
        (∀ p ∈ rest, ∀ cell, heap p = some cell →
          ∃ cell', heap' p = some cell' ∧ cell'.fixedNnameArr = cell.restored) ∧
        ∀ p, p ∉ rest → ∀ cell, heap p = some cell → ∃ cell', heap' p = some cell' ∧
          SameFixed cell cell' := by
  induction rest with
  | nil =>
      intro done list heap h _ _
      refine ⟨list, heap, rfl, ?_, ?_, ?_⟩
      · rw [List.append_nil]
        exact h
      · intro p hp
        cases hp
      · intro p _ cell hcell
        exact ⟨cell, hcell, rfl, rfl⟩
  | cons item rest ih =>
      intro done list heap h hnodup hlive
      have happend : done ++ item :: rest = (done ++ [item]) ++ rest := by simp
      rw [happend] at hnodup ⊢
      have hnew : item ∉ done := by
        have hdone := (List.nodup_append.mp hnodup).1
        intro hmem
        exact (List.nodup_append.mp hdone).2.2 item hmem item (by simp) rfl
      have hitem : item ∉ rest := by
        intro hmem
        exact (List.nodup_append.mp hnodup).2.2 item (by simp) item hmem rfl
      obtain ⟨cell, hcell⟩ := hlive item List.mem_cons_self
      obtain ⟨heap₁, hlink, hlist, hsame⟩ := linkItem_spec h hnew hcell
      obtain ⟨cell₁, hcell₁, hfixed₁⟩ := hsame item cell hcell
      -- the jobs to come are still there when this one was linked and restored
      have hlive₁ : ∀ p ∈ rest, ∃ c, Function.update heap₁ item (some cell₁.restoreFixnodes) p
          = some c := by
        intro p hp
        have hne : p ≠ item := by
          rintro rfl
          exact hitem hp
        obtain ⟨c, hc⟩ := hlive p (List.mem_cons_of_mem _ hp)
        obtain ⟨c', hc', -⟩ := hsame p c hc
        exact ⟨c', by rw [Function.update_of_ne hne]; exact hc'⟩
      obtain ⟨list', heap', hrun, hlist', hrest, hother⟩ :=
        ih (hlist.restoreFixnodes hcell₁) hnodup hlive₁
      refine ⟨list', heap', ?_, hlist', ?_, ?_⟩
      · rw [restoreItems]
        refine bind_ok.mpr ⟨heap₁, hlink, bind_ok.mpr ⟨_, ?_, hrun⟩⟩
        exact JobHeap.write_ok.mpr ⟨cell₁, hcell₁, rfl⟩
      · intro p hp c hc
        rcases List.mem_cons.mp hp with rfl | hp'
        · rw [hcell] at hc
          cases hc
          obtain ⟨cell', hcell', hfixed', -⟩ := hother p hitem _ (Function.update_self _ _ _)
          refine ⟨cell', hcell', ?_⟩
          rw [hfixed', (cell₁.restoreFixnodes_spec).1]
          unfold JobCell.restored
          rw [hfixed₁.1, hfixed₁.2]
        · have hne : p ≠ item := by
            rintro rfl
            exact hitem hp'
          obtain ⟨c', hc', hfixed'⟩ := hsame p c hc
          obtain ⟨cell', hcell', hrestored⟩ := hrest p hp' c'
            (by rw [Function.update_of_ne hne]; exact hc')
          refine ⟨cell', hcell', ?_⟩
          rw [hrestored]
          unfold JobCell.restored
          rw [hfixed'.1, hfixed'.2]
      · intro p hp c hc
        rw [List.mem_cons, not_or] at hp
        obtain ⟨c', hc', hfixed'⟩ := hsame p c hc
        obtain ⟨cell', hcell', hfixed''⟩ := hother p hp.2 c'
          (by rw [Function.update_of_ne hp.1]; exact hc')
        exact ⟨cell', hcell', hfixed''.1.trans hfixed'.1, hfixed''.2.trans hfixed'.2⟩

/-- Linking an item neither frees nor makes a job. -/
theorem write_live {heap heap' : JobHeap} {item : ℕ} {f : JobCell → JobCell}
    (h : heap.write item f = .ok heap') :
    (heap item).isSome ∧ ∀ p, (heap' p).isSome = (heap p).isSome := by
  obtain ⟨cell, hcell, rfl⟩ := JobHeap.write_ok.mp h
  refine ⟨by rw [hcell]; rfl, ?_⟩
  intro p
  by_cases hp : p = item
  · subst hp
    rw [Function.update_self, hcell]
    rfl
  · rw [Function.update_of_ne hp]

/-- Nor does setting a link. -/
theorem setSuccessor_live {heap heap' : JobHeap} {item successor : Option ℕ}
    (h : setSuccessor heap item successor = .ok heap') :
    ∀ p, (heap' p).isSome = (heap p).isSome := by
  cases item with
  | none =>
      cases h
      exact fun p => rfl
  | some item => exact (write_live h).2

/-- The list is not rebuilt from an address where there is no job. -/
theorem restoreItems_live (rest : List ℕ) :
    ∀ {list list' : PlanList} {heap heap' : JobHeap},
      restoreItems rest list heap = .ok (list', heap') → ∀ p ∈ rest, (heap p).isSome := by
  induction rest with
  | nil =>
      intro list list' heap heap' _ p hp
      cases hp
  | cons item rest ih =>
      intro list list' heap heap' h p hp
      rw [restoreItems] at h
      obtain ⟨heap₁, hlink, h⟩ := bind_ok.mp h
      obtain ⟨heap₂, hwrite, h⟩ := bind_ok.mp h
      have hlinked : ∀ q, (heap₁ q).isSome = (heap q).isSome := by
        unfold linkItem at hlink
        split at hlink
        · obtain ⟨mid, hmid, hlink⟩ := bind_ok.mp hlink
          intro q
          rw [setSuccessor_live hlink, (write_live hmid).2]
        · obtain ⟨mid, hmid, hlink⟩ := bind_ok.mp hlink
          obtain ⟨mid', hmid', hlink⟩ := bind_ok.mp hlink
          intro q
          rw [setSuccessor_live hlink, (write_live hmid').2, setSuccessor_live hmid]
      rcases List.mem_cons.mp hp with rfl | hp
      · rw [← hlinked]
        exact (write_live hwrite).1
      · rw [← hlinked, ← (write_live hwrite).2]
        exact ih h p hp

/-! ## The attempt -/

/-- `list_get_random_item`: the position drawn, none for `NULL`. -/
def listGetRandomItem (jobs : List PlanJob) (countLimit : ℤ) (rand : ℕ) : Run (Option ℕ) :=
  if (jobs.length : ℤ) < countLimit then .ok none
  else if jobs.length = 0 then .error .divByZero
  else .ok (some (rand % jobs.length))

/-- `do ... while` around `list_get_random_item`, on the numbers `rand()` will give. -/
def drawItem (jobs : List PlanJob) (countLimit : ℤ) (again : Option PlanJob → Bool) :
    List ℕ → Run (Option ℕ × List ℕ)
  | [] => .error .outOfSteps
  | rand :: rands => do
      let position ← listGetRandomItem jobs countLimit rand
      if again (position.bind (fun i => jobs[i]?)) then drawItem jobs countLimit again rands
      else return (position, rands)

/-- A job that was taken out: with its fixed nodes, which are its copy from now on, the
job in front of it, and what is left of the schedule and the random numbers. -/
structure TakenJob where
  job : PlanJob
  predeccessor : Option ℕ
  schedule : Schedule
  rands : List ℕ

/-- Draw a queued job, copy its fixed nodes and take it out. -/
def takeRandomJob (optimMinimalQueued : ℤ) (k : ℕ) (rands : List ℕ) (schedule : Schedule) :
    Run TakenJob := do
  let plan ← getAt schedule.clusters k
  let (drawn, rands) ← drawItem plan.jobs optimMinimalQueued
    (fun job => match job with
      | none => true
      | some job => !job.isQueued) rands
  let position ← deref drawn
  let (job, left) ← takeOutJob schedule ⟨k, position, none, false⟩
  return ⟨job, (plan.jobs.take position).getLast?.map PlanJob.ptr, left, rands⟩

/-- Draw another place than the old one and put the job there. -/
def putAtRandomPosition (optimMinimalQueued : ℤ) (k : ℕ) (taken : TakenJob)
    (schedule : Schedule) : Run Schedule := do
  let plan ← getAt schedule.clusters k
  let (behind, _) ← drawItem plan.jobs (optimMinimalQueued - 1)
    (fun job => job.map PlanJob.ptr == taken.predeccessor) taken.rands
  putJobBehind schedule ⟨k, 0, behind, false⟩ taken.job

/-- `random_job_to_random_position`: the job it moved, none if there were too few, and
the schedule. -/
def randomJobToRandomPosition (conf : LimitsForClusters) (time optimMinimalQueued : ℤ) (k : ℕ)
    (rands : List ℕ) (schedule : Schedule) : Run (Option PlanJob × Schedule) := do
  let plan ← getAt schedule.clusters k
  if (plan.cluster.numQueuedJobs : ℤ) < optimMinimalQueued then return (none, schedule)
  else do
    let taken ← takeRandomJob optimMinimalQueued k rands schedule
    let schedule ← updateWithRetry conf time k taken.schedule
    let schedule ← putAtRandomPosition optimMinimalQueued k taken schedule
    let schedule ← updateWithRetry conf time k schedule
    return (some taken.job, schedule)

/-! ## The jobs of a cluster in memory -/

/-- The jobs in memory, behind the job at `prev`.  Only the moved job has a copy of its
fixed nodes: those of earlier attempts were freed. -/
def heapFrom (moved : Option PlanJob) : Option ℕ → List PlanJob → JobHeap
  | _, [] => fun _ => none
  | prev, job :: rest =>
      Function.update (heapFrom moved (some job.ptr) rest) job.ptr (some
        { predeccessor := prev
          successor := (rest.map PlanJob.ptr).head?
          fixedNnameArr := job.fixedNnameArr
          fixedNnameArrBackup :=
            (moved.filter (fun m => m.ptr == job.ptr)).map PlanJob.fixedNnameArr })

/-- The head of the list of these jobs. -/
def listHead (jobs : List PlanJob) : PlanList where
  numItems := jobs.length
  first := (jobs.map PlanJob.ptr).head?
  last := (jobs.map PlanJob.ptr).getLast?
  current := none

/-- `backup_job_order` before the attempt, `restore_job_order` after it. -/
def restoreAfter (jobs : List PlanJob) (moved : Option PlanJob) (jobs' : List PlanJob) :
    Run (PlanList × JobHeap) := do
  let backup ← backupJobOrder (listHead jobs) (heapFrom none none jobs)
  restoreJobList backup (listHead jobs') (heapFrom moved none jobs')

/-- The attempt is taken back: the list is well formed, holds the jobs it held in their
order, and each has its fixed nodes. -/
def RolledBack (jobs : List PlanJob) (moved : Option PlanJob) (jobs' : List PlanJob) : Prop :=
  ∃ list heap, restoreAfter jobs moved jobs' = .ok (list, heap) ∧
    ListOf heap list (jobs.map PlanJob.ptr) ∧
    ∀ job ∈ jobs, ∃ cell, heap job.ptr = some cell ∧ cell.fixedNnameArr = job.fixedNnameArr

/-- `update_sched` places all jobs of cluster `k`. -/
def Places (conf : LimitsForClusters) (time : ℤ) (k : ℕ) (schedule : Schedule) : Prop :=
  ∀ code schedule', updateSchedAt conf time k schedule = .ok (code, schedule') → code ≠ 2

/-- No call of `update_sched` in the attempt fails to place a job. -/
def AttemptPlaces (conf : LimitsForClusters) (time optimMinimalQueued : ℤ) (k : ℕ)
    (rands : List ℕ) (schedule : Schedule) : Prop :=
  ∀ plan taken, schedule.clusters[k]? = some plan →
    optimMinimalQueued ≤ (plan.cluster.numQueuedJobs : ℤ) →
    takeRandomJob optimMinimalQueued k rands schedule = .ok taken →
    Places conf time k taken.schedule ∧
    ∀ code planned entered,
      updateSchedAt conf time k taken.schedule = .ok (code, planned) →
      putAtRandomPosition optimMinimalQueued k taken planned = .ok entered →
      Places conf time k entered

/-- The address of a job in the middle of the list. -/
theorem heapFrom_split {moved : Option PlanJob} {job : PlanJob} {post : List PlanJob}
    (pre : List PlanJob) : ∀ {prev : Option ℕ},
      ((pre ++ job :: post).map PlanJob.ptr).Nodup →
      heapFrom moved prev (pre ++ job :: post) job.ptr = some
        { predeccessor := ((pre.map PlanJob.ptr).getLast?).or prev
          successor := (post.map PlanJob.ptr).head?
          fixedNnameArr := job.fixedNnameArr
          fixedNnameArrBackup :=
            (moved.filter (fun m => m.ptr == job.ptr)).map PlanJob.fixedNnameArr } := by
  induction pre with
  | nil =>
      intro prev _
      exact Function.update_self _ _ _
  | cons head pre ih =>
      intro prev hnodup
      rw [List.cons_append, List.map_cons, List.nodup_cons] at hnodup
      have hne : job.ptr ≠ head.ptr := by
        intro heq
        apply hnodup.1
        rw [← heq]
        exact List.mem_map_of_mem (by simp)
      rw [List.cons_append, heapFrom, Function.update_of_ne hne, ih hnodup.2]
      cases hlast : (pre.map PlanJob.ptr).getLast? with
      | none =>
          rw [List.getLast?_eq_none_iff] at hlast
          rw [List.map_cons, hlast]
          rfl
      | some last =>
          rw [List.map_cons, List.getLast?_cons, hlast]
          rfl

/-- There is a job in memory for each job of the list, and no other. -/
theorem heapFrom_live {moved : Option PlanJob} (jobs : List PlanJob) :
    ∀ {prev : Option ℕ} {p : ℕ},
      (heapFrom moved prev jobs p).isSome ↔ p ∈ jobs.map PlanJob.ptr := by
  induction jobs with
  | nil =>
      intro prev p
      simp [heapFrom]
  | cons job rest ih =>
      intro prev p
      rw [heapFrom, List.map_cons, List.mem_cons]
      by_cases hp : p = job.ptr
      · subst hp
        simp
      · rw [Function.update_of_ne hp, ih]
        simp [hp]

/-- The jobs in memory form the list. -/
theorem heapFrom_listOf {moved : Option PlanJob} {jobs : List PlanJob}
    (h : (jobs.map PlanJob.ptr).Nodup) :
    ListOf (heapFrom moved none jobs) (listHead jobs) (jobs.map PlanJob.ptr) := by
  refine ⟨(List.length_map _).symm, rfl, rfl, h, ?_⟩
  intro pre item post hsplit
  obtain ⟨pre, rest, rfl, rfl, hrest⟩ := List.map_eq_append_iff.mp hsplit
  obtain ⟨job, post, rfl, rfl, rfl⟩ := List.map_eq_cons_iff.mp hrest
  refine ⟨_, heapFrom_split pre h, ?_, rfl⟩
  exact Option.or_none

/-! ## What the attempt leaves -/

variable {conf : LimitsForClusters} {time optimMinimalQueued : ℤ} {k : ℕ}

/-- The jobs left were there before, each once. -/
structure JobsKept (jobs jobs' : List PlanJob) : Prop where
  origin : ∀ job' ∈ jobs', ∃ job ∈ jobs, KeepsFixed job job'
  addresses : (jobs'.map PlanJob.ptr).Subperm (jobs.map PlanJob.ptr)

theorem JobsKept.trans {jobs₁ jobs₂ jobs₃ : List PlanJob} (h : JobsKept jobs₁ jobs₂)
    (h' : JobsKept jobs₂ jobs₃) : JobsKept jobs₁ jobs₃ := by
  refine ⟨?_, h'.addresses.trans h.addresses⟩
  intro job₃ hjob₃
  obtain ⟨job₂, hjob₂, hkeeps'⟩ := h'.origin job₃ hjob₃
  obtain ⟨job₁, hjob₁, hkeeps⟩ := h.origin job₂ hjob₂
  exact ⟨job₁, hjob₁, hkeeps.trans hkeeps'⟩

theorem JobsKept.length_le {jobs jobs' : List PlanJob} (h : JobsKept jobs jobs') :
    jobs'.length ≤ jobs.length := by
  have := h.addresses.length_le
  rwa [List.length_map, List.length_map] at this

/-- One call of `update_sched`. -/
theorem updateSchedAt_kept {code : ℕ} {schedule schedule' : Schedule}
    (h : updateSchedAt conf time k schedule = .ok (code, schedule')) :
    ∃ plan plan', schedule.clusters[k]? = some plan ∧ schedule'.clusters[k]? = some plan' ∧
      JobsKept plan.jobs plan'.jobs ∧ (code ≠ 2 → plan'.jobs.length = plan.jobs.length) ∧
      (code = 2 → plan'.jobs.length < plan.jobs.length) := by
  obtain ⟨plan, result, hplan, hresult, rfl, rfl⟩ := updateSchedAt_spec h
  obtain ⟨hlt, -⟩ := List.getElem?_eq_some_iff.mp hplan
  have hkeeps := updateSched_keeps hresult
  exact ⟨plan, result.plan, hplan, List.getElem?_set_self hlt, ⟨hkeeps.origin, hkeeps.addresses⟩,
    hkeeps.all_left, hkeeps.one_gone⟩

/-- A call of `update_sched` and its repetition after a failure: all jobs are left if the
first call fails at none, and fewer otherwise. -/
theorem updateWithRetry_kept {schedule schedule' : Schedule}
    (h : updateWithRetry conf time k schedule = .ok schedule') :
    ∃ plan plan', schedule.clusters[k]? = some plan ∧ schedule'.clusters[k]? = some plan' ∧
      JobsKept plan.jobs plan'.jobs ∧
      (Places conf time k schedule → plan'.jobs.length = plan.jobs.length ∧
        ∃ code, updateSchedAt conf time k schedule = .ok (code, schedule')) ∧
      (¬ Places conf time k schedule → plan'.jobs.length < plan.jobs.length) := by
  unfold updateWithRetry at h
  obtain ⟨⟨code, mid⟩, hcall, h⟩ := bind_ok.mp h
  obtain ⟨plan, plan₁, hplan, hplan₁, hkept, hall, hgone⟩ := updateSchedAt_kept hcall
  dsimp only at h
  split at h
  · next hcode =>
      obtain ⟨⟨code', last⟩, hcall', h⟩ := bind_ok.mp h
      obtain rfl := pure_ok.mp h
      obtain ⟨plan₁', plan₂, hplan₁', hplan₂, hkept', -, -⟩ := updateSchedAt_kept hcall'
      obtain rfl := Option.some.inj (hplan₁.symm.trans hplan₁')
      refine ⟨plan, plan₂, hplan, hplan₂, hkept.trans hkept', ?_, ?_⟩
      · intro hplaces
        exact absurd hcode (hplaces code mid hcall)
      · intro _
        exact lt_of_le_of_lt hkept'.length_le (hgone hcode)
  · next hcode =>
      obtain rfl := pure_ok.mp h
      refine ⟨plan, plan₁, hplan, hplan₁, hkept, fun _ => ⟨hall hcode, code, hcall⟩, ?_⟩
      intro hfails
      refine absurd ?_ hfails
      intro code' mid' hcall'
      obtain ⟨rfl, -⟩ := Prod.mk.inj (Except.ok.inj (hcall.symm.trans hcall'))
      exact hcode

/-- The cluster whose jobs were set. -/
theorem Schedule.setJobs_self {schedule : Schedule} {plan : ClusterPlan}
    (hplan : schedule.clusters[k]? = some plan) (jobs : List PlanJob) :
    (schedule.setJobs k jobs).clusters[k]? = some { plan with jobs := jobs } := by
  show (schedule.clusters.modify k _)[k]? = _
  rw [List.getElem?_modify, hplan]
  simp

/-- The number that ended the loop. -/
theorem drawItem_ends {jobs : List PlanJob} {countLimit : ℤ} {again : Option PlanJob → Bool}
    (rands : List ℕ) : ∀ {drawn : Option ℕ × List ℕ},
      drawItem jobs countLimit again rands = .ok drawn →
      ∃ rand, listGetRandomItem jobs countLimit rand = .ok drawn.1 ∧
        again (drawn.1.bind (fun i => jobs[i]?)) = false := by
  induction rands with
  | nil =>
      intro drawn h
      rw [drawItem] at h
      cases h
  | cons rand rands ih =>
      intro drawn h
      rw [drawItem] at h
      obtain ⟨position, hposition, h⟩ := bind_ok.mp h
      split at h
      · exact ih h
      · next hagain =>
          obtain rfl := pure_ok.mp h
          exact ⟨rand, hposition, Bool.eq_false_iff.mpr hagain⟩

/-- A queued job is drawn and taken out of the list. -/
theorem takeRandomJob_spec {rands : List ℕ} {schedule : Schedule} {plan : ClusterPlan}
    {taken : TakenJob} (hplan : schedule.clusters[k]? = some plan)
    (h : takeRandomJob optimMinimalQueued k rands schedule = .ok taken) :
    ∃ position, plan.jobs[position]? = some taken.job ∧ taken.job.isQueued = true ∧
      taken.predeccessor = (plan.jobs.take position).getLast?.map PlanJob.ptr ∧
      taken.schedule.clusters[k]? = some { plan with jobs := plan.jobs.eraseIdx position } := by
  unfold takeRandomJob at h
  obtain ⟨plan', hplan', h⟩ := bind_ok.mp h
  cases hplan.symm.trans (getAt_ok.mp hplan')
  obtain ⟨⟨drawn, rands'⟩, hdrawn, h⟩ := bind_ok.mp h
  obtain ⟨position, hposition, h⟩ := bind_ok.mp h
  obtain ⟨⟨job, left⟩, htake, h⟩ := bind_ok.mp h
  obtain rfl := pure_ok.mp h
  obtain rfl := deref_ok.mp hposition
  obtain ⟨-, -, hagain⟩ := drawItem_ends rands hdrawn
  unfold takeOutJob at htake
  obtain ⟨plan', hplan', htake⟩ := bind_ok.mp htake
  cases hplan.symm.trans (getAt_ok.mp hplan')
  obtain ⟨job', hjob, htake⟩ := bind_ok.mp htake
  obtain ⟨rfl, rfl⟩ := Prod.mk.inj (pure_ok.mp htake)
  have hjob := getAt_ok.mp hjob
  dsimp only at hjob hagain
  rw [Option.bind_some, hjob] at hagain
  exact ⟨position, hjob, by simpa using hagain, rfl, Schedule.setJobs_self hplan _⟩

/-- The job is put into the list again, without fixed nodes. -/
theorem putAtRandomPosition_spec {taken : TakenJob} {schedule schedule' : Schedule}
    {plan : ClusterPlan} (hplan : schedule.clusters[k]? = some plan)
    (h : putAtRandomPosition optimMinimalQueued k taken schedule = .ok schedule') :
    ∃ plan' job, schedule'.clusters[k]? = some plan' ∧ job.ptr = taken.job.ptr ∧
      plan'.jobs.Perm (job :: plan.jobs) := by
  unfold putAtRandomPosition at h
  obtain ⟨plan', hplan', h⟩ := bind_ok.mp h
  cases hplan.symm.trans (getAt_ok.mp hplan')
  obtain ⟨⟨behind, rands'⟩, -, h⟩ := bind_ok.mp h
  unfold putJobBehind at h
  obtain ⟨plan', hplan', h⟩ := bind_ok.mp h
  cases hplan.symm.trans (getAt_ok.mp hplan')
  set unfixed : PlanJob :=
    { taken.job with fixedNnameArr := taken.job.fixedNnameArr.map (fun _ => none) }
  cases behind with
  | none =>
      rw [← pure_ok.mp h]
      exact ⟨_, unfixed, Schedule.setJobs_self hplan _, rfl, List.Perm.refl _⟩
  | some i =>
      obtain ⟨other, hother, h⟩ := bind_ok.mp h
      rw [← pure_ok.mp h]
      obtain ⟨hlt, -⟩ := List.getElem?_eq_some_iff.mp (getAt_ok.mp hother)
      exact ⟨_, unfixed, Schedule.setJobs_self hplan _, rfl, List.perm_insertIdx _ _ hlt⟩

/-- What an attempt leaves of the jobs: each one left is the moved one or was there
before. -/
structure AttemptLeft (jobs : List PlanJob) (moved : Option PlanJob) (jobs' : List PlanJob) :
    Prop where
  addresses : (jobs'.map PlanJob.ptr).Subperm (jobs.map PlanJob.ptr)
  moved_mem : ∀ job ∈ moved, job ∈ jobs
  origin : ∀ job' ∈ jobs', (∃ job ∈ moved, job'.ptr = job.ptr) ∨
    ∃ job ∈ jobs, KeepsFixed job job'

/-- What an attempt leaves; no job is lost exactly if all calls place their jobs. -/
theorem randomJobToRandomPosition_left {rands : List ℕ} {schedule schedule' : Schedule}
    {plan : ClusterPlan} {moved : Option PlanJob} (hplan : schedule.clusters[k]? = some plan)
    (h : randomJobToRandomPosition conf time optimMinimalQueued k rands schedule
      = .ok (moved, schedule')) :
    ∃ plan', schedule'.clusters[k]? = some plan' ∧ AttemptLeft plan.jobs moved plan'.jobs ∧
      (AttemptPlaces conf time optimMinimalQueued k rands schedule →
        plan'.jobs.length = plan.jobs.length) ∧
      (¬ AttemptPlaces conf time optimMinimalQueued k rands schedule →
        plan'.jobs.length < plan.jobs.length) := by
  unfold randomJobToRandomPosition at h
  obtain ⟨plan', hplan', h⟩ := bind_ok.mp h
  cases hplan.symm.trans (getAt_ok.mp hplan')
  split at h
  · next hfew =>
      obtain ⟨rfl, rfl⟩ := Prod.mk.inj (pure_ok.mp h)
      refine ⟨plan, hplan, ⟨List.Subperm.refl _, ?_, ?_⟩, fun _ => rfl, ?_⟩
      · intro job hjob
        cases hjob
      · intro job hjob
        exact Or.inr ⟨job, hjob, KeepsFixed.refl job⟩
      · intro hfails
        refine absurd ?_ hfails
        intro plan' taken hplan' henough _
        cases hplan.symm.trans hplan'
        omega
  · next henough =>
      obtain ⟨taken, htaken, h⟩ := bind_ok.mp h
      obtain ⟨s₂, hretry, h⟩ := bind_ok.mp h
      obtain ⟨s₃, hput, h⟩ := bind_ok.mp h
      obtain ⟨s₄, hretry', h⟩ := bind_ok.mp h
      obtain ⟨rfl, rfl⟩ := Prod.mk.inj (pure_ok.mp h)
      -- the job is taken out, the others are planned, it is put in, and all are planned
      obtain ⟨position, hjob, -, -, hplan₁⟩ := takeRandomJob_spec hplan htaken
      obtain ⟨hlt, hget⟩ := List.getElem?_eq_some_iff.mp hjob
      have hperm₁ := List.getElem_cons_eraseIdx_perm hlt
      rw [hget] at hperm₁
      obtain ⟨plan₁', plan₂, hplan₁', hplan₂, hkept, hall, hgone⟩ := updateWithRetry_kept hretry
      cases hplan₁.symm.trans hplan₁'
      dsimp only at hkept hall hgone
      obtain ⟨plan₃, job, hplan₃, hptr, hperm₃⟩ := putAtRandomPosition_spec hplan₂ hput
      obtain ⟨plan₃', plan₄, hplan₃', hplan₄, hkept', hall', hgone'⟩ :=
        updateWithRetry_kept hretry'
      cases hplan₃.symm.trans hplan₃'
      -- a list gets shorter in the two calls that plan only
      have hlength₁ := hperm₁.length_eq
      have hlength₃ := hperm₃.length_eq
      have hle := hkept.length_le
      have hle' := hkept'.length_le
      rw [List.length_cons] at hlength₁ hlength₃
      refine ⟨plan₄, hplan₄, ⟨?_, ?_, ?_⟩, ?_, ?_⟩
      · refine hkept'.addresses.trans ((hperm₃.map PlanJob.ptr).subperm.trans ?_)
        rw [List.map_cons, hptr]
        refine ((List.subperm_cons _).mpr hkept.addresses).trans ?_
        exact (hperm₁.map PlanJob.ptr).subperm
      · intro job' hjob'
        cases hjob'
        exact hperm₁.mem_iff.mp List.mem_cons_self
      · intro job₄ hjob₄
        obtain ⟨job₃, hjob₃, hkeeps₃⟩ := hkept'.origin job₄ hjob₄
        rcases List.mem_cons.mp (hperm₃.mem_iff.mp hjob₃) with rfl | hjob₃
        · exact Or.inl ⟨taken.job, rfl, hkeeps₃.ptr_eq.trans hptr⟩
        · obtain ⟨job₁, hjob₁, hkeeps₁⟩ := hkept.origin job₃ hjob₃
          refine Or.inr ⟨job₁, ?_, hkeeps₁.trans hkeeps₃⟩
          exact hperm₁.mem_iff.mp (List.mem_cons_of_mem _ hjob₁)
      · intro hplaces
        obtain ⟨hfirst, hsecond⟩ := hplaces plan taken hplan (by omega) htaken
        obtain ⟨hsame, code, hcall⟩ := hall hfirst
        have hsame' := (hall' (hsecond code s₂ s₃ hcall hput)).1
        omega
      · intro hfails
        by_cases hfirst : Places conf time k taken.schedule
        · have hsecond : ¬ Places conf time k s₃ := by
            intro hsecond
            apply hfails
            intro plan' taken' hplan' _ htaken'
            cases htaken.symm.trans htaken'
            refine ⟨hfirst, ?_⟩
            intro code planned entered hcall hput'
            obtain ⟨-, code', hcall'⟩ := hall hfirst
            obtain ⟨-, rfl⟩ := Prod.mk.inj (Except.ok.inj (hcall'.symm.trans hcall))
            cases hput.symm.trans hput'
            exact hsecond
          have := hgone' hsecond
          omega
        · have := hgone hfirst
          omega

/-! ## Taking the attempt back -/

/-- A cell of a list with the fixed nodes that will be restored. -/
theorem heapFrom_restored (moved : Option PlanJob) {jobs : List PlanJob} {job : PlanJob}
    (hnodup : (jobs.map PlanJob.ptr).Nodup) (hjob : job ∈ jobs) :
    ∃ cell, heapFrom moved none jobs job.ptr = some cell ∧ cell.restored =
      ((moved.filter (fun m => m.ptr == job.ptr)).map PlanJob.fixedNnameArr).getD
        job.fixedNnameArr := by
  obtain ⟨pre, post, rfl⟩ := List.append_of_mem hjob
  exact ⟨_, heapFrom_split pre hnodup, rfl⟩

/-- Jobs of a list with the same address are the same. -/
theorem eq_of_ptr {jobs : List PlanJob} (hnodup : (jobs.map PlanJob.ptr).Nodup)
    {job job' : PlanJob} (hjob : job ∈ jobs) (hjob' : job' ∈ jobs) (h : job.ptr = job'.ptr) :
    job = job' :=
  List.inj_on_of_nodup_map hnodup hjob hjob' h

/-- If no job was lost, the attempt is taken back. -/
theorem rolledBack_of_length {jobs jobs' : List PlanJob} {moved : Option PlanJob}
    (hnodup : (jobs.map PlanJob.ptr).Nodup)
    (hcomplete : ∀ job ∈ jobs, job.isQueued = true → job.Complete)
    (hleft : AttemptLeft jobs moved jobs') (hlength : jobs'.length = jobs.length) :
    RolledBack jobs moved jobs' := by
  have hperm : (jobs'.map PlanJob.ptr).Perm (jobs.map PlanJob.ptr) := by
    refine hleft.addresses.perm_of_length_le ?_
    rw [List.length_map, List.length_map, hlength]
  have hnodup' := hperm.nodup_iff.mpr hnodup
  have hfixed : ∀ job ∈ jobs, ∃ cell, heapFrom moved none jobs' job.ptr = some cell ∧
      cell.restored = job.fixedNnameArr := by
    intro job hjob
    obtain ⟨job', hjob', hptr⟩ := List.mem_map.mp (hperm.mem_iff.mpr (List.mem_map_of_mem hjob))
    obtain ⟨cell, hcell, hrestored⟩ := heapFrom_restored moved hnodup' hjob'
    rw [hptr] at hcell hrestored
    refine ⟨cell, hcell, hrestored.trans ?_⟩
    cases hcopy : moved.filter (fun m => m.ptr == job.ptr) with
    | some m =>
        -- the moved job has a copy of its own fixed nodes
        obtain ⟨hm, hmptr⟩ := Option.filter_eq_some_iff.mp hcopy
        rw [eq_of_ptr hnodup (hleft.moved_mem m hm) hjob (eq_of_beq hmptr)]
        rfl
    | none =>
        -- any other job kept them
        show job'.fixedNnameArr = job.fixedNnameArr
        rcases hleft.origin job' hjob' with ⟨m, hm, hmptr⟩ | ⟨old, hold, hkeeps⟩
        · rw [Option.mem_def.mp hm, Option.filter_some, if_pos] at hcopy
          · cases hcopy
          · exact beq_iff_eq.mpr (hmptr.symm.trans hptr)
        · obtain rfl := eq_of_ptr hnodup hold hjob (hkeeps.ptr_eq.symm.trans hptr)
          exact hkeeps.fixed_eq (hcomplete old hjob)
  unfold RolledBack restoreAfter
  rw [backupJobOrder_eq (heapFrom_listOf hnodup)]
  by_cases hempty : jobs.map PlanJob.ptr = []
  · obtain rfl := List.map_eq_nil_iff.mp hempty
    obtain rfl := List.eq_nil_of_length_eq_zero hlength
    refine ⟨_, _, rfl, heapFrom_listOf hnodup, ?_⟩
    intro job hjob
    cases hjob
  · have hsome : jobs' ≠ [] := by
      rintro rfl
      exact hempty (List.Perm.nil_eq hperm).symm
    have hstart : ListOf (heapFrom moved none jobs') ⟨0, none, none, none⟩ [] :=
      ⟨rfl, rfl, rfl, List.nodup_nil, by simp⟩
    obtain ⟨list, heap, hrun, hlist, hrest, -⟩ :=
      restoreItems_spec (jobs.map PlanJob.ptr) hstart hnodup (by
        intro p hp
        obtain ⟨job, hjob, rfl⟩ := List.mem_map.mp hp
        obtain ⟨cell, hcell, -⟩ := hfixed job hjob
        exact ⟨cell, hcell⟩)
    refine ⟨list, heap, ?_, hlist, ?_⟩
    · rw [if_neg hempty]
      have hitems : (listHead jobs').numItems ≠ 0 :=
        fun h => hsome (List.eq_nil_of_length_eq_zero h)
      exact (if_neg hitems).trans hrun
    · intro job hjob
      obtain ⟨cell, hcell, hrestored⟩ := hfixed job hjob
      obtain ⟨cell', hcell', hfixed'⟩ := hrest job.ptr (List.mem_map_of_mem hjob) cell hcell
      exact ⟨cell', hcell', hfixed'.trans hrestored⟩

/-- If a job was lost, the attempt is not taken back: the list stays empty, or the address
of the lost job is used. -/
theorem not_rolledBack_of_length {jobs jobs' : List PlanJob} {moved : Option PlanJob}
    (hnodup : (jobs.map PlanJob.ptr).Nodup) (hlength : jobs'.length < jobs.length) :
    ¬ RolledBack jobs moved jobs' := by
  rintro ⟨list, heap, hrun, hlist, -⟩
  unfold restoreAfter at hrun
  rw [backupJobOrder_eq (heapFrom_listOf hnodup), if_neg] at hrun
  · change restoreJobList (some _) (listHead jobs') _ = _ at hrun
    unfold restoreJobList at hrun
    dsimp only at hrun
    split at hrun
    · next hempty =>
        obtain ⟨rfl, -⟩ := Prod.mk.inj (Except.ok.inj hrun)
        have hitems := hlist.numItems
        rw [hempty, List.length_map] at hitems
        omega
    · have hsub : (jobs.map PlanJob.ptr).Subperm (jobs'.map PlanJob.ptr) := by
        refine List.subperm_of_subset hnodup ?_
        intro p hp
        exact (heapFrom_live jobs').mp (restoreItems_live _ hrun p hp)
      have hle := hsub.length_le
      rw [List.length_map, List.length_map] at hle
      omega
  · intro hempty
    rw [List.map_eq_nil_iff.mp hempty, List.length_nil] at hlength
    exact absurd hlength (Nat.not_lt_zero _)

/-- A rejected attempt of the optimisation is taken back completely exactly if no call of
`update_sched` in it fails to place a job. -/
theorem rollback_iff {rands : List ℕ} {schedule schedule' : Schedule}
    {plan plan' : ClusterPlan} {moved : Option PlanJob}
    (hplan : schedule.clusters[k]? = some plan)
    (hnodup : (plan.jobs.map PlanJob.ptr).Nodup)
    (hcomplete : ∀ job ∈ plan.jobs, job.isQueued = true → job.Complete)
    (hrun : randomJobToRandomPosition conf time optimMinimalQueued k rands schedule
      = .ok (moved, schedule'))
    (hplan' : schedule'.clusters[k]? = some plan') :
    RolledBack plan.jobs moved plan'.jobs ↔
      AttemptPlaces conf time optimMinimalQueued k rands schedule := by
  obtain ⟨left, hleftAt, hleft, hall, hgone⟩ := randomJobToRandomPosition_left hplan hrun
  cases hplan'.symm.trans hleftAt
  constructor
  · intro hback
    by_contra hfails
    exact not_rolledBack_of_length hnodup (hgone hfails) hback
  · intro hplaces
    exact rolledBack_of_length hnodup hcomplete hleft (hall hplaces)

/-- Three jobs of ten minutes that wait for the same cluster. -/
def threeJobs (cluster : PlanCluster) : Schedule where
  clusters := [⟨cluster, [queuedJob 1 1 1 Nat.one_pos 1 600, queuedJob 2 1 1 Nat.one_pos 1 600,
    queuedJob 3 1 1 Nat.one_pos 1 600], [], []⟩]
  values := ⟨[], []⟩

/-- On a node in service they are planned one after the other, and moving the second one
to the end is taken back. -/
theorem rollback_three :
    ∃ schedule schedule' plan plan' moved,
      updateAllPlans oneClass 1000 (threeJobs ⟨"zubat", [plainNode "zubat2" 1 8], 1, 0, 0⟩)
        = .ok schedule ∧
      randomJobToRandomPosition oneClass 1000 2 0 [1, 1] schedule = .ok (moved, schedule') ∧
      schedule.clusters[0]? = some plan ∧ schedule'.clusters[0]? = some plan' ∧
      plan.jobs.map PlanJob.ptr = [1, 2, 3] ∧ plan'.jobs.map PlanJob.ptr = [1, 3, 2] ∧
      RolledBack plan.jobs moved plan'.jobs := by
  -- the plans before and after, and the answers of the two rebuilds between
  have hruns : (do
      let schedule ← updateAllPlans oneClass 1000
        (threeJobs ⟨"zubat", [plainNode "zubat2" 1 8], 1, 0, 0⟩)
      let plan ← getAt schedule.clusters 0
      let (_, schedule') ← randomJobToRandomPosition oneClass 1000 2 0 [1, 1] schedule
      let plan' ← getAt schedule'.clusters 0
      return (plan.jobs.map PlanJob.ptr, plan'.jobs.map PlanJob.ptr,
        plan.jobs.map PlanJob.fixedNnameArr) : Run _)
      = .ok ([1, 2, 3], [1, 3, 2], [[some "zubat2"], [some "zubat2"], [some "zubat2"]]) := by
    decide +kernel
  have hcalls : (do
      let schedule ← updateAllPlans oneClass 1000
        (threeJobs ⟨"zubat", [plainNode "zubat2" 1 8], 1, 0, 0⟩)
      let taken ← takeRandomJob 2 0 [1, 1] schedule
      let first ← updateSchedAt oneClass 1000 0 taken.schedule
      let entered ← putAtRandomPosition 2 0 taken first.2
      let second ← updateSchedAt oneClass 1000 0 entered
      return (first.1, second.1) : Run (ℕ × ℕ)) = .ok (0, 0) := by
    decide +kernel
  obtain ⟨schedule, hschedule, hruns⟩ := bind_ok.mp hruns
  obtain ⟨plan, hplan, hruns⟩ := bind_ok.mp hruns
  obtain ⟨⟨moved, schedule'⟩, hattempt, hruns⟩ := bind_ok.mp hruns
  obtain ⟨plan', hplan', hruns⟩ := bind_ok.mp hruns
  have hvalues := pure_ok.mp hruns
  simp only [Prod.mk.injEq] at hvalues
  obtain ⟨hptrs, hptrs', hfixed⟩ := hvalues
  obtain ⟨schedule₀, hschedule₀, hcalls⟩ := bind_ok.mp hcalls
  cases hschedule.symm.trans hschedule₀
  obtain ⟨taken, htaken, hcalls⟩ := bind_ok.mp hcalls
  obtain ⟨first, hfirst, hcalls⟩ := bind_ok.mp hcalls
  obtain ⟨entered, hentered, hcalls⟩ := bind_ok.mp hcalls
  obtain ⟨second, hsecond, hcalls⟩ := bind_ok.mp hcalls
  obtain ⟨hcode, hcode'⟩ := Prod.mk.inj (pure_ok.mp hcalls)
  refine ⟨schedule, schedule', plan, plan', moved, hschedule, hattempt, getAt_ok.mp hplan,
    getAt_ok.mp hplan', hptrs, hptrs', ?_⟩
  refine (rollback_iff (getAt_ok.mp hplan) (by rw [hptrs]; decide) ?_ hattempt
    (getAt_ok.mp hplan')).mpr ?_
  · intro job hjob _
    have hmem := List.mem_map_of_mem (f := PlanJob.fixedNnameArr) hjob
    rw [hfixed] at hmem
    unfold PlanJob.Complete
    rw [show job.fixedNnameArr = [some "zubat2"] by simpa using hmem]
    decide
  · intro plan₀ taken₀ _ _ htaken₀
    cases htaken.symm.trans htaken₀
    refine ⟨?_, ?_⟩
    · intro code planned hcall
      cases hfirst.symm.trans hcall
      rw [show code = 0 from hcode]
      decide
    · intro code planned entered₀ hcall hput code' planned' hcall'
      cases hfirst.symm.trans hcall
      cases hentered.symm.trans hput
      cases hsecond.symm.trans hcall'
      rw [show code' = 0 from hcode']
      decide

/-- On a node available until 2000 the last two jobs are planned beyond its window.  When
the third job is taken out, the second one fails and is freed, and then the third one;
their addresses are still in the saved array. -/
theorem rollback_uses_freed_job :
    ∃ schedule schedule' plan plan' moved,
      updateAllPlans oneClass 1000 (threeJobs windowCluster) = .ok schedule ∧
      randomJobToRandomPosition oneClass 1000 2 0 [2, 0] schedule = .ok (moved, schedule') ∧
      schedule.clusters[0]? = some plan ∧ schedule'.clusters[0]? = some plan' ∧
      plan.jobs.map PlanJob.ptr = [1, 2, 3] ∧
      (∀ job ∈ plan.jobs, job.isQueued = true → job.Complete) ∧
      plan'.jobs.map PlanJob.ptr = [1] ∧
      ¬ RolledBack plan.jobs moved plan'.jobs := by
  have hruns : (do
      let schedule ← updateAllPlans oneClass 1000 (threeJobs windowCluster)
      let plan ← getAt schedule.clusters 0
      let (_, schedule') ← randomJobToRandomPosition oneClass 1000 2 0 [2, 0] schedule
      let plan' ← getAt schedule'.clusters 0
      return (plan.jobs.map PlanJob.ptr, plan'.jobs.map PlanJob.ptr,
        plan.jobs.map PlanJob.fixedNnameArr) : Run _)
      = .ok ([1, 2, 3], [1], [[some "zubat1"], [some "zubat1"], [some "zubat1"]]) := by
    decide +kernel
  obtain ⟨schedule, hschedule, hruns⟩ := bind_ok.mp hruns
  obtain ⟨plan, hplan, hruns⟩ := bind_ok.mp hruns
  obtain ⟨⟨moved, schedule'⟩, hattempt, hruns⟩ := bind_ok.mp hruns
  obtain ⟨plan', hplan', hruns⟩ := bind_ok.mp hruns
  have hvalues := pure_ok.mp hruns
  simp only [Prod.mk.injEq] at hvalues
  obtain ⟨hptrs, hptrs', hfixed⟩ := hvalues
  refine ⟨schedule, schedule', plan, plan', moved, hschedule, hattempt, getAt_ok.mp hplan,
    getAt_ok.mp hplan', hptrs, ?_, hptrs', ?_⟩
  · intro job hjob _
    have hmem := List.mem_map_of_mem (f := PlanJob.fixedNnameArr) hjob
    rw [hfixed] at hmem
    unfold PlanJob.Complete
    rw [show job.fixedNnameArr = [some "zubat1"] by simpa using hmem]
    decide
  · refine not_rolledBack_of_length (by rw [hptrs]; decide) ?_
    have hlength := congrArg List.length hptrs
    have hlength' := congrArg List.length hptrs'
    rw [List.length_map] at hlength hlength'
    rw [hlength, hlength']
    decide

end PlanSched
