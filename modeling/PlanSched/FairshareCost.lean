/-
# The nodes the fairshare cost is computed from

Models nothing new: whether `calculate_fairshare_cost` (`JobInfo.cpp`) stays in its list of
nodes when `check_nodespec` (`nodespec.cpp`) calls it.  The cost makes a choice of its own:
for each part the cheapest nodes that could ever run it and that no earlier part was charged
for; it does not look at the nodes the search has just taken.

* `chargeNodes_iff`, `chargeSpecs_iff`: the loops charge for the first free nodes, if there
  are enough;
* `checkNodespec_cost_iff`: the check returns exactly if there are enough for each part.
-/
import PlanSched.CheckTraces

namespace PlanSched.Nodespec

open CheckedRun FirstFree

/-! ## The condition -/

section condition

variable (job : NodespecJob) (answers : Answers)

/-- The nodes a part can be charged for, when earlier parts have taken some. -/
def chargeable (nodes : List ℕ) (spec : ParsSpecNode) (taken : List ℕ) : List ℕ :=
  nodes.filter (suitableForSpec job answers (fun node => decide (node ∈ taken)) spec)

/-- The cheapest of them. -/
def cheapest (nodes : List ℕ) (spec : ParsSpecNode) (taken : List ℕ) : List ℕ :=
  firstFree [] spec.nodeCount
    ((chargeable job answers nodes spec taken).mergeSort (answers.costBefore spec))

/-- For each part there are as many nodes as it asks for, next to the cheapest ones of the
parts in front of it. -/
def enoughToCharge (nodes : List ℕ) : List ParsSpecNode → List ℕ → Bool
  | [], _ => true
  | spec :: specs, taken =>
      decide (spec.nodeCount ≤ (chargeable job answers nodes spec taken).toFinset.card) &&
      enoughToCharge nodes specs (cheapest job answers nodes spec taken ++ taken)

end condition

/-! ## The loops -/

/-- Exactly the taken nodes carry the flag. -/
def Flags (nodes taken : List ℕ) (s : Assigned) : Prop :=
  ∀ node ∈ nodes, (s.assigns node).flagFairshare = decide (node ∈ taken)

/-- One flag more. -/
theorem Flags.setFairshareFlag {nodes taken : List ℕ} {s : Assigned} (h : Flags nodes taken s)
    (node : ℕ) : Flags nodes (node :: taken) (s.setFairshareFlag node) := by
  intro other hother
  show (Function.update s.assigns node _ other).flagFairshare = _
  by_cases hsame : other = node
  · subst hsame
    rw [Function.update_self]
    exact (decide_eq_true List.mem_cons_self).symm
  · rw [Function.update_of_ne hsame, h other hother]
    refine decide_eq_decide.mpr ?_
    rw [List.mem_cons]
    exact ⟨Or.inr, fun hor => hor.resolve_left hsame⟩

/-- The inner loop passes the flagged nodes, or leaves the list. -/
theorem skipFlagged_cases {nodes taken : List ℕ} {s : Assigned} (hs : Flags nodes taken s)
    (items : List ℕ) : (∀ node ∈ items, node ∈ nodes) →
      ((∀ node ∈ items, node ∈ taken) ∧ skipFlagged s items = .error .badIndex) ∨
      ∃ front node behind, items = front ++ node :: behind ∧ (∀ n ∈ front, n ∈ taken) ∧
        node ∉ taken ∧ skipFlagged s items = .ok (node, node :: behind) := by
  induction items with
  | nil => exact fun _ => Or.inl ⟨fun _ h => absurd h List.not_mem_nil, rfl⟩
  | cons first items ih =>
      intro hsub
      have hflag := hs first (hsub first List.mem_cons_self)
      rw [skipFlagged, hflag]
      by_cases htaken : first ∈ taken
      · rw [if_pos (decide_eq_true htaken)]
        rcases ih (fun node h => hsub node (List.mem_cons_of_mem _ h)) with
          ⟨hall, herror⟩ | ⟨front, node, behind, hsplit, hfront, hfree, hok⟩
        · refine Or.inl ⟨?_, herror⟩
          intro node hnode
          rcases List.mem_cons.mp hnode with rfl | hnode
          · exact htaken
          · exact hall node hnode
        · refine Or.inr ⟨first :: front, node, behind, by rw [hsplit]; rfl, ?_, hfree, hok⟩
          intro n hn
          rcases List.mem_cons.mp hn with rfl | hn
          · exact htaken
          · exact hfront n hn
      · rw [if_neg (by simpa using htaken)]
        exact Or.inr ⟨[], first, items, rfl, fun _ h => absurd h List.not_mem_nil, htaken, rfl⟩

/-- The loop over the count charges for the first free nodes, if there are enough. -/
theorem chargeNodes_iff (spec : ParsSpecNode) {nodes : List ℕ} (count : ℕ) :
    ∀ (cost : List (ParsSpecNode × ℕ)) {taken items : List ℕ} {s : Assigned},
      Flags nodes taken s → (∀ node ∈ items, node ∈ nodes) →
      ((∃ r, chargeNodes spec count items cost s = .ok r) ↔
        (firstFree taken count items).length = count) ∧
      ∀ r, chargeNodes spec count items cost s = .ok r →
        Flags nodes (firstFree taken count items ++ taken) r.2 := by
  induction count with
  | zero =>
      intro cost taken items s hs _
      rw [firstFree_zero]
      refine ⟨iff_of_true ⟨_, rfl⟩ rfl, ?_⟩
      intro r hr
      cases hr
      exact hs
  | succ count ih =>
      intro cost taken items s hs hsub
      rw [chargeNodes]
      -- all nodes of the rest are charged, or the first one that is not is charged now
      rcases skipFlagged_cases hs items hsub with
        ⟨hall, herror⟩ | ⟨front, node, behind, rfl, hfront, hfree, hok⟩
      · rw [herror, firstFree_of_marked _ hall]
        refine ⟨iff_of_false ?_ (by simp), ?_⟩
        · rintro ⟨r, hr⟩
          cases hr
        · intro r hr
          cases hr
      · have hsub' : ∀ n ∈ node :: behind, n ∈ nodes :=
          fun n hn => hsub n (List.mem_append_right _ hn)
        obtain ⟨hiff, hflags⟩ := ih (cost ++ [(spec, node)])
          (hs.setFairshareFlag node) hsub'
        rw [firstFree_cons_of_mem List.mem_cons_self] at hiff hflags
        rw [hok, firstFree_append_of_marked _ front _ hfront, firstFree_cons_of_notMem hfree]
        change ((∃ r, chargeNodes spec count (node :: behind) (cost ++ [(spec, node)])
          (s.setFairshareFlag node) = .ok r) ↔ _) ∧ ∀ r, chargeNodes spec count (node :: behind)
          (cost ++ [(spec, node)]) (s.setFairshareFlag node) = .ok r → _
        refine ⟨?_, ?_⟩
        · rw [hiff, List.length_cons]
          omega
        · intro r hr n hn
          rw [hflags r hr n hn]
          refine decide_eq_decide.mpr ?_
          rw [List.mem_append, List.mem_append, List.mem_cons, List.mem_cons]
          tauto

/-- The cost of all parts stays in its lists exactly if there are enough nodes for each. -/
theorem chargeSpecs_iff (job : NodespecJob) (answers : Answers) {nodes : List ℕ}
    (specs : List ParsSpecNode) :
    ∀ (cost : List (ParsSpecNode × ℕ)) {taken : List ℕ} {s : Assigned}, Flags nodes taken s →
      ((∃ r, chargeSpecs job answers nodes specs cost s = .ok r) ↔
        enoughToCharge job answers nodes specs taken = true) := by
  induction specs with
  | nil => exact fun _ _ _ _ => iff_of_true ⟨_, rfl⟩ rfl
  | cons spec specs ih =>
      intro cost taken s hs
      have hfilter : filterFairshare job answers nodes spec s
          = chargeable job answers nodes spec taken := by
        refine List.filter_congr ?_
        intro node hnode
        unfold suitableForSpec
        beta_reduce
        rw [hs node hnode]
      set items := (chargeable job answers nodes spec taken).mergeSort (answers.costBefore spec)
        with hitems
      have hsub : ∀ node ∈ items, node ∈ nodes :=
        fun node hnode => (List.mem_filter.mp (List.mem_mergeSort.mp hnode)).1
      -- no chargeable node is taken
      have hfree : ∀ node ∈ items, node ∈ taken ↔ node ∈ ([] : List ℕ) := by
        intro node hnode
        have hsuitable := (List.mem_filter.mp (List.mem_mergeSort.mp hnode)).2
        refine iff_of_false ?_ List.not_mem_nil
        intro htaken
        unfold suitableForSpec at hsuitable
        beta_reduce at hsuitable
        rw [decide_eq_true htaken] at hsuitable
        simp at hsuitable
      have hcheapest : firstFree taken spec.nodeCount items
          = cheapest job answers nodes spec taken := firstFree_congr items _ hfree
      have hcard : (firstFree taken spec.nodeCount items).length = spec.nodeCount ↔
          spec.nodeCount ≤ (chargeable job answers nodes spec taken).toFinset.card := by
        rw [hcheapest, cheapest, length_firstFree_iff, List.toFinset_nil, Finset.sdiff_empty,
          List.toFinset_eq_of_perm _ _ (List.mergeSort_perm _ _)]
      obtain ⟨hiff, hflags⟩ := chargeNodes_iff spec spec.nodeCount cost hs hsub
      rw [hcard] at hiff
      rw [hcheapest] at hflags
      rw [chargeSpecs, hfilter, enoughToCharge, Bool.and_eq_true, decide_eq_true_iff]
      constructor
      · rintro ⟨r, hr⟩
        obtain ⟨⟨cost', s'⟩, hcharge, hr⟩ := bind_ok.mp hr
        exact ⟨hiff.mp ⟨_, hcharge⟩, (ih _ (hflags _ hcharge)).mp ⟨r, hr⟩⟩
      · rintro ⟨henough, hrest⟩
        obtain ⟨⟨cost', s'⟩, hcharge⟩ := hiff.mpr henough
        obtain ⟨r, hr⟩ := (ih cost' (hflags _ hcharge)).mpr hrest
        exact ⟨r, bind_ok.mpr ⟨_, hcharge, hr⟩⟩

/-! ## The check -/

/-- The search sets no flags. -/
theorem findNodes_noFlags (job : NodespecJob) (machines : Machines) (answers : Answers)
    (nodes : List ℕ) {big : List ℕ} {s : Assigned} (hs : Flags big [] s) :
    Flags big [] (findNodes job machines answers nodes s).2 := by
  refine findNodes_invariant job machines answers (P := Flags big []) ?_ ?_ nodes hs
  · intro s node spec scratch ra h other hother
    show (Function.update s.assigns node _ other).flagFairshare = _
    by_cases hsame : other = node
    · subst hsame
      rw [Function.update_self]
      exact h other hother
    · rw [Function.update_of_ne hsame]
      exact h other hother
  · intro s cleaned h other hother
    show (if other ∈ cleaned then JobAssign.clean else s.assigns other).flagFairshare = _
    split
    · rfl
    · exact h other hother

/-- When the search succeeds, the check returns exactly if there are enough nodes to charge for
in each part. -/
theorem checkNodespec_cost_iff (job : NodespecJob) (machines : Machines)
    (answers again later : Answers) {ninfoArr : List ℕ} {s : Assigned}
    (hflags : ∀ node ∈ ninfoArr, (s.assigns node).flagFairshare = false)
    (hfound : (findNodes job machines answers (ninfoArr.filter (suitableForJob job answers))
      s).1 = .available) :
    (∃ r, checkNodespec job machines answers again later ninfoArr s = .ok r) ↔
      enoughToCharge job later (ninfoArr.filter (suitableForJob job answers))
        job.parsedNodespec [] = true := by
  set nodes := ninfoArr.filter (suitableForJob job answers) with hnodes
  have hs : Flags nodes [] s := fun node hnode => hflags node (List.mem_filter.mp hnode).1
  have hcheck : checkNodespec job machines answers again later ninfoArr s
      = (calculateFairshareCost job later nodes (findNodes job machines answers nodes s).2 >>=
          fun r => .ok (.success, { r.2 with calculatedFairshare := r.1 })) := by
    unfold checkNodespec
    rw [← hnodes]
    dsimp only
    rw [hfound]
  rw [hcheck, ← chargeSpecs_iff job later job.parsedNodespec []
    (findNodes_noFlags job machines answers nodes hs)]
  constructor
  · rintro ⟨r, hr⟩
    obtain ⟨cost, hcost, _⟩ := bind_ok.mp hr
    exact ⟨cost, hcost⟩
  · rintro ⟨cost, hcost⟩
    exact ⟨_, bind_ok.mpr ⟨cost, hcost, rfl⟩⟩

/-! ### A cheap node that a later part needs -/

/-- The first part asks for much memory, the second one for a property. -/
def muchMemory : ParsSpecNode := { onePart with mem := 16000000 }

/-- See `muchMemory`. -/
def withProperty : ParsSpecNode := { onePart with properties := [⟨"gpu", none⟩] }

/-- The job of the two parts. -/
def memoryAndGpuJob : NodespecJob :=
  { exclusiveJob with isExclusive := false, parsedNodespec := [muchMemory, withProperty] }

/-- Node 1 has the property, and little memory free at the moment; it is the cheap one and stands
first. -/
def cheapGpu : Answers :=
  { onlyBoot with
    canRunJob := fun _ => .available
    canFitJobForRun := fun spec node =>
      if node = 0 then ⟨if spec.properties = [] then .available else .nonFit, none, none⟩
      else ⟨if spec.mem ≤ 4000000 then .available else .occupied, none, none⟩
    canBootJob := fun _ => .nonFit
    canFitJobForBoot := fun _ _ => ⟨.nonFit, none, none⟩ }

/-- A list in its order is not changed by the sort. -/
theorem mergeSort_const (nodes : List ℕ) : nodes.mergeSort (fun _ _ => true) = nodes :=
  List.mergeSort_of_pairwise (List.pairwise_of_forall (fun _ _ => rfl))

/-- A part that is found. -/
theorem tryAssignSpec_cons {job : NodespecJob} {machines : Machines} {answers : Answers}
    {nodes : List ℕ} {spec : ParsSpecNode} {specs : List ParsSpecNode} {s : Assigned}
    (s' : Assigned)
    (hnames : ¬ uniqueNames job machines answers nodes spec s < spec.nodeCount)
    (hfound : tryAssignNodes job machines answers spec (nodes.mergeSort answers.stateBefore)
      ((filterReboot job machines answers nodes spec s).mergeSort answers.stateBefore)
      spec.nodeCount s = (.available, s')) :
    tryAssignSpec job machines answers nodes (spec :: specs) s
      = tryAssignSpec job machines answers nodes specs s' := by
  rw [tryAssignSpec, if_neg hnames, hfound]
  dsimp only
  rw [if_neg (by simp)]
  split
  · next h => rw [← h]
  · rfl

/-- Node 0 for the first part, node 1 for the second one. -/
def gpuBehindMemory : Assigned :=
  (Assigned.initial.set 0 muchMemory .scratchNone none).set 1 withProperty .scratchNone none

/-- The search finds both nodes, in whichever order they stand. -/
theorem findNodes_memoryAndGpu :
    findNodes memoryAndGpuJob fourCores cheapGpu [1, 0] Assigned.initial
      = (.available, gpuBehindMemory) ∧
    findNodes memoryAndGpuJob fourCores cheapGpu [0, 1] Assigned.initial
      = (.available, gpuBehindMemory) := by
  have horder : cheapGpu.stateBefore = fun _ _ => true := rfl
  constructor
  · show tryAssignSpec memoryAndGpuJob fourCores cheapGpu [1, 0] [muchMemory, withProperty]
      Assigned.initial = _
    rw [tryAssignSpec_cons (Assigned.initial.set 0 muchMemory .scratchNone none) (by decide),
      tryAssignSpec_cons gpuBehindMemory (by decide)]
    · rfl
    · rw [horder, mergeSort_const, mergeSort_const]
      rfl
    · rw [horder, mergeSort_const, mergeSort_const]
      rfl
  · show tryAssignSpec memoryAndGpuJob fourCores cheapGpu [0, 1] [muchMemory, withProperty]
      Assigned.initial = _
    rw [tryAssignSpec_cons (Assigned.initial.set 0 muchMemory .scratchNone none) (by decide),
      tryAssignSpec_cons gpuBehindMemory (by decide)]
    · rfl
    · rw [horder, mergeSort_const, mergeSort_const]
      rfl
    · rw [horder, mergeSort_const, mergeSort_const]
      rfl

/-- Both nodes are found, and the cost of the second part is computed from an empty list: the
cheap node was charged for the first part. -/
theorem cost_outOfRange :
    (∀ node ∈ [1, 0], (Assigned.initial.assigns node).flagFairshare = false) ∧
    (findNodes memoryAndGpuJob fourCores cheapGpu
      ([1, 0].filter (suitableForJob memoryAndGpuJob cheapGpu)) Assigned.initial).1
        = .available ∧
    checkNodespec memoryAndGpuJob fourCores cheapGpu cheapGpu cheapGpu [1, 0] Assigned.initial
      = .error .badIndex := by
  have hnodes : [1, 0].filter (suitableForJob memoryAndGpuJob cheapGpu) = [1, 0] := by decide
  have hsearch := findNodes_memoryAndGpu.1
  refine ⟨fun _ _ => rfl, ?_, ?_⟩
  · rw [hnodes, hsearch]
  · unfold checkNodespec
    rw [hnodes]
    dsimp only
    rw [hsearch]
    -- the second part is charged from the nodes behind the first charge, and there are none
    have hcost : calculateFairshareCost memoryAndGpuJob cheapGpu [1, 0] gpuBehindMemory
        = .error .badIndex := by
      have horder : ∀ spec, cheapGpu.costBefore spec = fun _ _ => true := fun _ => rfl
      show chargeSpecs memoryAndGpuJob cheapGpu [1, 0] [muchMemory, withProperty] []
        gpuBehindMemory = _
      rw [chargeSpecs, horder, mergeSort_const]
      show chargeSpecs memoryAndGpuJob cheapGpu [1, 0] [withProperty] [(muchMemory, 1)]
        (gpuBehindMemory.setFairshareFlag 1) = _
      rw [chargeSpecs, horder, mergeSort_const]
      rfl
    rw [hcost]
    rfl

/-- With the node of the property behind the other one, each part is charged for the node it
has found. -/
theorem checkNodespec_cost_bothParts :
    ∃ r, checkNodespec memoryAndGpuJob fourCores cheapGpu cheapGpu cheapGpu [0, 1]
      Assigned.initial = .ok r := by
  have hnodes : [0, 1].filter (suitableForJob memoryAndGpuJob cheapGpu) = [0, 1] := by decide
  refine (checkNodespec_cost_iff memoryAndGpuJob fourCores cheapGpu cheapGpu cheapGpu
    (s := Assigned.initial) (fun node (_ : node ∈ [0, 1]) => rfl) ?_).mpr ?_
  · rw [hnodes, findNodes_memoryAndGpu.2]
  · have horder : ∀ spec, cheapGpu.costBefore spec = fun _ _ => true := fun _ => rfl
    rw [hnodes]
    show enoughToCharge memoryAndGpuJob cheapGpu [0, 1] [muchMemory, withProperty] [] = true
    rw [enoughToCharge, enoughToCharge, enoughToCharge, cheapest, horder, mergeSort_const]
    decide

end PlanSched.Nodespec
