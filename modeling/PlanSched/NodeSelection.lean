/-
# The nodes a search chooses

What `find_nodes` (`nodespec.cpp`) chooses, said without its loops.  For a part of the
specification the nodes that pass the test of `assign_node` come first, in their order, and
behind them the ones that can be booted; the first free ones of them are taken, and the next
part gets what is left.  With a placement property the first value is used whose nodes are
enough for all parts.

* `tryAssignNodes_choice`, `tryAssignSpec_choice`: the loops take exactly these nodes;
* `findNodes_place`: where the search succeeds;
* `findNodes_sound_iff`: what it leaves is what the job asked for, unless an exclusive job
  had to boot a node that it did not ask for as a whole: only `assign_node` writes the
  totals of the node.
-/
import PlanSched.FirstFree
import PlanSched.NodespecCheck

namespace PlanSched.Nodespec

open FirstFree

/-! ## The choice -/

section choice

variable (job : NodespecJob) (machines : Machines) (answers : Answers)

/-- The node passes the test of `assign_node`. -/
def fits (spec : ParsSpecNode) (node : ℕ) : Bool :=
  (assignTest job answers spec node).result == .available

/-- The node can be booted for a normal job. -/
def boots (spec : ParsSpecNode) (node : ℕ) : Bool :=
  job.clusterMode == .none && (answers.canFitJobForBoot spec node).result == .available

/-- The nodes for one part, the preferred ones first. -/
def candidates (spec : ParsSpecNode) (runNodes bootNodes : List ℕ) : List ℕ :=
  runNodes.filter (fits job answers spec) ++ bootNodes.filter (boots job answers spec)

/-- The candidates among some nodes, when the taken ones are known. -/
def candidatesOf (nodes : List ℕ) (spec : ParsSpecNode) (taken : List ℕ) : List ℕ :=
  candidates job answers spec (nodes.mergeSort answers.stateBefore)
    ((nodes.filter (suitableForSpec job answers (fun node => decide (node ∈ taken)) spec)).mergeSort
      answers.stateBefore)

/-- The nodes chosen for one part. -/
def choice (nodes : List ℕ) (spec : ParsSpecNode) (taken : List ℕ) : List ℕ :=
  firstFree taken spec.nodeCount (candidatesOf job answers nodes spec taken)

/-- The nodes chosen for all parts. -/
def choices (nodes : List ℕ) : List ParsSpecNode → List ℕ → List (List ℕ)
  | [], _ => []
  | spec :: specs, taken =>
      choice job answers nodes spec taken
        :: choices nodes specs (choice job answers nodes spec taken ++ taken)

/-- There are enough names and enough free candidates for each part. -/
def served (nodes : List ℕ) : List ParsSpecNode → List ℕ → Bool
  | [], _ => true
  | spec :: specs, taken =>
      decide (spec.nodeCount ≤ (nodes.map machines.name).dedup.length) &&
      decide (spec.nodeCount
        ≤ ((candidatesOf job answers nodes spec taken).toFinset \ taken.toFinset).card) &&
      served nodes specs (choice job answers nodes spec taken ++ taken)

/-- The nodes of a place are enough for all parts. -/
def enough (place : List ℕ) : Bool := served job machines answers place job.parsedNodespec []

/-- The sets of nodes the search looks at, one after the other. -/
def places (nodes : List ℕ) : List (List ℕ) :=
  match job.placement with
  | none => [nodes]
  | some values => values.map (fun value => nodes.filter value)

/-- What the search writes for a chosen node. -/
def chosenSpec (spec : ParsSpecNode) (node : ℕ) : ParsSpecNode :=
  if fits job answers spec node then assignedSpec job machines spec node else spec

end choice

/-! ## The property -/

/-- What a successful search has to leave: parts of the right size, of different nodes that
passed a test, with the specification of the part written on them. -/
structure FoundSound (job : NodespecJob) (machines : Machines) (answers : Answers)
    (nodes : List ℕ) (s : Assigned) : Prop where
  length_eq : s.schedule.length = (job.parsedNodespec.map ParsSpecNode.nodeCount).sum
  nodup : s.schedule.Nodup
  fromNodes : ∀ node ∈ s.schedule, node ∈ nodes
  parts : ∃ parts : List (List ℕ), s.schedule = parts.flatten ∧
    List.Forall₂ (fun spec part => part.length = spec.nodeCount ∧ ∀ node ∈ part,
      (s.assigns node).nodespec = some (assignedSpec job machines spec node) ∧
      ((answers.canFitJobForRun spec node).result = .available ∨
        (answers.canFitJobForBoot spec node).result = .available)) job.parsedNodespec parts
  onePlace : ∀ values, job.placement = some values →
    ∃ value ∈ values, ∀ node ∈ s.schedule, value node = true

/-- A node that has to be booted is asked for as a whole. -/
def BootedWhole (job : NodespecJob) (machines : Machines) (answers : Answers)
    (place : List ℕ) : Prop :=
  List.Forall₂ (fun spec part => ∀ node ∈ part, fits job answers spec node = true ∨
      (spec.procs = machines.coresTotal node ∧ spec.mem = machines.memTotal node))
    job.parsedNodespec (choices job answers place job.parsedNodespec [])

/-! ## One part -/

/-- The nodes of `chosen` were added, with what is written on them. -/
structure Chosen (content : ℕ → ParsSpecNode) (s s' : Assigned) (chosen : List ℕ) : Prop where
  schedule_eq : s'.schedule = s.schedule ++ chosen
  nodespec_eq : ∀ node ∈ chosen, (s'.assigns node).nodespec = some (content node)
  others : ∀ node, node ∉ chosen → s'.assigns node = s.assigns node

/-- Exactly the taken nodes are passed over. -/
def Marks (machines : Machines) (nodes taken : List ℕ) (s : Assigned) : Prop :=
  ∀ node ∈ nodes, passedOver machines s node = decide (node ∈ taken)

theorem Chosen.nil (content : ℕ → ParsSpecNode) (s : Assigned) : Chosen content s s [] where
  schedule_eq := (List.append_nil _).symm
  nodespec_eq := fun _ h => absurd h List.not_mem_nil
  others := fun _ _ => rfl

/-- One node, and then the others. -/
theorem Chosen.cons {content : ℕ → ParsSpecNode} {s s' : Assigned} {node : ℕ}
    {scratch : ScratchType} {ra : Option String} {chosen : List ℕ} (hnew : node ∉ chosen)
    (h : Chosen content (s.set node (content node) scratch ra) s' chosen) :
    Chosen content s s' (node :: chosen) where
  schedule_eq := by
    rw [h.schedule_eq]
    show (s.schedule ++ [node]) ++ chosen = s.schedule ++ node :: chosen
    rw [List.append_assoc]
    rfl
  nodespec_eq := by
    intro other hother
    rcases List.mem_cons.mp hother with rfl | hother
    · rw [h.others other hnew]
      show (Function.update s.assigns other _ other).nodespec = _
      rw [Function.update_self]
    · exact h.nodespec_eq other hother
  others := by
    intro other hother
    rw [List.mem_cons, not_or] at hother
    rw [h.others other hother.2]
    exact Function.update_of_ne hother.1 _ _

/-- What is passed over after the nodes are added. -/
theorem Chosen.marks {machines : Machines} {content : ℕ → ParsSpecNode} {s s' : Assigned}
    {nodes taken chosen : List ℕ} (h : Chosen content s s' chosen)
    (hphys : ∀ node ∈ nodes, machines.physicalNode node = node)
    (hs : Marks machines nodes taken s) : Marks machines nodes (chosen ++ taken) s' := by
  intro node hnode
  have hbefore := hs node hnode
  unfold passedOver at hbefore ⊢
  rw [hphys node hnode] at hbefore ⊢
  by_cases hmem : node ∈ chosen
  · have hassigned : (s'.assigns node).hasAssignment = true := by
      unfold JobAssign.hasAssignment
      rw [h.nodespec_eq node hmem]
      rfl
    rw [hassigned, Bool.or_true]
    exact (decide_eq_true (List.mem_append_left _ hmem)).symm
  · rw [h.others node hmem, hbefore]
    refine decide_eq_decide.mpr ?_
    rw [List.mem_append]
    exact ⟨Or.inr, fun hor => hor.resolve_left hmem⟩

section part

variable (job : NodespecJob) {machines : Machines} (answers : Answers)

/-- Searching the usable nodes is searching the free ones among those that pass. -/
theorem find_usable {test : ℕ → FitAnswer} {s : Assigned} {nodes taken : List ℕ}
    (hmarks : Marks machines nodes taken s) :
    nodes.find? (usable machines test s)
      = (nodes.filter (fun node => (test node).result == .available)).find?
          (fun node => node ∉ taken) := by
  rw [List.find?_filter]
  refine List.find?_congr ?_
  intro node hnode
  unfold usable
  rw [hmarks node hnode]
  by_cases htaken : node ∈ taken
  · simp [htaken]
  · by_cases hfit : (test node).result = .available
    · simp [htaken, hfit]
    · simp [hfit]

/-- The next node: the first free candidate. -/
theorem nextNode (spec : ParsSpecNode) {runNodes bootNodes taken : List ℕ} {s : Assigned}
    (hphys : ∀ node ∈ runNodes, machines.physicalNode node = node)
    (hsub : ∀ node ∈ bootNodes, node ∈ runNodes) (hmarks : Marks machines runNodes taken s) :
    ((candidates job answers spec runNodes bootNodes).find? (fun node => node ∉ taken) = none ∧
      assignNode job machines answers spec runNodes s = none ∧
      ondemandReboot job machines answers spec bootNodes s = none) ∨
    ∃ node scratch ra,
      (candidates job answers spec runNodes bootNodes).find? (fun node => node ∉ taken)
        = some node ∧
      (assignNode job machines answers spec runNodes s
          = some (s.set node (chosenSpec job machines answers spec node) scratch ra) ∨
        assignNode job machines answers spec runNodes s = none ∧
        ondemandReboot job machines answers spec bootNodes s
          = some (s.set node (chosenSpec job machines answers spec node) scratch ra)) := by
  have hrun : runNodes.find? (usable machines (assignTest job answers spec) s)
      = (runNodes.filter (fits job answers spec)).find? (fun node => node ∉ taken) :=
    find_usable hmarks
  have hmarks' : Marks machines bootNodes taken s := fun node hnode => hmarks node (hsub node hnode)
  rw [candidates, List.find?_append, ← hrun]
  unfold assignNode
  rcases takeNode_cases machines (assignTest job answers spec) id
      (assignedSpec job machines spec) s runNodes .scratchNone none with
    ⟨hfind, htake⟩ | ⟨node, scratch, ra, hfind, htake⟩
  -- no node fits as it is: those that can be booted are asked next
  · rw [hfind, Option.none_or, htake]
    have hall : ∀ node ∈ runNodes, fits job answers spec node = true → node ∈ taken := by
      intro node hnode hfit
      rw [hrun, List.find?_eq_none] at hfind
      simpa using hfind node (List.mem_filter.mpr ⟨hnode, hfit⟩)
    unfold ondemandReboot
    by_cases hmode : job.clusterMode = .none
    · rw [if_neg (not_not.mpr hmode)]
      have hboot : bootNodes.find? (usable machines (answers.canFitJobForBoot spec) s)
          = (bootNodes.filter (boots job answers spec)).find? (fun node => node ∉ taken) := by
        rw [find_usable hmarks']
        unfold boots
        rw [hmode]
        rfl
      rw [← hboot]
      rcases takeNode_cases machines (answers.canFitJobForBoot spec)
          machines.physicalNode (fun _ => spec) s bootNodes .scratchNone none with
        ⟨hfind', htake'⟩ | ⟨node, scratch, ra, hfind', htake'⟩
      · exact Or.inl ⟨hfind', rfl, htake'⟩
      · have hmem := hsub node (List.mem_of_find?_eq_some hfind')
        rw [hboot] at hfind'
        have hfree : node ∉ taken := by
          simpa using List.find?_some hfind'
        have hunfit : chosenSpec job machines answers spec node = spec := by
          unfold chosenSpec
          rw [if_neg (fun hfit => hfree (hall node hmem hfit))]
        refine Or.inr ⟨node, scratch, ra, hboot.trans hfind', Or.inr ⟨rfl, ?_⟩⟩
        rw [htake', hphys node hmem, hunfit]
    · rw [if_pos hmode]
      refine Or.inl ⟨?_, rfl, rfl⟩
      rw [List.find?_eq_none]
      intro node hnode
      have := (List.mem_filter.mp hnode).2
      unfold boots at this
      rw [beq_eq_false_iff_ne.mpr hmode] at this
      cases this
  · have hfit : chosenSpec job machines answers spec node
        = assignedSpec job machines spec node := by
      unfold chosenSpec
      rw [hrun] at hfind
      exact if_pos (List.mem_filter.mp (List.mem_of_find?_eq_some hfind)).2
    refine Or.inr ⟨node, scratch, ra, ?_, Or.inl ?_⟩
    · rw [hfind, Option.some_or]
    · rw [htake, hfit]
      rfl

/-- The loop over the nodes of a part takes the first free candidates. -/
theorem tryAssignNodes_choice (spec : ParsSpecNode) (runNodes bootNodes : List ℕ)
    (hphys : ∀ node ∈ runNodes, machines.physicalNode node = node)
    (hsub : ∀ node ∈ bootNodes, node ∈ runNodes) (count : ℕ) :
    ∀ {taken : List ℕ} {s : Assigned}, Marks machines runNodes taken s →
      Chosen (chosenSpec job machines answers spec) s
        (tryAssignNodes job machines answers spec runNodes bootNodes count s).2
        (firstFree taken count (candidates job answers spec runNodes bootNodes)) ∧
      ((tryAssignNodes job machines answers spec runNodes bootNodes count s).1 = .available ↔
        (firstFree taken count (candidates job answers spec runNodes bootNodes)).length
          = count) := by
  induction count with
  | zero =>
      intro taken s _
      rw [firstFree_zero, tryAssignNodes]
      exact ⟨Chosen.nil _ s, by simp⟩
  | succ count ih =>
      intro taken s hmarks
      -- no candidate is left, or the first one is marked and the loop goes on without it
      rcases nextNode job answers spec hphys hsub hmarks with
        ⟨hfind, hassign, hboot⟩ | ⟨node, scratch, ra, hfind, hstep⟩
      · have hmarked : ∀ node ∈ candidates job answers spec runNodes bootNodes, node ∈ taken := by
          intro node hnode
          rw [List.find?_eq_none] at hfind
          simpa using hfind node hnode
        rw [tryAssignNodes, hassign, hboot, firstFree_of_marked _ hmarked]
        dsimp only
        split
        · exact ⟨Chosen.nil _ s, by simp⟩
        · exact ⟨Chosen.nil _ s, by simp⟩
      · set content := chosenSpec job machines answers spec
        have hstep' : tryAssignNodes job machines answers spec runNodes bootNodes (count + 1) s
            = tryAssignNodes job machines answers spec runNodes bootNodes count
                (s.set node (content node) scratch ra) := by
          rw [tryAssignNodes]
          rcases hstep with hassign | ⟨hassign, hboot⟩
          · rw [hassign]
          · rw [hassign, hboot]
        have hone : Chosen content s (s.set node (content node) scratch ra) [node] :=
          (Chosen.nil content _).cons List.not_mem_nil
        obtain ⟨hchosen, havailable⟩ := ih (hone.marks hphys hmarks)
        rw [hstep', firstFree_of_find count hfind]
        refine ⟨hchosen.cons ?_, ?_⟩
        · intro hmem
          exact (mem_firstFree _ hmem).2 (List.mem_append_left _ (List.mem_singleton_self node))
        · rw [havailable, List.length_cons]
          show (firstFree (node :: taken) count _).length = count ↔ _
          omega

end part

/-! ## All parts -/

section parts

variable {job : NodespecJob} {machines : Machines} {answers : Answers} {nodes : List ℕ}

/-- A chosen node is one of the nodes, was free and passed a test. -/
theorem mem_choice {spec : ParsSpecNode} {taken : List ℕ} {node : ℕ}
    (h : node ∈ choice job answers nodes spec taken) :
    node ∈ nodes ∧ node ∉ taken ∧
      ((answers.canFitJobForRun spec node).result = .available ∨
        (answers.canFitJobForBoot spec node).result = .available) := by
  obtain ⟨hmem, hfree⟩ := mem_firstFree _ h
  rcases List.mem_append.mp hmem with hmem | hmem
  · obtain ⟨hmem, hfit⟩ := List.mem_filter.mp hmem
    refine ⟨List.mem_mergeSort.mp hmem, hfree, ?_⟩
    unfold fits assignTest at hfit
    split at hfit
    · exact Or.inl (eq_of_beq hfit)
    · exact Or.inr (eq_of_beq hfit)
  · obtain ⟨hmem, hboot⟩ := List.mem_filter.mp hmem
    refine ⟨(List.mem_filter.mp (List.mem_mergeSort.mp hmem)).1, hfree, ?_⟩
    unfold boots at hboot
    exact Or.inr (eq_of_beq (Bool.and_eq_true_iff.mp hboot).2)

/-- What is chosen for all parts was free. -/
theorem mem_choices {node : ℕ} (specs : List ParsSpecNode) : ∀ {taken : List ℕ},
    node ∈ (choices job answers nodes specs taken).flatten → node ∈ nodes ∧ node ∉ taken := by
  induction specs with
  | nil =>
      intro taken h
      cases h
  | cons spec specs ih =>
      intro taken h
      rw [choices, List.flatten_cons, List.mem_append] at h
      rcases h with h | h
      · exact ⟨(mem_choice h).1, (mem_choice h).2.1⟩
      · exact ⟨(ih h).1, fun hin => (ih h).2 (List.mem_append_right _ hin)⟩

/-- No node is chosen for two parts. -/
theorem nodup_choices (specs : List ParsSpecNode) : ∀ (taken : List ℕ),
    (choices job answers nodes specs taken).flatten.Nodup := by
  induction specs with
  | nil => exact fun taken => List.nodup_nil
  | cons spec specs ih =>
      intro taken
      rw [choices, List.flatten_cons, List.nodup_append]
      refine ⟨nodup_firstFree _ _ _, ih _, ?_⟩
      rintro node hnode _ hlater rfl
      exact (mem_choices specs hlater).2 (List.mem_append_left _ hnode)

/-- When the nodes are enough, each part gets as many as it asks for. -/
theorem served_iff_length (specs : List ParsSpecNode) : ∀ {taken : List ℕ},
    served job machines answers nodes specs taken = true →
      List.Forall₂ (fun spec part => part.length = spec.nodeCount) specs
        (choices job answers nodes specs taken) := by
  induction specs with
  | nil => exact fun _ => List.Forall₂.nil
  | cons spec specs ih =>
      intro taken h
      rw [served, Bool.and_eq_true, Bool.and_eq_true] at h
      exact List.Forall₂.cons (length_firstFree_iff.mpr (of_decide_eq_true h.1.2)) (ih h.2)

/-- The names of the nodes are those of all nodes looked at. -/
theorem uniqueNames_eq (spec : ParsSpecNode) (s : Assigned) :
    uniqueNames job machines answers nodes spec s = (nodes.map machines.name).dedup.length := by
  unfold uniqueNames
  rw [← List.card_toFinset, ← List.card_toFinset]
  congr 1
  ext name
  rw [List.mem_toFinset, List.mem_toFinset, List.map_append, List.mem_append]
  constructor
  · rintro (h | h)
    · exact h
    · obtain ⟨node, hnode, rfl⟩ := List.mem_map.mp h
      exact List.mem_map_of_mem (List.mem_filter.mp hnode).1
  · exact Or.inl

/-- The nodes that can be rebooted, by the taken ones. -/
theorem filterReboot_eq {taken : List ℕ} {s : Assigned} (hmarks : Marks machines nodes taken s)
    (spec : ParsSpecNode) : filterReboot job machines answers nodes spec s
      = nodes.filter (suitableForSpec job answers (fun node => decide (node ∈ taken)) spec) := by
  refine List.filter_congr ?_
  intro node hnode
  unfold suitableForSpec
  rw [hmarks node hnode]

/-- The nodes of the parts were added, with what is written on them. -/
structure ChosenParts (job : NodespecJob) (machines : Machines) (answers : Answers)
    (specs : List ParsSpecNode) (s s' : Assigned) (parts : List (List ℕ)) : Prop where
  schedule_eq : s'.schedule = s.schedule ++ parts.flatten
  nodespec_eq : List.Forall₂ (fun spec part => ∀ node ∈ part,
    (s'.assigns node).nodespec = some (chosenSpec job machines answers spec node)) specs parts
  others : ∀ node, node ∉ parts.flatten → s'.assigns node = s.assigns node

variable (job answers) in
/-- The search for all parts succeeds if the nodes are enough, and takes the chosen ones. -/
theorem tryAssignSpec_choice (hphys : ∀ node ∈ nodes, machines.physicalNode node = node)
    (specs : List ParsSpecNode) : ∀ {taken : List ℕ} {s : Assigned},
      Marks machines nodes taken s →
      ((tryAssignSpec job machines answers nodes specs s).1 = .available ↔
        served job machines answers nodes specs taken = true) ∧
      (served job machines answers nodes specs taken = true →
        ChosenParts job machines answers specs s
          (tryAssignSpec job machines answers nodes specs s).2
          (choices job answers nodes specs taken)) := by
  induction specs with
  | nil =>
      intro taken s _
      exact ⟨iff_of_true rfl rfl,
        fun _ => ⟨(List.append_nil _).symm, List.Forall₂.nil, fun _ _ => rfl⟩⟩
  | cons spec specs ih =>
      intro taken s hmarks
      have hsort : ∀ (l : List ℕ) (node : ℕ), node ∈ l.mergeSort answers.stateBefore ↔ node ∈ l :=
        fun l node => List.mem_mergeSort
      obtain ⟨hchosen, havailable⟩ := tryAssignNodes_choice job answers spec
        (nodes.mergeSort answers.stateBefore)
        ((filterReboot job machines answers nodes spec s).mergeSort answers.stateBefore)
        (fun node hnode => hphys node ((hsort _ node).mp hnode))
        (fun node hnode => (hsort _ node).mpr
          (List.mem_filter.mp ((hsort _ node).mp hnode)).1) spec.nodeCount
        (fun node hnode => hmarks node ((hsort _ node).mp hnode))
      rw [filterReboot_eq hmarks] at hchosen havailable
      change Chosen _ _ _ (choice job answers nodes spec taken) at hchosen
      obtain ⟨hserved, hparts⟩ := ih (hchosen.marks hphys hmarks)
      rw [tryAssignSpec, uniqueNames_eq, filterReboot_eq hmarks, served, choices]
      dsimp only
      generalize tryAssignNodes job machines answers spec _ _ _ s = found at *
      rw [length_firstFree_iff] at havailable
      change found.1 = .available ↔ spec.nodeCount
        ≤ ((candidatesOf job answers nodes spec taken).toFinset \ taken.toFinset).card at havailable
      generalize hrest : tryAssignSpec job machines answers nodes specs found.2 = rest at *
      by_cases hnames : (nodes.map machines.name).dedup.length < spec.nodeCount
      · rw [if_pos hnames, decide_eq_false (not_le.mpr hnames), Bool.false_and, Bool.false_and]
        exact ⟨by simp, fun h => absurd h Bool.false_ne_true⟩
      rw [if_neg hnames, decide_eq_true (not_lt.mp hnames), Bool.true_and]
      by_cases henough : spec.nodeCount
          ≤ ((candidatesOf job answers nodes spec taken).toFinset \ taken.toFinset).card
      · have hfound : found.1 = .available := havailable.mpr henough
        have hcase : (if rest.1 = .available then (found.1, rest.2) else rest) = rest := by
          split
          · next h => rw [hfound, ← h]
          · rfl
        rw [decide_eq_true henough, Bool.true_and, if_neg (by rw [hfound]; simp), hcase]
        refine ⟨hserved, ?_⟩
        intro h
        have hlater := hparts h
        refine ⟨?_, List.Forall₂.cons ?_ hlater.nodespec_eq, ?_⟩
        · rw [hlater.schedule_eq, hchosen.schedule_eq, List.flatten_cons, List.append_assoc]
        · -- what the first part wrote is not touched by the later ones
          intro node hnode
          have hkeep : node ∉ (choices job answers nodes specs
              (choice job answers nodes spec taken ++ taken)).flatten :=
            fun hlate => (mem_choices specs hlate).2 (List.mem_append_left _ hnode)
          rw [hlater.others node hkeep]
          exact hchosen.nodespec_eq node hnode
        · intro node hnode
          rw [List.flatten_cons, List.mem_append, not_or] at hnode
          rw [hlater.others node hnode.2, hchosen.others node hnode.1]
      · have hfound : found.1 ≠ .available := fun h => henough (havailable.mp h)
        rw [decide_eq_false henough, Bool.false_and]
        refine ⟨iff_of_false ?_ Bool.false_ne_true, fun h => absurd h Bool.false_ne_true⟩
        split
        · exact hfound
        · split
          · exact hfound
          · assumption

end parts

/-! ## The search -/

section place

variable {job : NodespecJob} {machines : Machines} {answers : Answers} {nodes : List ℕ}

/-- The cleaned nodes are free. -/
theorem marks_cleaned (hphys : ∀ node ∈ nodes, machines.physicalNode node = node)
    {place : List ℕ} (hsub : ∀ node ∈ place, node ∈ nodes) (s : Assigned) :
    Marks machines place [] (s.preassignClean nodes).clearSchedule := by
  intro node hnode
  have hclean : (s.preassignClean nodes).clearSchedule.assigns node = .clean :=
    if_pos (hsub node hnode)
  unfold passedOver
  rw [hphys node (hsub node hnode), hclean]
  rfl

/-- What a search that succeeds leaves: the choice in the place, on a clean start. -/
def FoundAt (job : NodespecJob) (machines : Machines) (answers : Answers) (place : List ℕ)
    (s : Assigned) : Prop :=
  ∃ s₀ : Assigned, s₀.schedule = [] ∧ ChosenParts job machines answers job.parsedNodespec s₀ s
    (choices job answers place job.parsedNodespec [])

/-- The search over the values succeeds at the first one whose nodes are enough. -/
theorem findPlace_place (hphys : ∀ node ∈ nodes, machines.physicalNode node = node)
    (values : List (ℕ → Bool)) : ∀ {result : CheckResult} {s : Assigned}, result ≠ .available →
      ((findPlace job machines answers nodes values result s).1 = .available ↔
        ∃ place, (values.map (fun value => nodes.filter value)).find?
          (enough job machines answers) = some place) ∧
      ∀ place, (values.map (fun value => nodes.filter value)).find?
          (enough job machines answers) = some place →
        FoundAt job machines answers place
          (findPlace job machines answers nodes values result s).2 := by
  induction values with
  | nil =>
      intro result s hresult
      refine ⟨iff_of_false hresult ?_, ?_⟩
      · rintro ⟨place, h⟩
        cases h
      · intro place h
        cases h
  | cons value values ih =>
      intro result s hresult
      have hsub : ∀ node ∈ nodes.filter value, node ∈ nodes :=
        fun node hnode => (List.mem_filter.mp hnode).1
      obtain ⟨hiff, hparts⟩ := tryAssignSpec_choice job answers
        (fun node hnode => hphys node (hsub node hnode)) job.parsedNodespec
        (marks_cleaned hphys hsub s)
      change _ ↔ enough job machines answers (nodes.filter value) = true at hiff
      rw [findPlace, List.map_cons]
      -- the nodes of the first value are enough, or the search goes on with the next one
      cases hserved : enough job machines answers (nodes.filter value) with
      | true =>
          rw [List.find?_cons_of_pos hserved, if_pos (hiff.mpr hserved)]
          refine ⟨iff_of_true (hiff.mpr hserved) ⟨_, rfl⟩, ?_⟩
          intro place hplace
          cases hplace
          exact ⟨_, rfl, hparts hserved⟩
      | false =>
          have hnot : (tryAssignSpec job machines answers (nodes.filter value)
              job.parsedNodespec (s.preassignClean nodes).clearSchedule).1 ≠ .available := by
            rw [Ne, hiff, hserved]
            exact Bool.false_ne_true
          rw [List.find?_cons_of_neg (by rw [hserved]; exact Bool.false_ne_true), if_neg hnot]
          refine ih ?_
          split
          · simp
          · exact hresult

variable (job answers) in
/-- The search succeeds at the first set of nodes that are enough. -/
theorem findNodes_place (hphys : ∀ node ∈ nodes, machines.physicalNode node = node)
    {s : Assigned} (hfree : Marks machines nodes [] s) (hempty : s.schedule = []) :
    ((findNodes job machines answers nodes s).1 = .available ↔
      ∃ place, (places job nodes).find? (enough job machines answers) = some place) ∧
    ∀ place, (places job nodes).find? (enough job machines answers) = some place →
      FoundAt job machines answers place (findNodes job machines answers nodes s).2 := by
  unfold findNodes places
  cases job.placement with
  | none =>
      obtain ⟨hiff, hparts⟩ := tryAssignSpec_choice job answers hphys
        job.parsedNodespec hfree
      change _ ↔ enough job machines answers nodes = true at hiff
      dsimp only
      cases hserved : enough job machines answers nodes with
      | true =>
          rw [List.find?_cons_of_pos hserved]
          refine ⟨iff_of_true (hiff.mpr hserved) ⟨_, rfl⟩, ?_⟩
          intro place hplace
          cases hplace
          exact ⟨s, hempty, hparts hserved⟩
      | false =>
          rw [List.find?_cons_of_neg (by rw [hserved]; exact Bool.false_ne_true), hiff, hserved]
          refine ⟨iff_of_false Bool.false_ne_true ?_, ?_⟩
          · rintro ⟨place, h⟩
            cases h
          · intro place h
            cases h
  | some values => exact findPlace_place hphys values (by simp)

/-- A place is a part of the nodes, of one value. -/
theorem mem_places {place : List ℕ} (h : place ∈ places job nodes) :
    (∀ node ∈ place, node ∈ nodes) ∧ ∀ values, job.placement = some values →
      ∃ value ∈ values, ∀ node ∈ place, value node = true := by
  unfold places at h
  cases hplacement : job.placement with
  | none =>
      rw [hplacement] at h
      rw [List.mem_singleton.mp h]
      refine ⟨fun node hnode => hnode, ?_⟩
      intro values hvalues
      cases hvalues
  | some values =>
      rw [hplacement] at h
      obtain ⟨value, hvalue, rfl⟩ := List.mem_map.mp h
      refine ⟨fun node hnode => (List.mem_filter.mp hnode).1, ?_⟩
      intro values' hvalues
      cases hvalues
      exact ⟨value, hvalue, fun node hnode => (List.mem_filter.mp hnode).2⟩

/-- What is written is what was asked for, unless a booted node is not asked for as a whole. -/
theorem chosenSpec_eq_iff {spec : ParsSpecNode} {node : ℕ} (hexclusive : job.isExclusive = true) :
    chosenSpec job machines answers spec node = assignedSpec job machines spec node ↔
      (fits job answers spec node = true ∨
        (spec.procs = machines.coresTotal node ∧ spec.mem = machines.memTotal node)) := by
  unfold chosenSpec assignedSpec
  rw [if_pos hexclusive]
  by_cases hfit : fits job answers spec node = true
  · rw [if_pos hfit]
    exact iff_of_true rfl (Or.inl hfit)
  · rw [if_neg hfit]
    constructor
    · intro h
      refine Or.inr ⟨?_, ?_⟩
      · exact congrArg ParsSpecNode.procs h
      · exact congrArg ParsSpecNode.mem h
    · rintro (h | ⟨hprocs, hmem⟩)
      · exact absurd h hfit
      · rw [← hprocs, ← hmem]

/-- The sizes of the parts. -/
theorem length_parts {specs : List ParsSpecNode} {parts : List (List ℕ)}
    (h : List.Forall₂ (fun spec part => part.length = spec.nodeCount) specs parts) :
    parts.map List.length = specs.map ParsSpecNode.nodeCount := by
  induction h with
  | nil => rfl
  | cons hhead _ ih => rw [List.map_cons, List.map_cons, hhead, ih]

variable (job answers nodes) in
/-- The nodes of each part passed a test. -/
theorem answered_choices (specs : List ParsSpecNode) : ∀ (taken : List ℕ),
    List.Forall₂ (fun spec part => ∀ node ∈ part,
        (answers.canFitJobForRun spec node).result = .available ∨
          (answers.canFitJobForBoot spec node).result = .available) specs
      (choices job answers nodes specs taken) := by
  induction specs with
  | nil => exact fun _ => List.Forall₂.nil
  | cons spec specs ih =>
      exact fun taken => List.Forall₂.cons (fun node hnode => (mem_choice hnode).2.2) (ih _)

/-- The choice is what the job asked for, when no booted node differs from it. -/
theorem FoundAt.sound {place : List ℕ} {s : Assigned}
    (h : FoundAt job machines answers place s) (henough : enough job machines answers place = true)
    (hplace : place ∈ places job nodes)
    (hwhole : job.isExclusive = true → BootedWhole job machines answers place) :
    FoundSound job machines answers nodes s := by
  obtain ⟨s₀, hempty, hparts⟩ := h
  obtain ⟨hsub, hvalue⟩ := mem_places hplace
  have hlength := served_iff_length job.parsedNodespec henough
  have hanswered := answered_choices job answers place job.parsedNodespec []
  have hschedule : s.schedule = (choices job answers place job.parsedNodespec []).flatten := by
    rw [hparts.schedule_eq, hempty, List.nil_append]
  have hmem : ∀ node ∈ s.schedule, node ∈ place := by
    intro node hnode
    rw [hschedule] at hnode
    exact (mem_choices _ hnode).1
  refine ⟨?_, ?_, fun node hnode => hsub node (hmem node hnode), ⟨_, hschedule, ?_⟩, ?_⟩
  · rw [hschedule, List.length_flatten, length_parts hlength]
  · rw [hschedule]
    exact nodup_choices _ _
  · have hnodespec := hparts.nodespec_eq
    rw [List.forall₂_iff_zip] at hlength hanswered hnodespec ⊢
    refine ⟨hlength.1, ?_⟩
    intro spec part hzip
    refine ⟨hlength.2 hzip, fun node hnode => ⟨?_, hanswered.2 hzip node hnode⟩⟩
    rw [hnodespec.2 hzip node hnode]
    congr 1
    -- only an exclusive job gets another content on nodes that are booted
    cases hexclusive : job.isExclusive with
    | true =>
        have hwhole' := hwhole hexclusive
        unfold BootedWhole at hwhole'
        rw [List.forall₂_iff_zip] at hwhole'
        exact (chosenSpec_eq_iff hexclusive).mpr (hwhole'.2 hzip node hnode)
    | false =>
        unfold chosenSpec assignedSpec
        rw [hexclusive]
        exact ite_self spec
  · intro values hvalues
    obtain ⟨value, hmem', hall⟩ := hvalue values hvalues
    exact ⟨value, hmem', fun node hnode => hall node (hmem node hnode)⟩

/-- And only then, when the job is exclusive. -/
theorem FoundAt.whole {place : List ℕ} {s : Assigned}
    (h : FoundAt job machines answers place s) (henough : enough job machines answers place = true)
    (hexclusive : job.isExclusive = true) (hsound : FoundSound job machines answers nodes s) :
    BootedWhole job machines answers place := by
  obtain ⟨s₀, hempty, hparts⟩ := h
  obtain ⟨parts, hschedule, hcontent⟩ := hsound.parts
  have hlength := served_iff_length job.parsedNodespec henough
  have hnodespec := hparts.nodespec_eq
  have hsame : parts = choices job answers place job.parsedNodespec [] := by
    refine List.eq_iff_flatten_eq.mpr ⟨?_, ?_⟩
    · rw [← hschedule, hparts.schedule_eq, hempty, List.nil_append]
    · exact (length_parts (hcontent.imp (fun _ _ h => h.1))).trans (length_parts hlength).symm
  rw [hsame] at hcontent
  unfold BootedWhole
  rw [List.forall₂_iff_zip] at hcontent hnodespec ⊢
  refine ⟨hcontent.1, ?_⟩
  intro spec part hzip node hnode
  have hwritten := (hnodespec.2 hzip node hnode).symm.trans ((hcontent.2 hzip).2 node hnode).1
  exact (chosenSpec_eq_iff hexclusive).mp (Option.some.inj hwritten)

end place

/-- A successful search leaves what the job asked for, exactly if the job is not exclusive or
asks for each node as a whole that has to be booted for it. -/
theorem findNodes_sound_iff (job : NodespecJob) (machines : Machines) (answers : Answers)
    {nodes : List ℕ} (hphys : ∀ node ∈ nodes, machines.physicalNode node = node) {s : Assigned}
    (hfree : ∀ node ∈ nodes, passedOver machines s node = false) (hempty : s.schedule = []) :
    ((findNodes job machines answers nodes s).1 = .available →
        FoundSound job machines answers nodes (findNodes job machines answers nodes s).2) ↔
      (job.isExclusive = true → ∀ place,
        (places job nodes).find? (enough job machines answers) = some place →
          BootedWhole job machines answers place) := by
  have hmarks : Marks machines nodes [] s := by
    intro node hnode
    rw [hfree node hnode]
    rfl
  obtain ⟨hiff, hfound⟩ := findNodes_place job answers hphys hmarks hempty
  constructor
  · intro hsound hexclusive place hplace
    exact (hfound place hplace).whole (List.find?_some hplace) hexclusive
      (hsound (hiff.mpr ⟨place, hplace⟩))
  · intro hwhole havailable
    obtain ⟨place, hplace⟩ := hiff.mp havailable
    exact (hfound place hplace).sound (List.find?_some hplace) (List.mem_of_find?_eq_some hplace)
      (fun hexclusive => hwhole hexclusive place hplace)

/-! ### One node that can only be booted -/

/-- A job that asks for one processor of one node. -/
def onePart : ParsSpecNode := ⟨1, none, none, 1, 1024, 0, 0, .scratchNone, []⟩

/-- The job, with exclusive use of its nodes. -/
def exclusiveJob : NodespecJob where
  clusterMode := .none
  placement := none
  isAdminQueue := false
  isStarving := false
  isExclusive := true
  parsedNodespec := [onePart]

/-- Nodes of four cores, each of them physical. -/
def fourCores : Machines where
  name := fun _ => "node"
  physicalNode := id
  slaveNodes := fun _ => []
  coresTotal := fun _ => 4
  memTotal := fun _ => 8192
  physicalNode_of_slave := fun _ _ _ h => absurd h List.not_mem_nil

/-- The nodes can be booted, and not used as they are. -/
def onlyBoot : Answers where
  canRunJob := fun _ => .nonFit
  canBootJob := fun _ => .available
  canFitJobForRun := fun _ _ => ⟨.nonFit, none, none⟩
  canFitJobForBoot := fun _ _ => ⟨.available, none, some (some "image")⟩
  stateBefore := fun _ _ => true
  costBefore := fun _ _ _ => true

/-- Nothing is assigned. -/
def Assigned.initial : Assigned := ⟨fun _ => .clean, [], []⟩

/-- A job that is not exclusive gets it as it asks. -/
theorem findNodes_sound_shared :
    FoundSound { exclusiveJob with isExclusive := false } fourCores onlyBoot [0]
      (findNodes { exclusiveJob with isExclusive := false } fourCores onlyBoot [0]
        Assigned.initial).2 := by
  refine (findNodes_sound_iff { exclusiveJob with isExclusive := false } fourCores onlyBoot
    (fun node (_ : node ∈ [0]) => rfl) (fun _ _ => rfl) rfl).mpr (fun h => absurd h (by decide)) ?_
  have hreboot : filterReboot { exclusiveJob with isExclusive := false } fourCores onlyBoot [0]
      onePart Assigned.initial = [0] := by decide
  show (tryAssignSpec { exclusiveJob with isExclusive := false } fourCores onlyBoot [0] [onePart]
    Assigned.initial).1 = _
  rw [tryAssignSpec, hreboot, List.mergeSort_singleton]
  rfl

/-- The exclusive job gets its node, but one processor of it instead of all four. -/
theorem bootedNode_not_whole :
    (∀ node ∈ [0], fourCores.physicalNode node = node) ∧
    (∀ node ∈ [0], passedOver fourCores Assigned.initial node = false) ∧
    Assigned.initial.schedule = [] ∧
    ¬ ((findNodes exclusiveJob fourCores onlyBoot [0] Assigned.initial).1 = .available →
      FoundSound exclusiveJob fourCores onlyBoot [0]
        (findNodes exclusiveJob fourCores onlyBoot [0] Assigned.initial).2) := by
  refine ⟨fun _ _ => rfl, fun _ _ => rfl, rfl, ?_⟩
  have hsearch : findNodes exclusiveJob fourCores onlyBoot [0] Assigned.initial
      = (.available, Assigned.initial.set 0 onePart .scratchNone (some "image")) := by
    have hreboot : filterReboot exclusiveJob fourCores onlyBoot [0] onePart Assigned.initial
        = [0] := by decide
    show tryAssignSpec exclusiveJob fourCores onlyBoot [0] [onePart] Assigned.initial = _
    rw [tryAssignSpec, uniqueNames, hreboot, List.mergeSort_singleton]
    rfl
  rw [hsearch]
  intro h
  obtain ⟨parts, hschedule, hcontent⟩ := (h rfl).parts
  cases hcontent with
  | cons hpart hrest =>
      cases hrest
      rename_i part
      change [0] = [part].flatten at hschedule
      rw [List.flatten_singleton] at hschedule
      have hwritten := (hpart.2 0 (hschedule ▸ List.mem_singleton_self 0)).1
      revert hwritten
      decide

end PlanSched.Nodespec
