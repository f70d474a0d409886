/-
# What a failed check leaves behind

Models nothing new: what the nodes and `jinfo->schedule` look like after `check_nodespec`
(`nodespec.cpp`) has turned a job down.  A search only adds: each node it marks is at the end
of the schedule.  So an attempt leaves nothing exactly if it takes no node, and that is seen
from its first part that has a candidate.

* `Grown`: what a search adds; `tryAssignSpec_grown`, `findNodes_grown`: each one does;
* `tryAssignSpec_takes`: whether the attempt in one place takes a node;
* `checkNodespec_noTrace_iff`: a check that turns the job down leaves nothing, unless it does so
  on one of the three paths that do not clean everything.
-/
import PlanSched.NodeSelection

namespace PlanSched.Nodespec

open CheckedRun

/-! ## The property -/

/-- No node carries anything, and the schedule is empty. -/
structure NoTrace (ninfoArr : List ℕ) (s : Assigned) : Prop where
  assignment : ∀ node ∈ ninfoArr, (s.assigns node).hasAssignment = false
  scratch : ∀ node ∈ ninfoArr, (s.assigns node).scratchType = .scratchNone
  alternative : ∀ node ∈ ninfoArr, (s.assigns node).bootAlternative = none
  fairshareFlag : ∀ node ∈ ninfoArr, (s.assigns node).flagFairshare = false
  schedule : s.schedule = []

/-- An attempt in one place takes a node: one of the parts in front of the first one that
there are not enough names for has a candidate. -/
def takesIn (job : NodespecJob) (machines : Machines) (answers : Answers) (place : List ℕ) :
    Bool :=
  (job.parsedNodespec.takeWhile (fun spec =>
      decide (spec.nodeCount ≤ (place.map machines.name).dedup.length))).any (fun spec =>
    decide (0 < spec.nodeCount) &&
      place.any (fun node => fits job answers spec node || boots job answers spec node))

/-- The last attempt of a search takes a node. -/
def takesLast (job : NodespecJob) (machines : Machines) (answers : Answers) (nodes : List ℕ) :
    Bool :=
  (places job nodes).getLast?.any (takesIn job machines answers)

/-- The nodes the second search for a starving job gets. -/
def allNodes (machines : Machines) (nodes : List ℕ) : List ℕ :=
  nodes ++ nodes.flatMap machines.slaveNodes

/-- On each of the paths that do not clean everything, the last attempt takes no node. -/
structure NothingTaken (job : NodespecJob) (machines : Machines) (answers again : Answers)
    (nodes : List ℕ) (s : Assigned) : Prop where
  nonFit : (findNodes job machines answers nodes s).1 = .nonFit →
    takesLast job machines answers nodes = false
  adminQueue : (findNodes job machines answers nodes s).1 = .occupied → job.isAdminQueue = true →
    takesLast job machines answers nodes = false
  starving : (findNodes job machines answers nodes s).1 = .occupied → job.isAdminQueue = false →
    job.isStarving = true →
    (findNodes job machines again (allNodes machines nodes) s).1 = .occupied →
    takesLast job machines again (allNodes machines nodes) = false

/-- Nothing is assigned anywhere. -/
structure AllClean (s : Assigned) : Prop where
  assigns : ∀ node, s.assigns node = .clean
  schedule : s.schedule = []

/-! ## A search only adds -/

/-- Nodes were added to the schedule, and nothing is written on others. -/
def Grown (nodes : List ℕ) (s s' : Assigned) : Prop :=
  ∃ chosen : List ℕ, (∀ node ∈ chosen, node ∈ nodes) ∧ s'.schedule = s.schedule ++ chosen ∧
    (∀ node, node ∉ chosen → s'.assigns node = s.assigns node) ∧
    s'.calculatedFairshare = s.calculatedFairshare

theorem Grown.refl (nodes : List ℕ) (s : Assigned) : Grown nodes s s :=
  ⟨[], fun _ h => absurd h List.not_mem_nil, (List.append_nil _).symm, fun _ _ => rfl, rfl⟩

theorem Grown.trans {nodes : List ℕ} {s₁ s₂ s₃ : Assigned} (h : Grown nodes s₁ s₂)
    (h' : Grown nodes s₂ s₃) : Grown nodes s₁ s₃ := by
  obtain ⟨chosen, hsub, hschedule, hothers, hcost⟩ := h
  obtain ⟨chosen', hsub', hschedule', hothers', hcost'⟩ := h'
  refine ⟨chosen ++ chosen', ?_, ?_, ?_, hcost'.trans hcost⟩
  · intro node hnode
    exact (List.mem_append.mp hnode).elim (hsub node) (hsub' node)
  · rw [hschedule', hschedule, List.append_assoc]
  · intro node hnode
    rw [List.mem_append, not_or] at hnode
    rw [hothers' node hnode.2, hothers node hnode.1]

/-- One node more. -/
theorem Grown.set {nodes : List ℕ} {node : ℕ} (hnode : node ∈ nodes) (s : Assigned)
    (spec : ParsSpecNode) (scratch : ScratchType) (ra : Option String) :
    Grown nodes s (s.set node spec scratch ra) := by
  refine ⟨[node], ?_, rfl, ?_, rfl⟩
  · intro other hother
    rw [List.mem_singleton.mp hother]
    exact hnode
  · intro other hother
    exact Function.update_of_ne (fun h => hother (List.mem_singleton.mpr h)) _ _

/-- What is not longer is not changed. -/
theorem Grown.eq_of_schedule {nodes : List ℕ} {s s' : Assigned} (h : Grown nodes s s')
    (hschedule : s'.schedule = s.schedule) : s' = s := by
  obtain ⟨chosen, _, happend, hothers, hcost⟩ := h
  have hnil : chosen = [] := by
    rw [happend] at hschedule
    simpa using hschedule
  subst hnil
  obtain ⟨assigns, schedule, cost⟩ := s'
  obtain ⟨assigns₀, schedule₀, cost₀⟩ := s
  have hassigns : assigns = assigns₀ := funext (fun node => hothers node List.not_mem_nil)
  have hschedule' : schedule = schedule₀ := happend.trans (List.append_nil _)
  rw [hassigns, hschedule', show cost = cost₀ from hcost]

section grown

variable (job : NodespecJob) {machines : Machines} (answers : Answers) {nodes : List ℕ}

/-- The loop over the nodes takes some of them, or the physical ones they belong to. -/
theorem takeNode_grown {test : ℕ → FitAnswer} {target : ℕ → ℕ} {content : ℕ → ParsSpecNode}
    {s s' : Assigned} {looked : List ℕ} {scratch : ScratchType} {ra : Option String}
    (hsub : ∀ node ∈ looked, target node ∈ nodes)
    (h : takeNode machines test target content s looked scratch ra = some s') :
    Grown nodes s s' := by
  rcases takeNode_cases machines test target content s looked scratch ra with
    ⟨_, hnone⟩ | ⟨node, scratch', ra', hfind, hsome⟩
  · rw [hnone] at h
    cases h
  · rw [hsome] at h
    cases h
    exact Grown.set (hsub node (List.mem_of_find?_eq_some hfind)) s _ _ _

/-- The nodes of one part. -/
theorem tryAssignNodes_grown (spec : ParsSpecNode) (runNodes bootNodes : List ℕ)
    (hrun : ∀ node ∈ runNodes, node ∈ nodes)
    (hboot : ∀ node ∈ bootNodes, machines.physicalNode node ∈ nodes) (count : ℕ) :
    ∀ s, Grown nodes s
      (tryAssignNodes job machines answers spec runNodes bootNodes count s).2 := by
  induction count with
  | zero => exact fun s => Grown.refl nodes s
  | succ count ih =>
      intro s
      rw [tryAssignNodes]
      split
      · next s' hs' => exact (takeNode_grown hrun hs').trans (ih s')
      · split
        · next s' hs' =>
            unfold ondemandReboot at hs'
            split at hs'
            · cases hs'
            · exact (takeNode_grown hboot hs').trans (ih s')
        · split
          · exact Grown.refl nodes s
          · exact Grown.refl nodes s

/-- All parts. -/
theorem tryAssignSpec_grown {place : List ℕ} (hplace : ∀ node ∈ place, node ∈ nodes)
    (hphys : ∀ node ∈ place, machines.physicalNode node ∈ nodes) (specs : List ParsSpecNode) :
    ∀ s, Grown nodes s (tryAssignSpec job machines answers place specs s).2 := by
  induction specs with
  | nil => exact fun s => Grown.refl nodes s
  | cons spec specs ih =>
      intro s
      have hfound : Grown nodes s (tryAssignNodes job machines answers spec
          (place.mergeSort answers.stateBefore)
          ((filterReboot job machines answers place spec s).mergeSort answers.stateBefore)
          spec.nodeCount s).2 := by
        refine tryAssignNodes_grown job answers spec _ _ ?_ ?_ _ s
        · intro node hnode
          exact hplace node (List.mem_mergeSort.mp hnode)
        · intro node hnode
          exact hphys node (List.mem_filter.mp (List.mem_mergeSort.mp hnode)).1
      rw [tryAssignSpec]
      dsimp only
      split
      · exact Grown.refl nodes s
      · split
        · exact hfound
        · split
          · exact hfound.trans (ih _)
          · exact hfound.trans (ih _)

end grown

/-! ## Whether an attempt takes a node -/

section takes

variable {job : NodespecJob} {machines : Machines} {answers : Answers}

/-- In a clean state the usable nodes are those that pass the test. -/
theorem find_usable_clean {test : ℕ → FitAnswer} {s : Assigned} (hs : AllClean s)
    {nodes : List ℕ} : nodes.find? (usable machines test s) = none ↔
      ∀ node ∈ nodes, ((test node).result == .available) = false := by
  rw [List.find?_eq_none]
  refine forall₂_congr ?_
  intro node _
  unfold usable passedOver
  rw [hs.assigns node, hs.assigns (machines.physicalNode node)]
  show ¬ (true && ((test node).result == .available)) = true ↔ _
  rw [Bool.true_and, Bool.not_eq_true]

/-- A node that can be booted is looked at. -/
theorem mem_filterReboot {s : Assigned} (hs : AllClean s) {place : List ℕ} {spec : ParsSpecNode}
    {node : ℕ} (hnode : node ∈ place) (hboot : boots job answers spec node = true) :
    node ∈ filterReboot job machines answers place spec s := by
  unfold boots at hboot
  obtain ⟨hmode, havailable⟩ := Bool.and_eq_true_iff.mp hboot
  refine List.mem_filter.mpr ⟨hnode, ?_⟩
  unfold suitableForSpec passedOver
  rw [hs.assigns node, hs.assigns (machines.physicalNode node), eq_of_beq hmode,
    eq_of_beq havailable]
  simp [JobAssign.clean, JobAssign.hasAssignment]

variable (machines) in
/-- The first node of a part. -/
theorem tryAssignNodes_none {spec : ParsSpecNode} {place : List ℕ} {s : Assigned}
    (hs : AllClean s) (hnone : (place.any (fun node =>
      fits job answers spec node || boots job answers spec node)) = false) :
    assignNode job machines answers spec (place.mergeSort answers.stateBefore) s = none ∧
    ondemandReboot job machines answers spec
      ((filterReboot job machines answers place spec s).mergeSort answers.stateBefore) s
        = none := by
  -- neither search can take a node of the place
  have hall : ∀ node ∈ place, fits job answers spec node = false ∧
      boots job answers spec node = false := by
    intro node hnode
    have := List.any_eq_false.mp hnone node hnode
    rwa [Bool.not_eq_true, Bool.or_eq_false_iff] at this
  constructor
  · unfold assignNode
    rcases takeNode_cases machines (assignTest job answers spec) id
        (assignedSpec job machines spec) s (place.mergeSort answers.stateBefore) .scratchNone none
      with ⟨_, htake⟩ | ⟨node, scratch, ra, hfind, _⟩
    · exact htake
    · have hno : (place.mergeSort answers.stateBefore).find?
          (usable machines (assignTest job answers spec) s) = none :=
        (find_usable_clean hs).mpr
          (fun node hnode => (hall node (List.mem_mergeSort.mp hnode)).1)
      rw [hno] at hfind
      cases hfind
  · unfold ondemandReboot
    by_cases hmode : job.clusterMode = .none
    · rw [if_neg (not_not.mpr hmode)]
      rcases takeNode_cases machines (answers.canFitJobForBoot spec)
          machines.physicalNode (fun _ => spec) s
          ((filterReboot job machines answers place spec s).mergeSort answers.stateBefore)
          .scratchNone none with ⟨_, htake⟩ | ⟨node, scratch, ra, hfind, _⟩
      · exact htake
      · have hno : ((filterReboot job machines answers place spec s).mergeSort
            answers.stateBefore).find? (usable machines (answers.canFitJobForBoot spec) s)
            = none := by
          refine (find_usable_clean hs).mpr ?_
          intro node hnode
          have hboot := (hall node (List.mem_filter.mp (List.mem_mergeSort.mp hnode)).1).2
          unfold boots at hboot
          rwa [hmode, show (ClusterMode.none == ClusterMode.none) = true from rfl,
            Bool.true_and] at hboot
        rw [hno] at hfind
        cases hfind
    · exact if_pos hmode

variable (machines) in
/-- A part with a candidate takes one. -/
theorem tryAssignNodes_some {spec : ParsSpecNode} {place : List ℕ} {s : Assigned}
    (hs : AllClean s) (hsome : (place.any (fun node =>
      fits job answers spec node || boots job answers spec node)) = true) :
    (∃ s', assignNode job machines answers spec (place.mergeSort answers.stateBefore) s = some s' ∧
      s'.schedule ≠ []) ∨
    assignNode job machines answers spec (place.mergeSort answers.stateBefore) s = none ∧
    ∃ s', ondemandReboot job machines answers spec
      ((filterReboot job machines answers place spec s).mergeSort answers.stateBefore) s = some s' ∧
      s'.schedule ≠ [] := by
  have hset : ∀ node spec scratch ra, (s.set node spec scratch ra).schedule ≠ [] := by
    intro node spec scratch ra h
    exact List.cons_ne_nil _ _ (List.append_eq_nil_iff.mp h).2
  unfold assignNode
  rcases takeNode_cases machines (assignTest job answers spec) id
      (assignedSpec job machines spec) s (place.mergeSort answers.stateBefore) .scratchNone none
    with ⟨hfind, htake⟩ | ⟨node, scratch, ra, _, htake⟩
  · refine Or.inr ⟨htake, ?_⟩
    obtain ⟨node, hnode, hor⟩ := List.any_eq_true.mp hsome
    have hunfit : fits job answers spec node = false :=
      (find_usable_clean hs).mp hfind node (List.mem_mergeSort.mpr hnode)
    rw [hunfit, Bool.false_or] at hor
    unfold ondemandReboot
    have hmode : job.clusterMode = .none := by
      unfold boots at hor
      exact eq_of_beq (Bool.and_eq_true_iff.mp hor).1
    rw [if_neg (not_not.mpr hmode)]
    rcases takeNode_cases machines (answers.canFitJobForBoot spec)
        machines.physicalNode (fun _ => spec) s
        ((filterReboot job machines answers place spec s).mergeSort answers.stateBefore)
        .scratchNone none with ⟨hfind', _⟩ | ⟨node', scratch, ra, _, htake'⟩
    · have hno := (find_usable_clean hs).mp hfind' node
        (List.mem_mergeSort.mpr (mem_filterReboot hs hnode hor))
      unfold boots at hor
      rw [hno, Bool.and_false] at hor
      cases hor
    · exact ⟨_, htake', hset _ _ _ _⟩
  · exact Or.inl ⟨_, htake, hset _ _ _ _⟩

/-- Whether an attempt takes a node, seen from the schedule. -/
theorem tryAssignSpec_takes {place : List ℕ} {s : Assigned} (hs : AllClean s)
    (specs : List ParsSpecNode) :
    (tryAssignSpec job machines answers place specs s).2.schedule = [] ↔
      (specs.takeWhile (fun spec =>
          decide (spec.nodeCount ≤ (place.map machines.name).dedup.length))).any (fun spec =>
        decide (0 < spec.nodeCount) &&
          place.any (fun node => fits job answers spec node || boots job answers spec node))
        = false := by
  set nodes := place ++ place.map machines.physicalNode with hnodes
  have hplace : ∀ node ∈ place, node ∈ nodes := fun node h => List.mem_append_left _ h
  have hphys : ∀ node ∈ place, machines.physicalNode node ∈ nodes :=
    fun node h => List.mem_append_right _ (List.mem_map_of_mem h)
  induction specs with
  | nil => exact iff_of_true hs.schedule rfl
  | cons spec specs ih =>
      rw [tryAssignSpec, uniqueNames_eq]
      dsimp only
      set bootNodes := (filterReboot job machines answers place spec s).mergeSort
        answers.stateBefore with hboot
      by_cases hnames : (place.map machines.name).dedup.length < spec.nodeCount
      · rw [if_pos hnames, List.takeWhile_cons_of_neg (by simpa using hnames)]
        exact iff_of_true hs.schedule rfl
      rw [if_neg hnames, List.takeWhile_cons_of_pos (by simpa using hnames), List.any_cons]
      cases hcount : spec.nodeCount with
      | zero =>
          -- nothing is asked for: the state is the same for the next part
          rw [tryAssignNodes, if_neg (by simp), decide_eq_false (by omega), Bool.false_and,
            Bool.false_or]
          refine Iff.trans ?_ ih
          dsimp only
          split <;> exact Iff.rfl
      | succ count =>
          rw [decide_eq_true (by omega), Bool.true_and, tryAssignNodes]
          cases hany : place.any (fun node =>
              fits job answers spec node || boots job answers spec node) with
          | false =>
              obtain ⟨hassign, hreboot⟩ := tryAssignNodes_none machines hs hany
              rw [hassign, hreboot, Bool.false_or]
              dsimp only
              have hnonempty : ¬ (place.mergeSort answers.stateBefore = [] ∧
                  (bootNodes = [] ∨ job.clusterMode ≠ .none)) := by
                rintro ⟨hnil, _⟩
                have hlength := congrArg List.length hnil
                rw [List.length_mergeSort] at hlength
                have hzero : place = [] := List.length_eq_zero_iff.mp hlength
                rw [hzero, hcount] at hnames
                exact hnames (Nat.succ_pos count)
              rw [if_neg hnonempty, if_neg (by simp)]
              refine Iff.trans ?_ ih
              dsimp only
              split <;> exact Iff.rfl
          | true =>
              rw [Bool.true_or]
              refine iff_of_false ?_ (by simp)
              have hgrown : ∀ s' : Assigned, s'.schedule ≠ [] → ∀ found, found
                  = tryAssignNodes job machines answers spec
                    (place.mergeSort answers.stateBefore) bootNodes count s' →
                  ¬ (if found.1 = .nonFit then found else
                    if (tryAssignSpec job machines answers place specs found.2).1 = .available then
                      (found.1, (tryAssignSpec job machines answers place specs found.2).2)
                    else tryAssignSpec job machines answers place specs found.2).2.schedule
                    = [] := by
                intro s' hs' found hfound
                have hnodesGrown := tryAssignNodes_grown job answers spec
                  (place.mergeSort answers.stateBefore) bootNodes
                  (fun node h => hplace node (List.mem_mergeSort.mp h))
                  (fun node h => hphys node
                    (List.mem_filter.mp (List.mem_mergeSort.mp h)).1) count s'
                rw [← hfound] at hnodesGrown
                have hrest := hnodesGrown.trans
                  (tryAssignSpec_grown job answers hplace hphys specs found.2)
                have hlonger : ∀ {s''}, Grown nodes s' s'' → s''.schedule ≠ [] := by
                  rintro s'' ⟨chosen, _, happend, _⟩ hnil
                  rw [happend] at hnil
                  exact hs' (List.append_eq_nil_iff.mp hnil).1
                split
                · exact hlonger hnodesGrown
                · split
                  · exact hlonger hrest
                  · exact hlonger hrest
              rcases tryAssignNodes_some machines hs hany with
                ⟨s', hassign, hs'⟩ | ⟨hassign, s', hreboot, hs'⟩
              · rw [hassign]
                exact hgrown s' hs' _ rfl
              · rw [hassign, hreboot]
                exact hgrown s' hs' _ rfl

end takes

/-! ## What a search leaves -/

section search

variable {job : NodespecJob} {machines : Machines} {answers : Answers} {nodes : List ℕ}

/-- What a search leaves when it started with nothing: nothing outside its nodes, nothing at
all if its schedule is empty, and a schedule that tells whether the last attempt took a
node. -/
structure Left (job : NodespecJob) (machines : Machines) (answers : Answers) (nodes : List ℕ)
    (s : Assigned) (last : Option (List ℕ)) (found : CheckResult × Assigned) : Prop where
  outside : ∀ node, node ∉ nodes → found.2.assigns node = .clean
  cost : found.2.calculatedFairshare = s.calculatedFairshare
  nothing : found.2.schedule = [] → AllClean found.2
  taken : found.1 ≠ .available →
    (found.2.schedule = [] ↔ last.any (takesIn job machines answers) = false)

/-- One attempt from a clean state. -/
theorem tryAssignSpec_left (hphys : ∀ node ∈ nodes, machines.physicalNode node ∈ nodes)
    {place : List ℕ} (hsub : ∀ node ∈ place, node ∈ nodes) {s : Assigned} (hs : AllClean s) :
    Left job machines answers nodes s (some place)
      (tryAssignSpec job machines answers place job.parsedNodespec s) := by
  have hgrown := tryAssignSpec_grown job answers hsub
    (fun node h => hphys node (hsub node h)) job.parsedNodespec s
  refine ⟨?_, ?_, ?_, fun _ => tryAssignSpec_takes hs job.parsedNodespec⟩
  · obtain ⟨chosen, hchosen, _, hothers, _⟩ := hgrown
    intro node hnode
    rw [hothers node (fun h => hnode (hchosen node h))]
    exact hs.assigns node
  · obtain ⟨_, _, _, _, hcost⟩ := hgrown
    exact hcost
  · intro hnil
    rw [hgrown.eq_of_schedule (hnil.trans hs.schedule.symm)]
    exact hs

/-- Cleaning the nodes of a search takes everything away. -/
theorem allClean_cleaned {big : List ℕ} (hsub : ∀ node ∈ nodes, node ∈ big) {s : Assigned}
    (hs : ∀ node, node ∉ nodes → s.assigns node = .clean) :
    AllClean (s.preassignClean big).clearSchedule := by
  refine ⟨?_, rfl⟩
  intro node
  show (if node ∈ big then JobAssign.clean else s.assigns node) = .clean
  split
  · rfl
  · next h => exact hs node (fun hin => h (hsub node hin))

/-- The attempts for the values of the placement property: each one but the last is cleaned. -/
theorem findPlace_left (hphys : ∀ node ∈ nodes, machines.physicalNode node ∈ nodes)
    (values : List (ℕ → Bool)) : ∀ {result : CheckResult} {s : Assigned},
      (∀ node, node ∉ nodes → s.assigns node = .clean) → (values = [] → AllClean s) →
      Left job machines answers nodes s ((values.map (fun value => nodes.filter value)).getLast?)
        (findPlace job machines answers nodes values result s) := by
  induction values with
  | nil =>
      intro result s houtside hclean
      have hs := hclean rfl
      exact ⟨houtside, rfl, fun _ => hs, fun _ => iff_of_true hs.schedule rfl⟩
  | cons value values ih =>
      intro result s houtside _
      have hattempt : Left job machines answers nodes _ (some (nodes.filter value)) _ :=
        tryAssignSpec_left hphys (fun node h => (List.mem_filter.mp h).1)
          (allClean_cleaned (fun _ h => h) houtside)
      rw [findPlace]
      generalize tryAssignSpec job machines answers (nodes.filter value) _ _ = found at hattempt ⊢
      by_cases havailable : found.1 = .available
      · rw [if_pos havailable]
        exact ⟨hattempt.outside, hattempt.cost, hattempt.nothing,
          fun h => absurd havailable h⟩
      · rw [if_neg havailable]
        cases values with
        | nil =>
            rw [findPlace]
            exact ⟨hattempt.outside, hattempt.cost, hattempt.nothing,
              fun _ => hattempt.taken havailable⟩
        | cons next values =>
            have hlater := @ih (if found.1 = .occupied then .occupied else result) _
              hattempt.outside (fun h => absurd h (List.cons_ne_nil _ _))
            rw [List.map_cons, List.map_cons, List.getLast?_cons_cons]
            exact ⟨hlater.outside, hlater.cost.trans hattempt.cost, hlater.nothing, hlater.taken⟩

/-- The search. -/
theorem findNodes_left (hphys : ∀ node ∈ nodes, machines.physicalNode node ∈ nodes)
    {s : Assigned} (hs : AllClean s) :
    Left job machines answers nodes s (places job nodes).getLast?
      (findNodes job machines answers nodes s) := by
  unfold findNodes places
  cases job.placement with
  | none => exact tryAssignSpec_left hphys (fun _ h => h) hs
  | some values => exact findPlace_left hphys values (fun node _ => hs.assigns node) (fun _ => hs)

end search

/-! ## The check -/

/-- Clean nodes and an empty schedule show no trace. -/
theorem noTrace_of_clean {ninfoArr : List ℕ} {s : Assigned}
    (hclean : ∀ node ∈ ninfoArr, s.assigns node = .clean) (hnil : s.schedule = []) :
    NoTrace ninfoArr s := by
  refine ⟨?_, ?_, ?_, ?_, hnil⟩
  · intro node h
    rw [hclean node h]
    rfl
  · intro node h
    rw [hclean node h]
    rfl
  · intro node h
    rw [hclean node h]
    rfl
  · intro node h
    rw [hclean node h]
    rfl

/-- There is one clean state for each cost. -/
theorem AllClean.eq {s s' : Assigned} (h : AllClean s) (h' : AllClean s')
    (hcost : s.calculatedFairshare = s'.calculatedFairshare) : s = s' := by
  obtain ⟨assigns, schedule, cost⟩ := s
  obtain ⟨assigns', schedule', cost'⟩ := s'
  have hassigns : assigns = assigns' :=
    funext (fun node => (h.assigns node).trans (h'.assigns node).symm)
  have hschedule : schedule = schedule' := h.schedule.trans h'.schedule.symm
  rw [hassigns, hschedule, show cost = cost' from hcost]

/-- A search shows no trace exactly if its last attempt takes no node. -/
theorem Left.noTrace_iff {job : NodespecJob} {machines : Machines} {answers : Answers}
    {nodes : List ℕ} {s : Assigned} {found : CheckResult × Assigned}
    (h : Left job machines answers nodes s (places job nodes).getLast? found)
    (hanswer : found.1 ≠ .available) (ninfoArr : List ℕ) :
    NoTrace ninfoArr found.2 ↔ takesLast job machines answers nodes = false := by
  refine Iff.trans ?_ (h.taken hanswer)
  exact ⟨fun hnone => hnone.schedule,
    fun hnil => noTrace_of_clean (fun node _ => (h.nothing hnil).assigns node) hnil⟩

/-- The nodes of the second search are closed under going to the physical node. -/
theorem physicalNode_mem_allNodes {machines : Machines} {nodes : List ℕ}
    (hphys : ∀ node ∈ nodes, machines.physicalNode node = node) :
    ∀ node ∈ allNodes machines nodes, machines.physicalNode node ∈ allNodes machines nodes := by
  intro node hnode
  rcases List.mem_append.mp hnode with h | h
  · rw [hphys node h]
    exact hnode
  · obtain ⟨owner, howner, hslave⟩ := List.mem_flatMap.mp h
    rw [machines.physicalNode_of_slave owner (hphys owner howner) node hslave]
    exact List.mem_append_left _ howner

/-- A check that turns the job down leaves nothing on the nodes and in the schedule, exactly
if the last attempt takes no node on each of the paths that do not clean both. -/
theorem checkNodespec_noTrace_iff (job : NodespecJob) (machines : Machines)
    (answers again later : Answers) {ninfoArr : List ℕ}
    (hphys : ∀ node ∈ ninfoArr, machines.physicalNode node = node) {s : Assigned}
    (hs : AllClean s) :
    (∀ code s', checkNodespec job machines answers again later ninfoArr s = .ok (code, s') →
        code ≠ .success → code ≠ jobScheduled → NoTrace ninfoArr s') ↔
      NothingTaken job machines answers again
        (ninfoArr.filter (suitableForJob job answers)) s := by
  unfold checkNodespec
  dsimp only
  set nodes := ninfoArr.filter (suitableForJob job answers) with hnodes
  have hsub : ∀ node ∈ nodes, node ∈ ninfoArr := fun node h => (List.mem_filter.mp h).1
  have hphys' : ∀ node ∈ nodes, machines.physicalNode node = node :=
    fun node h => hphys node (hsub node h)
  have hleft : Left job machines answers nodes s (places job nodes).getLast?
      (findNodes job machines answers nodes s) :=
    findNodes_left (fun node h => (hphys' node h).symm ▸ h) hs
  have hcodes : requestNotMatched ≠ .success ∧ requestNotMatched ≠ jobScheduled ∧
      nodespecNotEnoughNodesTotal ≠ .success ∧ nodespecNotEnoughNodesTotal ≠ jobScheduled := by
    decide
  -- the second search starts where the first one did, because of the clean-up
  have hclean : (((findNodes job machines answers nodes s).2.preassignClean
      ninfoArr).clearSchedule) = s :=
    (allClean_cleaned hsub hleft.outside).eq hs hleft.cost
  have hagain : Left job machines again (allNodes machines nodes) s _ _ :=
    findNodes_left (physicalNode_mem_allNodes hphys') hs
  rw [hclean]
  have hall : nodes ++ nodes.flatMap machines.slaveNodes = allNodes machines nodes := rfl
  rw [hall]
  constructor
  · intro h
    refine ⟨?_, ?_, ?_⟩
    · intro hanswer
      rw [hanswer] at h
      have := h _ _ rfl hcodes.1 hcodes.2.1
      exact (hleft.taken (by rw [hanswer]; simp)).mp this.schedule
    · intro hanswer hadmin
      rw [hanswer, hadmin] at h
      have := h _ _ rfl hcodes.2.2.1 hcodes.2.2.2
      exact (hleft.noTrace_iff (by rw [hanswer]; simp) ninfoArr).mp this
    · intro hanswer hadmin hstarving hoccupied
      rw [hanswer, hadmin, hstarving, hoccupied] at h
      have := h _ _ rfl hcodes.2.2.1 hcodes.2.2.2
      exact (hagain.noTrace_iff (by rw [hoccupied]; simp) ninfoArr).mp this
  · intro h code s' hrun hsuccess hscheduled
    -- by the answer of the first search
    cases hanswer : (findNodes job machines answers nodes s).1 with
    | nonFit =>
        rw [hanswer] at hrun
        cases hrun
        exact noTrace_of_clean (fun node hnode => if_pos hnode)
          ((hleft.taken (by rw [hanswer]; simp)).mpr (h.nonFit hanswer))
    | available =>
        rw [hanswer] at hrun
        obtain ⟨⟨cost, s''⟩, _, hrun⟩ := bind_ok.mp hrun
        cases hrun
        exact absurd rfl hsuccess
    | occupied =>
        rw [hanswer] at hrun
        cases hadmin : job.isAdminQueue with
        | true =>
            rw [hadmin] at hrun
            cases hrun
            exact (hleft.noTrace_iff (by rw [hanswer]; simp) ninfoArr).mpr
              (h.adminQueue hanswer hadmin)
        | false =>
            rw [hadmin] at hrun
            cases hstarving : job.isStarving with
            | true =>
                rw [hstarving] at hrun
                dsimp only at hrun
                by_cases hoccupied :
                    (findNodes job machines again (allNodes machines nodes) s).1 = .occupied
                · rw [if_neg Bool.false_ne_true, if_pos rfl, if_pos hoccupied] at hrun
                  cases hrun
                  exact (hagain.noTrace_iff (by rw [hoccupied]; simp) ninfoArr).mpr
                    (h.starving hanswer hadmin hstarving hoccupied)
                · rw [if_neg Bool.false_ne_true, if_pos rfl, if_neg hoccupied] at hrun
                  cases hrun
                  exact absurd rfl hscheduled
            | false =>
                rw [hstarving] at hrun
                cases hrun
                exact noTrace_of_clean (fun node _ => hs.assigns node) hs.schedule

/-- Each node is busy. -/
def busy : Answers :=
  { onlyBoot with
    canRunJob := fun _ => .occupied
    canFitJobForRun := fun _ _ => ⟨.occupied, none, none⟩
    canFitJobForBoot := fun _ _ => ⟨.occupied, none, none⟩ }

/-- A job that waits for a busy node leaves nothing. -/
theorem checkNodespec_noTrace_busy :
    ∃ s', checkNodespec exclusiveJob fourCores busy busy busy [0] Assigned.initial
        = .ok (nodespecNotEnoughNodesTotal, s') ∧ NoTrace [0] s' := by
  have hsearch : findNodes exclusiveJob fourCores busy [0] Assigned.initial
      = (.occupied, Assigned.initial) := by
    have hreboot : filterReboot exclusiveJob fourCores busy [0] onePart Assigned.initial
        = [0] := by decide
    show tryAssignSpec exclusiveJob fourCores busy [0] [onePart] Assigned.initial = _
    rw [tryAssignSpec, uniqueNames, hreboot, List.mergeSort_singleton]
    rfl
  have hcheck : checkNodespec exclusiveJob fourCores busy busy busy [0] Assigned.initial
      = .ok (nodespecNotEnoughNodesTotal,
          (Assigned.initial.preassignClean [0]).clearSchedule) := by
    have hnodes : [0].filter (suitableForJob exclusiveJob busy) = [0] := by decide
    unfold checkNodespec
    rw [hnodes]
    dsimp only
    rw [hsearch]
    rfl
  exact ⟨_, hcheck, (checkNodespec_noTrace_iff exclusiveJob fourCores busy busy busy
    (fun node (_ : node ∈ [0]) => rfl) (s := Assigned.initial) ⟨fun _ => rfl, rfl⟩).mpr
    ⟨fun _ => by decide, fun _ _ => by decide, fun _ _ _ _ => by decide⟩ _ _ hcheck
    (by decide) (by decide)⟩

/-! ### A part with too many nodes behind one with enough -/

/-- A job that asks for one node, and for two more. -/
def twoPartJob : NodespecJob :=
  { exclusiveJob with
    isExclusive := false, parsedNodespec := [onePart, { onePart with nodeCount := 2 }] }

/-- Each node can be used. -/
def allFit : Answers :=
  { onlyBoot with
    canRunJob := fun _ => .available
    canFitJobForRun := fun _ _ => ⟨.available, none, none⟩ }

/-- There is one node only: the job never fits, and the node of its first part stays in the
schedule. -/
theorem nonFit_leaves_schedule :
    (∀ node ∈ [0], fourCores.physicalNode node = node) ∧ AllClean Assigned.initial ∧
    ¬ ∀ code s', checkNodespec twoPartJob fourCores allFit allFit allFit [0] Assigned.initial
        = .ok (code, s') → code ≠ .success → code ≠ jobScheduled → NoTrace [0] s' := by
  refine ⟨fun _ _ => rfl, ⟨fun _ => rfl, rfl⟩, ?_⟩
  have hsearch : findNodes twoPartJob fourCores allFit [0] Assigned.initial
      = (.nonFit, Assigned.initial.set 0 onePart .scratchNone none) := by
    have hreboot : filterReboot twoPartJob fourCores allFit [0] onePart Assigned.initial
        = [0] := by decide
    show tryAssignSpec twoPartJob fourCores allFit [0] [onePart, { onePart with nodeCount := 2 }]
      Assigned.initial = _
    rw [tryAssignSpec, uniqueNames, hreboot, List.mergeSort_singleton]
    rfl
  have hcheck : checkNodespec twoPartJob fourCores allFit allFit allFit [0] Assigned.initial
      = .ok (requestNotMatched,
          (Assigned.initial.set 0 onePart .scratchNone none).preassignClean [0]) := by
    have hnodes : [0].filter (suitableForJob twoPartJob allFit) = [0] := by decide
    unfold checkNodespec
    rw [hnodes]
    dsimp only
    rw [hsearch]
  intro h
  have := (h _ _ hcheck (by decide) (by decide)).schedule
  cases this

end PlanSched.Nodespec
