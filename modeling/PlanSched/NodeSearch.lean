/-
# The search for the earliest node

`find_earliest_node` (`plan_operations.cpp`) goes once through the slot table to find,
for a job that wants whole nodes, the node that is free first.  It keeps a running
maximum of the node at hand and compares it with the best one when the node changes
or the table ends.

The scan skips slots, so what it meets are runs of slots of one node (`runsOf`).  Its
running maximum is not the latest time of the run: the slot with which a run begins
closes the run before it and is not counted itself (`observed`), and the last run is
closed only if the table's last slot continues it (`considered`).  `findEarliestNode_eq`
says that the result is the last minimum of what is observed, and
`findEarliestNode_exact_iff` under which condition on the table this is the node that
is free first.
-/
import PlanSched.Selection

namespace PlanSched

open CheckedRun

/-! ## What is asked for -/

/-- The slot has none of the three marks that rule it out. -/
def SlotAvailability.unmarked (a : SlotAvailability) : Prop :=
  a ≠ .notEnoughMem ∧ a ≠ .availBefore ∧ a ≠ .walltimeLimit

instance (a : SlotAvailability) : Decidable a.unmarked := inferInstanceAs (Decidable (_ ∧ _))

/-- Node `n` has enough cores, is in service and was not chosen before. -/
def nodeUsable (cluster : PlanCluster) (job : PlanJob) (chosen : List (Option ℕ)) (n : ℕ) : Prop :=
  some n ∉ chosen ∧
    ∃ ninfo ∈ cluster.nodes[n]?, job.reqPpn ≤ ninfo.coresTotal ∧ ninfo.isOut = false

instance (cluster : PlanCluster) (job : PlanJob) (chosen : List (Option ℕ)) (n : ℕ) :
    Decidable (nodeUsable cluster job chosen n) :=
  inferInstanceAs (Decidable (_ ∧ _))

/-- The node has slots in the table, is usable, and no slot of it is marked. -/
def Eligible (cluster : PlanCluster) (job : PlanJob) (chosen : List (Option ℕ))
    (table : List (FirstFreeSlot × SlotAvailability)) (n : ℕ) : Prop :=
  nodeUsable cluster job chosen n ∧ (∃ entry ∈ table, entry.1.ninfo = n) ∧
    ∀ entry ∈ table, entry.1.ninfo = n → entry.2.unmarked

instance (cluster : PlanCluster) (job : PlanJob) (chosen : List (Option ℕ))
    (table : List (FirstFreeSlot × SlotAvailability)) (n : ℕ) :
    Decidable (Eligible cluster job chosen table n) :=
  inferInstanceAs (Decidable (_ ∧ _))

/-- The latest time of the slots of node `n`: from then on the whole node is free. -/
def latestSlot (table : List (FirstFreeSlot × SlotAvailability)) (n : ℕ) : ℤ :=
  ((table.filter (fun entry => entry.1.ninfo = n)).map (fun entry => entry.1.time)).max?.getD 0

/-- The answer is exact: if an eligible node is free before the year 2199, the node is
an eligible one with the least latest slot time and the time is that time; otherwise
the time says that there is none. -/
def ExactSearch (cluster : PlanCluster) (job : PlanJob) (chosen : List (Option ℕ))
    (table : List (FirstFreeSlot × SlotAvailability)) (node : Option ℕ) (time : ℤ) : Prop :=
  ((∃ n, Eligible cluster job chosen table n ∧ latestSlot table n < NO_NODE_TIME) →
    ∃ n, node = some n ∧ Eligible cluster job chosen table n ∧ time = latestSlot table n ∧
      ∀ n', Eligible cluster job chosen table n' → latestSlot table n ≤ latestSlot table n') ∧
  ((¬ ∃ n, Eligible cluster job chosen table n ∧ latestSlot table n < NO_NODE_TIME) →
    time = NO_NODE_TIME)

/-- The time at which the first eligible node is free, at most the year 2199. -/
def earliestFree (cluster : PlanCluster) (job : PlanJob) (chosen : List (Option ℕ))
    (table : List (FirstFreeSlot × SlotAvailability)) : ℤ :=
  (((table.map (fun entry => entry.1.ninfo)).filter
    (Eligible cluster job chosen table ·)).map (latestSlot table)).foldr min NO_NODE_TIME

/-! ## What the scan observes -/

/-- The loop does not skip the slot. -/
def scanned (cluster : PlanCluster) (job : PlanJob) (chosen : List (Option ℕ))
    (entry : FirstFreeSlot × SlotAvailability) : Prop :=
  nodeUsable cluster job chosen entry.1.ninfo ∧ entry.2.unmarked

instance (cluster : PlanCluster) (job : PlanJob) (chosen : List (Option ℕ)) :
    DecidablePred (scanned cluster job chosen) :=
  fun _ => inferInstanceAs (Decidable (_ ∧ _))

/-- The slots the loop does not skip, each with its node and its time. -/
def scannedSlots (cluster : PlanCluster) (job : PlanJob) (chosen : List (Option ℕ))
    (table : List (FirstFreeSlot × SlotAvailability)) : List (ℕ × ℤ) :=
  (table.filter (scanned cluster job chosen ·)).map (fun entry => (entry.1.ninfo, entry.1.time))

/-- The runs of slots of one node, each with the times of its slots. -/
def runsOf : List (ℕ × ℤ) → List (ℕ × List ℤ)
  | [] => []
  | slot :: rest =>
      match runsOf rest with
      | [] => [(slot.1, [slot.2])]
      | run :: runs =>
          if slot.1 = run.1 then (slot.1, slot.2 :: run.2) :: runs
          else (slot.1, [slot.2]) :: run :: runs

/-- The latest time of the slots, at least `0`. -/
def latestOf (times : List ℤ) : ℤ := times.foldl max 0

/-- The node of every run with the time the scan observes for it: the first slot is
not counted, except in the first run. -/
def observed : List (ℕ × List ℤ) → List (ℕ × ℤ)
  | [] => []
  | first :: runs =>
      (first.1, latestOf first.2) :: runs.map (fun run => (run.1, latestOf run.2.tail))

/-- The table's last slot is scanned and continues a run, or is the only one scanned:
then the last run is closed. -/
def closesLast (cluster : PlanCluster) (job : PlanJob) (chosen : List (Option ℕ))
    (table : List (FirstFreeSlot × SlotAvailability)) : Prop :=
  ∃ entry ∈ table.getLast?, scanned cluster job chosen entry ∧
    ∀ before ∈ (scannedSlots cluster job chosen table.dropLast).getLast?,
      before.1 = entry.1.ninfo

instance (cluster : PlanCluster) (job : PlanJob) (chosen : List (Option ℕ))
    (table : List (FirstFreeSlot × SlotAvailability)) :
    Decidable (closesLast cluster job chosen table) :=
  inferInstanceAs (Decidable (∃ entry ∈ table.getLast?, scanned cluster job chosen entry ∧
    ∀ before ∈ (scannedSlots cluster job chosen table.dropLast).getLast?,
      before.1 = entry.1.ninfo))

/-- The runs that are compared with each other. -/
def considered (cluster : PlanCluster) (job : PlanJob) (chosen : List (Option ℕ))
    (table : List (FirstFreeSlot × SlotAvailability)) : List (ℕ × ℤ) :=
  let runs := observed (runsOf (scannedSlots cluster job chosen table))
  if closesLast cluster job chosen table then runs else runs.dropLast

/-- The scan is not misled: no run it compares appears to be free before the first
eligible node is, and the last one that appears to be free with it is an eligible node
that is free by then. -/
structure NotMisled (cluster : PlanCluster) (job : PlanJob) (chosen : List (Option ℕ))
    (table : List (FirstFreeSlot × SlotAvailability)) : Prop where
  not_before : ∀ run ∈ considered cluster job chosen table,
    earliestFree cluster job chosen table ≤ run.2
  last_free : earliestFree cluster job chosen table < NO_NODE_TIME →
    ∃ pre n post, considered cluster job chosen table
        = pre ++ (n, earliestFree cluster job chosen table) :: post ∧
      (∀ run ∈ post, run.2 ≠ earliestFree cluster job chosen table) ∧
      Eligible cluster job chosen table n ∧
      latestSlot table n = earliestFree cluster job chosen table

/-! ## The last minimum -/

/-- The comparison at the end of a run; a tie goes to the later run. -/
def keepEarliest (best run : ℕ × ℤ) : ℕ × ℤ := if run.2 ≤ best.2 then run else best

/-- The result of all comparisons is the last run with the least time, or the start
value if that is earlier than all. -/
theorem foldl_keepEarliest (runs : List (ℕ × ℤ)) :
    ∀ best, (runs.foldl keepEarliest best = best ∧ ∀ run ∈ runs, best.2 < run.2) ∨
      ∃ pre post, runs = pre ++ runs.foldl keepEarliest best :: post ∧
        (runs.foldl keepEarliest best).2 ≤ best.2 ∧
        (∀ run ∈ pre, (runs.foldl keepEarliest best).2 ≤ run.2) ∧
        ∀ run ∈ post, (runs.foldl keepEarliest best).2 < run.2 := by
  induction runs with
  | nil =>
      intro best
      exact Or.inl ⟨rfl, by simp⟩
  | cons run runs ih =>
      intro best
      rw [List.foldl_cons]
      -- a run that is as early as the best one replaces it
      by_cases hle : run.2 ≤ best.2
      · have hkeep : keepEarliest best run = run := if_pos hle
        rw [hkeep]
        right
        rcases ih run with ⟨hsame, hlt⟩ | ⟨pre, post, heq, hbest, hpre, hpost⟩
        · refine ⟨[], runs, ?_, ?_, by simp, ?_⟩
          · rw [hsame]
            rfl
          · rw [hsame]
            exact hle
          · rw [hsame]
            exact hlt
        · refine ⟨run :: pre, post, ?_, by omega, ?_, hpost⟩
          · rw [List.cons_append, ← heq]
          · intro other hother
            rcases List.mem_cons.mp hother with rfl | hother
            · exact hbest
            · exact hpre other hother
      · have hkeep : keepEarliest best run = best := if_neg hle
        rw [hkeep]
        rcases ih best with ⟨hsame, hlt⟩ | ⟨pre, post, heq, hbest, hpre, hpost⟩
        · refine Or.inl ⟨hsame, ?_⟩
          intro other hother
          rcases List.mem_cons.mp hother with rfl | hother
          · omega
          · exact hlt other hother
        · refine Or.inr ⟨run :: pre, post, ?_, hbest, ?_, hpost⟩
          · rw [List.cons_append, ← heq]
          · intro other hother
            rcases List.mem_cons.mp hother with rfl | hother
            · omega
            · exact hpre other hother

/-! ## The scan of a run -/

/-- The body of the loop behind the three tests. -/
def scanStep (last : Bool) (st : EarliestNode) (slot : ℕ × ℤ) : EarliestNode :=
  let bestNode := if st.bestNode = none then some slot.1 else st.bestNode
  let node := if st.node = none then some slot.1 else st.node
  let latest :=
    if node = some slot.1 ∧ st.latestNodeTime < slot.2 then slot.2 else st.latestNodeTime
  if node ≠ some slot.1 ∨ last = true then
    if latest ≤ st.overallEarliestTime then ⟨some slot.1, node, latest, 0⟩
    else ⟨some slot.1, bestNode, st.overallEarliestTime, 0⟩
  else ⟨node, bestNode, st.overallEarliestTime, latest⟩

/-- A pass of the loop skips the slot or runs its body. -/
theorem findEarliestStep_eq {cluster : PlanCluster} {job : PlanJob} {chosen : List (Option ℕ)}
    {entry : FirstFreeSlot × SlotAvailability} (hnode : entry.1.ninfo < cluster.nodes.length)
    (last i : ℕ) (st : EarliestNode) :
    findEarliestStep cluster job chosen last st (entry, i)
      = .ok (if scanned cluster job chosen entry
          then scanStep (i = last) st (entry.1.ninfo, entry.1.time) else st) := by
  have hget : cluster.nodes[entry.1.ninfo]? = some cluster.nodes[entry.1.ninfo] :=
    List.getElem?_eq_getElem hnode
  have husable : nodeUsable cluster job chosen entry.1.ninfo ↔
      some entry.1.ninfo ∉ chosen ∧ job.reqPpn ≤ cluster.nodes[entry.1.ninfo].coresTotal ∧
        cluster.nodes[entry.1.ninfo].isOut = false := by
    unfold nodeUsable
    rw [hget]
    simp
  unfold findEarliestStep
  dsimp only
  rw [getAt_ok.mpr hget]
  refine bind_ok.mpr ⟨_, rfl, ?_⟩
  -- the three tests of the body, in their order
  by_cases hcores : cluster.nodes[entry.1.ninfo].coresTotal < job.reqPpn ∨
      cluster.nodes[entry.1.ninfo].isOut = true
  · rw [if_pos hcores, if_neg]
    · rfl
    · rintro ⟨h, -⟩
      obtain ⟨-, hle, hin⟩ := husable.mp h
      rcases hcores with h | h
      · omega
      · rw [hin] at h
        cases h
  · rw [if_neg hcores]
    by_cases hmark : entry.2 = .notEnoughMem ∨ entry.2 = .availBefore ∨ entry.2 = .walltimeLimit
    · rw [if_pos hmark, if_neg]
      · rfl
      · rintro ⟨-, h₁, h₂, h₃⟩
        rcases hmark with h | h | h
        · exact h₁ h
        · exact h₂ h
        · exact h₃ h
    · rw [if_neg hmark]
      by_cases hchosen : chosen.contains (some entry.1.ninfo) = true
      · rw [if_pos hchosen, if_neg]
        · rfl
        · rintro ⟨h, -⟩
          exact (husable.mp h).1 (by simpa using hchosen)
      · have hscan : scanned cluster job chosen entry := by
          refine ⟨husable.mpr ⟨by simpa using hchosen, ?_, ?_⟩, ?_⟩
          · omega
          · simpa using fun h => hcores (Or.inr h)
          · exact ⟨fun h => hmark (Or.inl h), fun h => hmark (Or.inr (Or.inl h)),
              fun h => hmark (Or.inr (Or.inr h))⟩
        rw [if_neg hchosen, if_pos hscan]
        unfold scanStep
        simp only [decide_eq_true_eq, pure, Except.pure]
        split_ifs <;> rfl

/-- While a run lasts the scan takes the maximum. -/
theorem foldl_scanStep_same (n : ℕ) (best : Option ℕ) (overall : ℤ) (hbest : best ≠ none)
    (times : List ℤ) :
    ∀ latest, (times.map (fun t => (n, t))).foldl (scanStep false) ⟨some n, best, overall, latest⟩
      = ⟨some n, best, overall, times.foldl max latest⟩ := by
  induction times with
  | nil =>
      intro latest
      rfl
  | cons t times ih =>
      intro latest
      have hstep : scanStep false ⟨some n, best, overall, latest⟩ (n, t)
          = ⟨some n, best, overall, max latest t⟩ := by
        unfold scanStep
        simp only [hbest, if_false, reduceCtorEq, ne_eq, not_true, Bool.false_eq_true, or_self,
          true_and]
        congr 1
        split
        · omega
        · omega
      rw [List.map_cons, List.foldl_cons, hstep, List.foldl_cons]
      exact ih _

/-- The slot of another node closes the run at hand and is itself not counted. -/
theorem scanStep_other {m n : ℕ} (hne : m ≠ n) (last : Bool) (best : ℕ × ℤ) (latest t : ℤ) :
    scanStep last ⟨some m, some best.1, best.2, latest⟩ (n, t)
      = ⟨some n, some (keepEarliest best (m, latest)).1, (keepEarliest best (m, latest)).2, 0⟩ := by
  unfold scanStep keepEarliest
  have hmn : ¬ (some m = some n) := fun h => hne (Option.some.inj h)
  simp only [reduceCtorEq, if_false, hmn, false_and, ne_eq, not_false_eq_true, true_or, if_true]
  split
  · rfl
  · rfl

/-- Runs are not empty and neighbours belong to different nodes. -/
structure IsRuns (runs : List (ℕ × List ℤ)) : Prop where
  ne_nil : ∀ run ∈ runs, run.2 ≠ []
  chain : runs.IsChain (fun a b => a.1 ≠ b.1)

/-- The slots of the runs, one after the other. -/
def slotsOfRuns (runs : List (ℕ × List ℤ)) : List (ℕ × ℤ) :=
  runs.flatMap (fun run => run.2.map (fun t => (run.1, t)))

/-- `runsOf` cuts a list into runs. -/
theorem runsOf_spec (slots : List (ℕ × ℤ)) :
    slotsOfRuns (runsOf slots) = slots ∧ IsRuns (runsOf slots) := by
  induction slots with
  | nil => exact ⟨rfl, ⟨by simp [runsOf], by simp [runsOf]⟩⟩
  | cons slot rest ih =>
      obtain ⟨hslots, hruns⟩ := ih
      rw [runsOf]
      -- the slot joins the first run of the rest, or begins one of its own
      cases hrest : runsOf rest with
      | nil =>
          rw [hrest] at hslots
          dsimp only
          refine ⟨?_, ⟨by simp, by simp⟩⟩
          rw [← hslots]
          rfl
      | cons run runs =>
          rw [hrest] at hslots hruns
          dsimp only
          split
          · next heq =>
              refine ⟨?_, ⟨?_, ?_⟩⟩
              · rw [← hslots]
                simp [slotsOfRuns, ← heq]
              · intro other hother
                rcases List.mem_cons.mp hother with rfl | hother
                · simp
                · exact hruns.ne_nil other (List.mem_cons_of_mem _ hother)
              · have hchain := hruns.chain
                cases runs with
                | nil => simp
                | cons next runs =>
                    rw [List.isChain_cons_cons] at hchain ⊢
                    refine ⟨?_, hchain.2⟩
                    show slot.1 ≠ next.1
                    rw [heq]
                    exact hchain.1
          · next hne =>
              refine ⟨?_, ⟨?_, ?_⟩⟩
              · rw [← hslots]
                simp [slotsOfRuns]
              · intro other hother
                rcases List.mem_cons.mp hother with rfl | hother
                · simp
                · exact hruns.ne_nil other hother
              · rw [List.isChain_cons_cons]
                exact ⟨hne, hruns.chain⟩

/-- Cutting the slots of runs gives the runs back. -/
theorem runsOf_slotsOfRuns (runs : List (ℕ × List ℤ)) :
    IsRuns runs → runsOf (slotsOfRuns runs) = runs := by
  induction runs with
  | nil =>
      intro _
      rfl
  | cons run runs ih =>
      intro h
      obtain ⟨n, times⟩ := run
      have hrest : IsRuns runs :=
        ⟨fun run hrun => h.ne_nil run (List.mem_cons_of_mem _ hrun), h.chain.tail⟩
      have hhead : ∀ next ∈ runs.head?, n ≠ next.1 := by
        intro next hnext
        cases runs with
        | nil => cases hnext
        | cons first runs =>
            cases hnext
            exact (List.isChain_cons_cons.mp h.chain).1
      -- inside a run the slots join one by one
      have hrun : ∀ (ts : List ℤ) (t : ℤ),
          runsOf (slotsOfRuns ((n, t :: ts) :: runs)) = (n, t :: ts) :: runs := by
        intro ts
        induction ts with
        | nil =>
            intro t
            have hslots : slotsOfRuns ((n, [t]) :: runs) = (n, t) :: slotsOfRuns runs := rfl
            rw [hslots, runsOf, ih hrest]
            cases runs with
            | nil => rfl
            | cons first runs =>
                dsimp only
                rw [if_neg (hhead first rfl)]
        | cons t' ts ihts =>
            intro t
            have hslots : slotsOfRuns ((n, t :: t' :: ts) :: runs)
                = (n, t) :: slotsOfRuns ((n, t' :: ts) :: runs) := rfl
            rw [hslots, runsOf, ihts t']
            dsimp only
            rw [if_pos rfl]
      cases htimes : times with
      | nil => exact absurd htimes (h.ne_nil (n, times) List.mem_cons_self)
      | cons t ts => exact hrun ts t

/-! ## The scan of all runs -/

/-- The variables of the loop when the runs `runs` have been observed and the last of
them is still open; `best` is the best run before them. -/
def openState (best : ℕ × ℤ) : List (ℕ × ℤ) → EarliestNode
  | [] => ⟨none, none, NO_NODE_TIME, 0⟩
  | [run] => ⟨some run.1, some best.1, best.2, run.2⟩
  | run :: next :: runs => openState (keepEarliest best run) (next :: runs)

/-- In the open state all runs but the last were compared. -/
theorem openState_fields (run : ℕ × ℤ) (runs : List (ℕ × ℤ)) :
    ∀ best, ∃ last, openState best (run :: runs) = ⟨some last.1,
        some ((run :: runs).dropLast.foldl keepEarliest best).1,
        ((run :: runs).dropLast.foldl keepEarliest best).2, last.2⟩ ∧
      (run :: runs).foldl keepEarliest best
        = keepEarliest ((run :: runs).dropLast.foldl keepEarliest best) last := by
  induction runs generalizing run with
  | nil =>
      intro best
      exact ⟨run, rfl, rfl⟩
  | cons next runs ih =>
      intro best
      obtain ⟨last, hstate, hfold⟩ := ih next (keepEarliest best run)
      refine ⟨last, ?_, ?_⟩
      · rw [openState, hstate]
        rfl
      · rw [List.foldl_cons, hfold]
        rfl

/-- Scanning further runs: each closes the one before it. -/
theorem foldl_scanStep_runs (runs : List (ℕ × List ℤ)) :
    ∀ (m : ℕ) (times : List ℤ) (latest : ℤ) (best : ℕ × ℤ), IsRuns ((m, times) :: runs) →
      (slotsOfRuns runs).foldl (scanStep false) ⟨some m, some best.1, best.2, latest⟩
        = openState best
          ((m, latest) :: runs.map (fun run => (run.1, latestOf run.2.tail))) := by
  induction runs with
  | nil =>
      intro m times latest best _
      rfl
  | cons run runs ih =>
      intro m times latest best hruns
      obtain ⟨n, times'⟩ := run
      have hne : m ≠ n := (List.isChain_cons_cons.mp hruns.chain).1
      have hrest : IsRuns ((n, times') :: runs) :=
        ⟨fun run hrun => hruns.ne_nil run (List.mem_cons_of_mem _ hrun),
          (List.isChain_cons_cons.mp hruns.chain).2⟩
      cases htimes : times' with
      | nil => exact absurd htimes (hruns.ne_nil (n, times') (by simp))
      | cons t ts =>
          rw [htimes] at hrest
          have hslots : slotsOfRuns ((n, t :: ts) :: runs)
              = (n, t) :: (ts.map (fun t => (n, t)) ++ slotsOfRuns runs) := by
            simp [slotsOfRuns]
          rw [hslots, List.foldl_cons, scanStep_other hne, List.foldl_append,
            foldl_scanStep_same n _ _ (by simp), ih n (t :: ts) _ _ hrest]
          rfl

/-- The scan of a list of slots, the last run left open. -/
theorem foldl_scanStep (first : ℕ × ℤ) (rest : List (ℕ × ℤ)) :
    (first :: rest).foldl (scanStep false) ⟨none, none, NO_NODE_TIME, 0⟩
      = openState (first.1, NO_NODE_TIME) (observed (runsOf (first :: rest))) := by
  obtain ⟨hslots, hruns⟩ := runsOf_spec (first :: rest)
  cases hcut : runsOf (first :: rest) with
  | nil =>
      rw [hcut] at hslots
      cases hslots
  | cons run runs =>
      rw [hcut] at hslots hruns
      obtain ⟨n, times⟩ := run
      cases htimes : times with
      | nil => exact absurd htimes (hruns.ne_nil (n, times) (by simp))
      | cons t ts =>
          rw [htimes] at hslots hruns
          have hcons : (n, t) :: (ts.map (fun t => (n, t)) ++ slotsOfRuns runs)
              = first :: rest := by
            rw [← hslots]
            simp [slotsOfRuns]
          obtain ⟨hfirst, hrest⟩ := List.cons.inj hcons
          -- the first slot of all opens its run and is counted
          have hopen : scanStep false ⟨none, none, NO_NODE_TIME, 0⟩ first
              = ⟨some n, some n, NO_NODE_TIME, max 0 t⟩ := by
            rw [← hfirst]
            unfold scanStep
            simp only [if_true, ne_eq, not_true, Bool.false_eq_true, or_self, if_false, true_and]
            congr 1
            split
            · omega
            · omega
          rw [List.foldl_cons, hopen, ← hrest, List.foldl_append,
            foldl_scanStep_same n _ _ (by simp), ← hfirst]
          exact foldl_scanStep_runs runs n (t :: ts) _ (n, NO_NODE_TIME) hruns

/-! ## The end of the table -/

/-- The scan always remembers the node of the slot it met last. -/
theorem scanStep_node (last : Bool) (st : EarliestNode) (slot : ℕ × ℤ) :
    (scanStep last st slot).node = some slot.1 := by
  unfold scanStep
  dsimp only
  split_ifs with h₁ h₂ h₃ h₄ h₅
  all_goals first | rfl | simp_all

/-- The table's last slot begins a run: it is treated like any other. -/
theorem scanStep_last_other {st : EarliestNode} {slot : ℕ × ℤ} (hsome : st.node ≠ none)
    (hne : st.node ≠ some slot.1) : scanStep true st slot = scanStep false st slot := by
  unfold scanStep
  simp only [if_neg hsome, hne, ne_eq, not_false_eq_true, true_or, if_true]

/-- The table's last slot continues a run: the run is closed with it. -/
theorem scanStep_last_same {st : EarliestNode} {slot last best : ℕ × ℤ}
    (hsame : st.node = none ∨ st.node = some slot.1)
    (hopen : scanStep false st slot = ⟨some last.1, some best.1, best.2, last.2⟩) :
    (scanStep true st slot).bestNode = some (keepEarliest best last).1 ∧
      (scanStep true st slot).overallEarliestTime = (keepEarliest best last).2 := by
  have hnode : (if st.node = none then some slot.1 else st.node) = some slot.1 := by
    rcases hsame with h | h
    · rw [if_pos h]
    · rw [if_neg (by rw [h]; simp), h]
  unfold scanStep at hopen ⊢
  simp only [hnode, ne_eq, not_true, Bool.false_eq_true, or_self, if_false, or_true, if_true,
    EarliestNode.mk.injEq] at hopen ⊢
  obtain ⟨hlast, hbest, hoverall, hlatest⟩ := hopen
  unfold keepEarliest
  rw [hlatest, hoverall]
  split
  · exact ⟨hlast, rfl⟩
  · exact ⟨hbest, rfl⟩

/-- The slots in front of the last one. -/
theorem foldlM_findEarliestStep {cluster : PlanCluster} {job : PlanJob} {chosen : List (Option ℕ)}
    (last : ℕ) (table : List (FirstFreeSlot × SlotAvailability)) :
    ∀ (k : ℕ) (st : EarliestNode), k + table.length ≤ last →
      (∀ entry ∈ table, entry.1.ninfo < cluster.nodes.length) →
      (table.zipIdx k).foldlM (findEarliestStep cluster job chosen last) st
        = .ok ((scannedSlots cluster job chosen table).foldl (scanStep false) st) := by
  induction table with
  | nil =>
      intro k st _ _
      rfl
  | cons entry table ih =>
      intro k st hk hnodes
      rw [List.length_cons] at hk
      have hstep := @findEarliestStep_eq cluster job chosen entry
        (hnodes entry List.mem_cons_self) last k st
      have hnotLast : decide (k = last) = false := decide_eq_false (by omega)
      rw [List.zipIdx_cons, List.foldlM_cons, hstep, hnotLast]
      refine bind_ok.mpr ⟨_, rfl, ?_⟩
      rw [ih (k + 1) _ (by omega) (fun e he => hnodes e (List.mem_cons_of_mem _ he))]
      unfold scannedSlots
      by_cases hscan : scanned cluster job chosen entry
      · rw [if_pos hscan, List.filter_cons_of_pos (by simpa using hscan), List.map_cons,
          List.foldl_cons]
      · rw [if_neg hscan, List.filter_cons_of_neg (by simpa using hscan)]

/-- The result of the search, from the slots scanned and the runs considered. -/
def searchResult (scannedSlots considered : List (ℕ × ℤ)) : Option ℕ × ℤ :=
  match scannedSlots with
  | [] => (none, NO_NODE_TIME)
  | first :: _ =>
      let best := considered.foldl keepEarliest (first.1, NO_NODE_TIME)
      (some best.1, best.2)

/-- With the last run open, the result is that of the runs before it. -/
theorem foldl_scanStep_result (slots : List (ℕ × ℤ)) :
    ((slots.foldl (scanStep false) ⟨none, none, NO_NODE_TIME, 0⟩).bestNode,
      (slots.foldl (scanStep false) ⟨none, none, NO_NODE_TIME, 0⟩).overallEarliestTime)
      = searchResult slots (observed (runsOf slots)).dropLast := by
  cases slots with
  | nil => rfl
  | cons first rest =>
      rw [foldl_scanStep]
      cases hruns : observed (runsOf (first :: rest)) with
      | nil =>
          have hspec := (runsOf_spec (first :: rest)).1
          cases hcut : runsOf (first :: rest) with
          | nil =>
              rw [hcut] at hspec
              cases hspec
          | cons run runs =>
              rw [hcut] at hruns
              cases hruns
      | cons run runs =>
          obtain ⟨last, hstate, -⟩ := openState_fields run runs (first.1, NO_NODE_TIME)
          rw [hstate]
          rfl

/-- With the last run closed, the result is that of all runs. -/
theorem scanStep_last_result {front : List (ℕ × ℤ)} {slot : ℕ × ℤ}
    (hsame : ∀ before ∈ front.getLast?, before.1 = slot.1) :
    ((scanStep true (front.foldl (scanStep false) ⟨none, none, NO_NODE_TIME, 0⟩) slot).bestNode,
      (scanStep true (front.foldl (scanStep false) ⟨none, none, NO_NODE_TIME, 0⟩)
        slot).overallEarliestTime)
      = searchResult (front ++ [slot]) (observed (runsOf (front ++ [slot]))) := by
  have hnode : (front.foldl (scanStep false) ⟨none, none, NO_NODE_TIME, 0⟩).node = none ∨
      (front.foldl (scanStep false) ⟨none, none, NO_NODE_TIME, 0⟩).node = some slot.1 := by
    rcases List.eq_nil_or_concat' front with rfl | ⟨front, before, rfl⟩
    · exact Or.inl rfl
    · right
      rw [List.foldl_append, List.foldl_cons, List.foldl_nil, scanStep_node,
        hsame before (by simp)]
  cases hslots : front ++ [slot] with
  | nil => simp at hslots
  | cons first rest =>
      have hopen := foldl_scanStep first rest
      rw [← hslots, List.foldl_append, List.foldl_cons, List.foldl_nil] at hopen
      cases hruns : observed (runsOf (front ++ [slot])) with
      | nil =>
          rw [hruns] at hopen
          have hlast := scanStep_node false
            (front.foldl (scanStep false) ⟨none, none, NO_NODE_TIME, 0⟩) slot
          rw [hopen] at hlast
          cases hlast
      | cons run runs =>
          rw [hruns] at hopen
          obtain ⟨last, hstate, hfold⟩ := openState_fields run runs (first.1, NO_NODE_TIME)
          rw [hstate] at hopen
          obtain ⟨hbest, htime⟩ := scanStep_last_same hnode hopen
          rw [hbest, htime, ← hfold, ← hslots, hruns]
          rw [hslots]
          rfl

/-- Where the last slot begins a run, the last run stays open. -/
theorem scanStep_last_open {front : List (ℕ × ℤ)} {slot : ℕ × ℤ}
    (hother : ¬ ∀ before ∈ front.getLast?, before.1 = slot.1) :
    scanStep true (front.foldl (scanStep false) ⟨none, none, NO_NODE_TIME, 0⟩) slot
      = (front ++ [slot]).foldl (scanStep false) ⟨none, none, NO_NODE_TIME, 0⟩ := by
  rw [List.foldl_append, List.foldl_cons, List.foldl_nil]
  rcases List.eq_nil_or_concat' front with rfl | ⟨front, before, rfl⟩
  · exact absurd (by simp) hother
  · have hne : before.1 ≠ slot.1 := by
      intro heq
      exact hother (by simpa using heq)
    refine scanStep_last_other ?_ ?_
    · rw [List.foldl_append, List.foldl_cons, List.foldl_nil, scanStep_node]
      simp
    · rw [List.foldl_append, List.foldl_cons, List.foldl_nil, scanStep_node]
      simpa using hne

/-- **What the scan returns**: the last of the considered runs with the least observed
time, if that is at most the year 2199, else the first node scanned. -/
theorem findEarliestNode_eq {cluster : PlanCluster} {job : PlanJob} {chosen : List (Option ℕ)}
    {slots : List FirstFreeSlot} {avail : List SlotAvailability}
    (hlength : avail.length = slots.length)
    (hnodes : ∀ slot ∈ slots, slot.ninfo < cluster.nodes.length) :
    findEarliestNode cluster job chosen slots avail
      = .ok (searchResult (scannedSlots cluster job chosen (slots.zip avail))
          (considered cluster job chosen (slots.zip avail))) := by
  have hsize : (slots.zip avail).length = slots.length := by
    rw [List.length_zip, hlength, Nat.min_self]
  have hnodes' : ∀ entry ∈ slots.zip avail, entry.1.ninfo < cluster.nodes.length :=
    fun entry hentry => hnodes entry.1 (List.of_mem_zip hentry).1
  unfold findEarliestNode
  rw [← hsize]
  generalize slots.zip avail = table at hnodes'
  rcases List.eq_nil_or_concat' table with rfl | ⟨front, entry, rfl⟩
  · rfl
  · have hlen : (front ++ [entry]).length - 1 = front.length := by simp
    have hfront := @foldlM_findEarliestStep cluster job chosen front.length front
      0 ⟨none, none, NO_NODE_TIME, 0⟩ (by simp)
      (fun e he => hnodes' e (List.mem_append_left _ he))
    have hlast := @findEarliestStep_eq cluster job chosen entry
      (hnodes' entry (by simp)) front.length front.length
      ((scannedSlots cluster job chosen front).foldl (scanStep false)
        ⟨none, none, NO_NODE_TIME, 0⟩)
    rw [decide_eq_true rfl] at hlast
    rw [hlen, List.zipIdx_append, List.foldlM_append, hfront, Nat.zero_add]
    refine bind_ok.mpr ⟨_, bind_ok.mpr ⟨_, rfl, bind_ok.mpr ⟨_, hlast, rfl⟩⟩, pure_ok.mpr ?_⟩
    by_cases hscan : scanned cluster job chosen entry
    · have hslots : scannedSlots cluster job chosen (front ++ [entry])
          = scannedSlots cluster job chosen front ++ [(entry.1.ninfo, entry.1.time)] := by
        unfold scannedSlots
        rw [List.filter_append, List.map_append, List.filter_cons_of_pos (by simpa using hscan)]
        rfl
      have hcloses : closesLast cluster job chosen (front ++ [entry]) ↔
          ∀ before ∈ (scannedSlots cluster job chosen front).getLast?,
            before.1 = entry.1.ninfo := by
        unfold closesLast
        simp [hscan]
      rw [if_pos hscan, hslots]
      unfold considered
      dsimp only
      rw [hslots]
      by_cases hsame : ∀ before ∈ (scannedSlots cluster job chosen front).getLast?,
          before.1 = entry.1.ninfo
      · rw [if_pos (hcloses.mpr hsame)]
        exact scanStep_last_result hsame
      · rw [if_neg (fun h => hsame (hcloses.mp h)), scanStep_last_open hsame]
        exact foldl_scanStep_result _
    · -- the last slot is skipped
      have hslots : scannedSlots cluster job chosen (front ++ [entry])
          = scannedSlots cluster job chosen front := by
        unfold scannedSlots
        rw [List.filter_append, List.filter_cons_of_neg (by simpa using hscan), List.filter_nil,
          List.append_nil]
      have hcloses : ¬ closesLast cluster job chosen (front ++ [entry]) := by
        unfold closesLast
        simp [hscan]
      rw [if_neg hscan, hslots]
      unfold considered
      dsimp only
      rw [hslots, if_neg hcloses]
      exact foldl_scanStep_result _

/-! ## When the search is exact -/

/-- `earliestFree` is the least of the year 2199 and the latest slot times of the
eligible nodes. -/
theorem earliestFree_spec (cluster : PlanCluster) (job : PlanJob) (chosen : List (Option ℕ))
    (table : List (FirstFreeSlot × SlotAvailability)) :
    (earliestFree cluster job chosen table = NO_NODE_TIME ∨
      ∃ n, Eligible cluster job chosen table n ∧
        latestSlot table n = earliestFree cluster job chosen table) ∧
    earliestFree cluster job chosen table ≤ NO_NODE_TIME ∧
    ∀ n, Eligible cluster job chosen table n →
      earliestFree cluster job chosen table ≤ latestSlot table n := by
  -- the fold gives the least of the times, or the start value
  have hmin : ∀ (times : List ℤ) (t₀ : ℤ),
      (times.foldr min t₀ = t₀ ∨ times.foldr min t₀ ∈ times) ∧ times.foldr min t₀ ≤ t₀ ∧
        ∀ t ∈ times, times.foldr min t₀ ≤ t := by
    intro times t₀
    induction times with
    | nil => exact ⟨Or.inl rfl, le_rfl, by simp⟩
    | cons t times ih =>
        obtain ⟨hcases, hle, hall⟩ := ih
        rw [List.foldr_cons]
        refine ⟨?_, by omega, ?_⟩
        · rcases min_choice t (times.foldr min t₀) with h | h
          · right
            rw [h]
            exact List.mem_cons_self
          · rw [h]
            rcases hcases with hc | hc
            · exact Or.inl hc
            · exact Or.inr (List.mem_cons_of_mem _ hc)
        · intro t' ht'
          rcases List.mem_cons.mp ht' with rfl | ht'
          · omega
          · have := hall t' ht'
            omega
  have hmem : ∀ t, t ∈ ((table.map (fun entry => entry.1.ninfo)).filter
      (Eligible cluster job chosen table ·)).map (latestSlot table) ↔
        ∃ n, Eligible cluster job chosen table n ∧ latestSlot table n = t := by
    intro t
    rw [List.mem_map]
    constructor
    · rintro ⟨n, hn, rfl⟩
      exact ⟨n, by simpa using (List.mem_filter.mp hn).2, rfl⟩
    · rintro ⟨n, hn, rfl⟩
      refine ⟨n, List.mem_filter.mpr ⟨?_, by simpa using hn⟩, rfl⟩
      obtain ⟨entry, hentry, rfl⟩ := hn.2.1
      exact List.mem_map_of_mem hentry
  obtain ⟨hcases, hle, hall⟩ := hmin _ NO_NODE_TIME
  refine ⟨?_, hle, ?_⟩
  · rcases hcases with h | h
    · exact Or.inl h
    · exact Or.inr ((hmem _).mp h)
  · intro n hn
    exact hall _ ((hmem _).mpr ⟨n, hn, rfl⟩)

/-- The answer is the last considered run with the least observed time, or that there
is none at most the year 2199. -/
theorem searchResult_spec {slots runs : List (ℕ × ℤ)} (hnil : slots = [] → runs = []) :
    ((searchResult slots runs).2 = NO_NODE_TIME ∧ ∀ run ∈ runs, NO_NODE_TIME < run.2) ∨
      ∃ pre n post, runs = pre ++ (n, (searchResult slots runs).2) :: post ∧
        (searchResult slots runs).1 = some n ∧ (searchResult slots runs).2 ≤ NO_NODE_TIME ∧
        (∀ run ∈ runs, (searchResult slots runs).2 ≤ run.2) ∧
        ∀ run ∈ post, (searchResult slots runs).2 < run.2 := by
  cases slots with
  | nil =>
      rw [hnil rfl]
      exact Or.inl ⟨rfl, by simp⟩
  | cons first rest =>
      unfold searchResult
      dsimp only
      rcases foldl_keepEarliest runs (first.1, NO_NODE_TIME) with
        ⟨hsame, hlt⟩ | ⟨pre, post, heq, hbest, hpre, hpost⟩
      · refine Or.inl ⟨?_, hlt⟩
        rw [hsame]
      · refine Or.inr ⟨pre, _, post, heq, rfl, hbest, ?_, hpost⟩
        intro run hrun
        rw [heq] at hrun
        rcases List.mem_append.mp hrun with h | h
        · exact hpre run h
        · rcases List.mem_cons.mp h with rfl | h
          · exact le_rfl
          · exact (hpost run h).le

/-- Where nothing is scanned nothing is considered. -/
theorem considered_of_nil {cluster : PlanCluster} {job : PlanJob} {chosen : List (Option ℕ)}
    {table : List (FirstFreeSlot × SlotAvailability)}
    (h : scannedSlots cluster job chosen table = []) :
    considered cluster job chosen table = [] := by
  unfold considered
  rw [h]
  split
  · rfl
  · rfl

/-- The last run with a given time is determined. -/
theorem last_run_unique {pre pre' post post' : List (ℕ × ℤ)} {n n' : ℕ} {t : ℤ}
    (heq : pre ++ (n, t) :: post = pre' ++ (n', t) :: post') (hpost : ∀ run ∈ post, run.2 ≠ t)
    (hpost' : ∀ run ∈ post', run.2 ≠ t) : n = n' := by
  rcases List.append_eq_append_iff.mp heq with ⟨mid, -, hmid⟩ | ⟨mid, -, hmid⟩
  · cases mid with
    | nil =>
        rw [List.nil_append] at hmid
        exact congrArg Prod.fst (List.cons.inj hmid).1
    | cons run mid =>
        refine absurd rfl (hpost (n', t) ?_)
        rw [(List.cons.inj hmid).2]
        simp
  · cases mid with
    | nil =>
        rw [List.nil_append] at hmid
        exact (congrArg Prod.fst (List.cons.inj hmid).1).symm
    | cons run mid =>
        refine absurd rfl (hpost' (n, t) ?_)
        rw [(List.cons.inj hmid).2]
        simp

/-- **Exactly when the search is exact**: the call always returns, and its answer is the
eligible node that is free first exactly if the scan is not misled. -/
theorem findEarliestNode_exact_iff {cluster : PlanCluster} {job : PlanJob}
    {chosen : List (Option ℕ)} {slots : List FirstFreeSlot} {avail : List SlotAvailability}
    (hlength : avail.length = slots.length)
    (hnodes : ∀ slot ∈ slots, slot.ninfo < cluster.nodes.length) :
    ∃ node time, findEarliestNode cluster job chosen slots avail = .ok (node, time) ∧
      (ExactSearch cluster job chosen (slots.zip avail) node time ↔
        NotMisled cluster job chosen (slots.zip avail)) := by
  refine ⟨(searchResult (scannedSlots cluster job chosen (slots.zip avail))
      (considered cluster job chosen (slots.zip avail))).1,
    (searchResult (scannedSlots cluster job chosen (slots.zip avail))
      (considered cluster job chosen (slots.zip avail))).2,
    findEarliestNode_eq hlength hnodes, ?_⟩
  -- what the scan finds against the least time at which an eligible node is free
  generalize slots.zip avail = table
  have hspec := searchResult_spec (@considered_of_nil cluster job chosen table)
  obtain ⟨hattained, hmax, hleast⟩ := earliestFree_spec cluster job chosen table
  set m := earliestFree cluster job chosen table with hm
  set runs := considered cluster job chosen table with hruns
  set result := searchResult (scannedSlots cluster job chosen table) runs with hresult
  constructor
  · rintro ⟨hfound, hnone⟩
    by_cases hlt : m < NO_NODE_TIME
    · obtain ⟨n₀, hn₀, htime₀⟩ := hattained.resolve_left (by omega)
      obtain ⟨n, hnode, hn, htime, hmin⟩ := hfound ⟨n₀, hn₀, by omega⟩
      have htm : result.2 = m := by
        have h₁ := hmin n₀ hn₀
        have h₂ := hleast n hn
        omega
      rcases hspec with ⟨hno, -⟩ | ⟨pre, n', post, heq, hnode', -, hall, hpost⟩
      · omega
      · rw [htm] at heq hall hpost
        rw [hnode] at hnode'
        cases hnode'
        refine ⟨hall, fun _ => ⟨pre, n, post, heq, ?_, hn, ?_⟩⟩
        · intro run hrun
          exact (hpost run hrun).ne'
        · omega
    · -- no eligible node is free in time, so the time says that there is none
      have hno : result.2 = NO_NODE_TIME := by
        refine hnone ?_
        rintro ⟨n, hn, hn'⟩
        have := hleast n hn
        omega
      refine ⟨?_, fun h => absurd h hlt⟩
      rcases hspec with ⟨-, hall⟩ | ⟨-, -, -, -, -, -, hall, -⟩
      · intro run hrun
        exact hmax.trans (hall run hrun).le
      · intro run hrun
        have := hall run hrun
        omega
  · rintro ⟨hbefore, hlast⟩
    rw [← hruns, ← hm] at hbefore hlast
    constructor
    · rintro ⟨n₀, hn₀, htime₀⟩
      have hlt : m < NO_NODE_TIME := lt_of_le_of_lt (hleast n₀ hn₀) htime₀
      obtain ⟨pre, n, post, heq, hpost, hn, htime⟩ := hlast hlt
      have hmem : (n, m) ∈ runs := by
        rw [heq]
        simp
      rcases hspec with ⟨-, hall⟩ | ⟨pre', n', post', heq', hnode', -, hall, hpost'⟩
      · have := hall (n, m) hmem
        dsimp only at this
        omega
      · have htm : result.2 = m := by
          have h₁ : result.2 ≤ m := hall (n, m) hmem
          have h₂ : m ≤ result.2 := hbefore (n', result.2) (by rw [heq']; simp)
          omega
        rw [htm] at heq' hpost'
        -- two runs that are the last one with this time are the same one
        have hsame : n = n' := last_run_unique (heq.symm.trans heq') hpost
          (fun run hrun => (hpost' run hrun).ne')
        refine ⟨n, by rw [hnode', hsame], hn, by omega, ?_⟩
        intro n'' hn''
        rw [htime]
        exact hleast n'' hn''
    · intro hnone
      have hmno : m = NO_NODE_TIME := by
        rcases hattained with h | ⟨n, hn, htime⟩
        · exact h
        · by_contra hne
          exact hnone ⟨n, hn, by omega⟩
      rcases hspec with ⟨hno, -⟩ | ⟨pre, n, post, heq, -, hle, -, -⟩
      · exact hno
      · have h₂ : m ≤ result.2 := hbefore (n, result.2) (by rw [heq]; simp)
        omega

/-! ## Two nodes of two cores -/

/-- A cluster of two nodes with two cores each. -/
def twoNodes : PlanCluster :=
  ⟨"zubat", List.replicate 2 { (default : NodeInfo) with coresTotal := 2 }, 4, 4, 0⟩

/-- A job that wants one node with two cores. -/
def wholeNodeJob : PlanJob := PlanJob.filled 0 default 2 1 Nat.one_pos 0 100 0 0

/-- A table with the given nodes and times; no slot of it is marked. -/
def slotsAt (places : List (ℕ × ℤ)) : List FirstFreeSlot :=
  places.map (fun place => { (default : FirstFreeSlot) with ninfo := place.1, time := place.2 })

/-- Where the first cores are free first, the scan finds the node that is free at `50`. -/
theorem findEarliestNode_exact_two :
    findEarliestNode twoNodes wholeNodeJob [] (slotsAt [(0, 20), (0, 50), (1, 60), (1, 70)])
        (List.replicate 4 .free) = .ok (some 0, 50) ∧
      ExactSearch twoNodes wholeNodeJob []
        ((slotsAt [(0, 20), (0, 50), (1, 60), (1, 70)]).zip (List.replicate 4 .free))
        (some 0) 50 := by
  have hrun : findEarliestNode twoNodes wholeNodeJob []
      (slotsAt [(0, 20), (0, 50), (1, 60), (1, 70)]) (List.replicate 4 .free)
      = .ok (some 0, 50) := by decide
  obtain ⟨node, time, hresult, hiff⟩ := @findEarliestNode_exact_iff twoNodes wholeNodeJob []
    (slotsAt [(0, 20), (0, 50), (1, 60), (1, 70)]) (List.replicate 4 .free) (by decide) (by decide)
  rw [hrun] at hresult
  cases hresult
  refine ⟨hrun, hiff.mpr ⟨by decide, fun _ => ?_⟩⟩
  exact ⟨[], 0, [(1, 70)], by decide, by decide, by decide, by decide⟩

/-- Where the first core of the second node is free last, it is not counted: the scan
returns the second node for time `5`, although its first core is busy until `100`. -/
theorem findEarliestNode_misled :
    findEarliestNode twoNodes wholeNodeJob [] (slotsAt [(0, 50), (0, 50), (1, 100), (1, 5)])
        (List.replicate 4 .free) = .ok (some 1, 5) ∧
      ¬ ExactSearch twoNodes wholeNodeJob []
        ((slotsAt [(0, 50), (0, 50), (1, 100), (1, 5)]).zip (List.replicate 4 .free))
        (some 1) 5 := by
  refine ⟨by decide, ?_⟩
  rintro ⟨hfound, -⟩
  obtain ⟨n, hn, -, htime, -⟩ := hfound ⟨0, by decide, by decide⟩
  cases hn
  exact absurd htime (by decide)

end PlanSched
