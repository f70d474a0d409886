/-
# The scratch a node offers

Models `NodeLogic::has_scratch` (`logic/NodeLogic.cpp`): the local and the SSD scratch of a
node are resources of its own, the shared one is a pool of the server.  The types are tried
in the priority order of the node, by a `switch` in a loop.  No case of the `switch` ends with
a `break`: control falls from each case into the next one, and at last into the default,
which returns.

* `scratchSwitch_eq`: the switch tries the rest of the fixed order SSD, shared, local from the
  type on that it is entered with, and gives up then;
* `hasScratch_eq`: the loop never comes to its second round;
* `hasScratch_right_iff`: when the answer is the one by the priority.
-/
import PlanSched.DynamicResource
import PlanSched.NodespecCheck
import PlanSched.Resource

namespace PlanSched.Nodespec

/-! ## The test -/

/-- `p_scratch_priority`, a vector of three. -/
structure ScratchPriority where
  first : ScratchType
  second : ScratchType
  third : ScratchType
  deriving DecidableEq, Repr

/-- The entries in order. -/
def ScratchPriority.order (p : ScratchPriority) : List ScratchType := [p.first, p.second, p.third]

/-- What the constructor of `NodeLogic` leaves. -/
def ScratchPriority.initial : ScratchPriority := ⟨.scratchSSD, .scratchShared, .scratchLocal⟩

/-- What the test reads of a node and its server. -/
structure ScratchNode where
  getResource : String → Option Resource
  scratchPool : String
  dynamicResources : String → Option DynamicResource
  scratchPriority : ScratchPriority

/-- `check_scratch_helper`. -/
def checkScratchHelper (node : ScratchNode) (name : String) (value : ℕ) : CheckResult :=
  match node.getResource name with
  | none => .nonFit
  | some res => res.checkNumericFit value

/-- What is found out of the shared pool. -/
def sharedScratch (node : ScratchNode) (value : ℕ) : CheckResult :=
  if 0 < node.scratchPool.length then
    match node.dynamicResources node.scratchPool with
    | some pool => if pool.wouldFit value then .available else .occupied
    | none => .nonFit
  else .nonFit

/-- The verdict on each type of scratch. -/
def scratchVerdict (node : ScratchNode) (value : ℕ) : ScratchType → CheckResult
  | .scratchLocal => checkScratchHelper node "scratch_local" value
  | .scratchSSD => checkScratchHelper node "scratch_ssd" value
  | .scratchShared => sharedScratch node value
  | _ => .nonFit

/-- The type is asked for, and available. -/
def offered (request : ScratchType) (verdict : ScratchType → CheckResult) (type : ScratchType) :
    Bool :=
  (request == .scratchAny || request == type) && verdict type == .available

/-- The default case. -/
def caseDefault : CheckResult × Option ScratchType := (.nonFit, none)

/-- A case of the switch, which falls into the next one. -/
def caseOf (request : ScratchType) (verdict : ScratchType → CheckResult) (type : ScratchType)
    (next : CheckResult × Option ScratchType) : CheckResult × Option ScratchType :=
  if offered request verdict type then (.available, some type) else next

/-- The body of the loop; every way through it returns. -/
def scratchSwitch (request : ScratchType) (verdict : ScratchType → CheckResult)
    (entry : ScratchType) : Option (CheckResult × Option ScratchType) :=
  let caseLocal := caseOf request verdict .scratchLocal caseDefault
  let caseShared := caseOf request verdict .scratchShared caseLocal
  let caseSSD := caseOf request verdict .scratchSSD caseShared
  match entry with
  | .scratchSSD => some caseSSD
  | .scratchShared => some caseShared
  | .scratchLocal => some caseLocal
  | _ => some caseDefault

/-- The loop over the priority. -/
def scratchLoop (request : ScratchType) (verdict : ScratchType → CheckResult) :
    List ScratchType → CheckResult × Option ScratchType
  | [] => (.occupied, none)
  | entry :: entries =>
      match scratchSwitch request verdict entry with
      | some r => r
      | none => scratchLoop request verdict entries

/-- `has_scratch`: the answer, and what is written to `*scratch`. -/
def hasScratch (isAdminQueue : Bool) (node : ScratchNode) (spec : ParsSpecNode) :
    CheckResult × Option ScratchType :=
  if isAdminQueue then (.available, none)
  else if spec.scratchType = .scratchNone then (.available, none)
  else
    let verdict := scratchVerdict node spec.scratch
    if spec.scratchType = .scratchSSD ∧ verdict .scratchSSD = .nonFit then (.nonFit, none)
    else if spec.scratchType = .scratchShared ∧ verdict .scratchShared = .nonFit then
      (.nonFit, none)
    else if spec.scratchType = .scratchLocal ∧ verdict .scratchLocal = .nonFit then (.nonFit, none)
    else if verdict .scratchLocal = .nonFit ∧ verdict .scratchSSD = .nonFit ∧
        verdict .scratchShared = .nonFit then (.nonFit, none)
    else scratchLoop spec.scratchType verdict node.scratchPriority.order

/-! ## The property and the condition -/

/-- The types a request admits. -/
def admissible (request : ScratchType) : List ScratchType :=
  if request = .scratchAny then [.scratchLocal, .scratchSSD, .scratchShared] else [request]

/-- The answer by the priority: the first admissible type that is available, and otherwise
whether one is only occupied. -/
structure ScratchRight (priority : ScratchPriority) (request : ScratchType)
    (verdict : ScratchType → CheckResult) (answer : CheckResult × Option ScratchType) : Prop where
  chosen : (∃ type ∈ admissible request, verdict type = .available) →
    answer = (.available, priority.order.find? (fun type =>
      decide (type ∈ admissible request) && verdict type == .available))
  occupied : (∀ type ∈ admissible request, verdict type ≠ .available) →
    (∃ type ∈ admissible request, verdict type = .occupied) → answer.1 = .occupied
  nonFit : answer.1 = .nonFit ↔ ∀ type ∈ admissible request, verdict type = .nonFit

/-- From the first entry of the priority on, falling through the cases comes to the right
type: it is that entry, or the ones that are passed over have nothing to offer. -/
def FallsRight (priority : ScratchPriority) (offers : ScratchType → Bool) : Prop :=
  offers priority.first = true ∨
  (priority.first = .scratchSSD ∧ (priority.second = .scratchShared ∨
    ¬ (offers .scratchShared = true ∧ offers .scratchLocal = true))) ∨
  (priority.first = .scratchShared ∧ offers .scratchLocal = true ∧
    (priority.second = .scratchLocal ∨ offers .scratchSSD = false))

/-! ## The switch -/

/-- The cases from an entry on. -/
def fallOrder : ScratchType → List ScratchType
  | .scratchSSD => [.scratchSSD, .scratchShared, .scratchLocal]
  | .scratchShared => [.scratchShared, .scratchLocal]
  | .scratchLocal => [.scratchLocal]
  | _ => []

/-- The switch takes the first type offered from its entry on, or gives up. -/
theorem scratchSwitch_eq (request : ScratchType) (verdict : ScratchType → CheckResult)
    (entry : ScratchType) : scratchSwitch request verdict entry
      = some (match (fallOrder entry).find? (offered request verdict) with
        | some type => (.available, some type)
        | none => (.nonFit, none)) := by
  have hcase : ∀ (type : ScratchType) (types : List ScratchType)
      (next : CheckResult × Option ScratchType),
      next = (match types.find? (offered request verdict) with
        | some type => (.available, some type)
        | none => (.nonFit, none)) →
      caseOf request verdict type next
        = (match (type :: types).find? (offered request verdict) with
          | some type => (.available, some type)
          | none => (.nonFit, none)) := by
    intro type types next hnext
    unfold caseOf
    by_cases hoffered : offered request verdict type = true
    · rw [if_pos hoffered, List.find?_cons_of_pos hoffered]
    · rw [if_neg hoffered, List.find?_cons_of_neg hoffered, hnext]
  have hlocal := hcase .scratchLocal [] caseDefault rfl
  have hshared := hcase .scratchShared _ _ hlocal
  have hssd := hcase .scratchSSD _ _ hshared
  unfold scratchSwitch
  cases entry with
  | scratchSSD => exact congrArg some hssd
  | scratchShared => exact congrArg some hshared
  | scratchLocal => exact congrArg some hlocal
  | scratchNone => rfl
  | scratchAny => rfl

/-- The early exits are those where nothing is left to try. -/
theorem hasScratch_eq (node : ScratchNode) {spec : ParsSpecNode}
    (hrequest : spec.scratchType ≠ .scratchNone) :
    hasScratch false node spec
      = (match (fallOrder node.scratchPriority.first).find?
            (offered spec.scratchType (scratchVerdict node spec.scratch)) with
        | some type => (.available, some type)
        | none => (.nonFit, none)) := by
  unfold hasScratch
  rw [if_neg Bool.false_ne_true, if_neg hrequest]
  dsimp only
  set verdict := scratchVerdict node spec.scratch
  -- a type that is not offered anywhere
  have hnone : (∀ type, offered spec.scratchType verdict type = false) →
      (match (fallOrder node.scratchPriority.first).find? (offered spec.scratchType verdict) with
        | some type => (CheckResult.available, some type)
        | none => (.nonFit, none)) = (.nonFit, none) := by
    intro hno
    have : (fallOrder node.scratchPriority.first).find? (offered spec.scratchType verdict)
        = none := by
      rw [List.find?_eq_none]
      intro type _
      rw [hno type]
      exact Bool.false_ne_true
    rw [this]
  have hsingle : ∀ single, spec.scratchType = single → single ≠ .scratchAny →
      verdict single = .nonFit → ∀ type, offered spec.scratchType verdict type = false := by
    intro single heq hany hnonFit type
    unfold offered
    rw [heq, beq_eq_false_iff_ne.mpr hany, Bool.false_or]
    by_cases hsame : single = type
    · subst hsame
      rw [hnonFit]
      exact Bool.and_false _
    · rw [beq_eq_false_iff_ne.mpr hsame]
      exact Bool.false_and _
  split
  · next h => exact (hnone (hsingle _ h.1 (by simp) h.2)).symm
  · split
    · next h => exact (hnone (hsingle _ h.1 (by simp) h.2)).symm
    · split
      · next h => exact (hnone (hsingle _ h.1 (by simp) h.2)).symm
      · split
        · next h =>
            refine (hnone ?_).symm
            intro type
            unfold offered
            have hall : verdict type = .nonFit := by
              cases type with
              | scratchLocal => exact h.1
              | scratchSSD => exact h.2.1
              | scratchShared => exact h.2.2
              | scratchNone => rfl
              | scratchAny => rfl
            rw [hall]
            exact Bool.and_false _
        · rw [ScratchPriority.order, scratchLoop, scratchSwitch_eq]

/-! ## When the answer is right -/

/-- The orderings of the three types. -/
theorem ScratchPriority.cases_of_perm {p : ScratchPriority}
    (h : p.order.Perm [.scratchSSD, .scratchShared, .scratchLocal]) :
    p = ⟨.scratchSSD, .scratchShared, .scratchLocal⟩ ∨
    p = ⟨.scratchSSD, .scratchLocal, .scratchShared⟩ ∨
    p = ⟨.scratchShared, .scratchSSD, .scratchLocal⟩ ∨
    p = ⟨.scratchShared, .scratchLocal, .scratchSSD⟩ ∨
    p = ⟨.scratchLocal, .scratchSSD, .scratchShared⟩ ∨
    p = ⟨.scratchLocal, .scratchShared, .scratchSSD⟩ := by
  obtain ⟨first, second, third⟩ := p
  cases first <;> cases second <;> cases third <;>
    first
    | exact absurd h (by decide)
    | decide

/-- Falling through the cases comes to the first type of the priority that is offered, under
the condition, when one is offered at all. -/
theorem fallOrder_find_iff {priority : ScratchPriority}
    (hperm : priority.order.Perm [.scratchSSD, .scratchShared, .scratchLocal])
    (offers : ScratchType → Bool) {type : ScratchType}
    (hfirst : priority.order.find? offers = some type) :
    (fallOrder priority.first).find? offers = some type ↔ FallsRight priority offers := by
  rw [← hfirst]
  have hsome : priority.order.find? offers ≠ none := by
    rw [hfirst]
    simp
  clear hfirst
  unfold FallsRight
  rcases ScratchPriority.cases_of_perm hperm with rfl | rfl | rfl | rfl | rfl | rfl <;>
    cases hssd : offers .scratchSSD <;> cases hshared : offers .scratchShared <;>
      cases hlocal : offers .scratchLocal <;>
        simp_all [fallOrder, ScratchPriority.order]

/-- The offers are the admissible types that are available. -/
theorem offered_eq {request type : ScratchType} (verdict : ScratchType → CheckResult)
    (htype : type ∈ [ScratchType.scratchSSD, .scratchShared, .scratchLocal]) :
    offered request verdict type
      = (decide (type ∈ admissible request) && verdict type == .available) := by
  have hadmissible : (request == .scratchAny || request == type)
      = decide (type ∈ admissible request) := by
    unfold admissible
    by_cases hany : request = .scratchAny
    · rw [if_pos hany, hany]
      fin_cases htype <;> decide
    · rw [if_neg hany, beq_eq_false_iff_ne.mpr hany, Bool.false_or, Bool.eq_iff_iff,
        decide_eq_true_iff, List.mem_singleton, beq_iff_eq]
      exact eq_comm
  unfold offered
  rw [hadmissible]

/-- What a request other than for nothing admits. -/
theorem mem_admissible {request type : ScratchType} (hrequest : request ≠ .scratchNone)
    (h : type ∈ admissible request) :
    type ∈ [ScratchType.scratchSSD, .scratchShared, .scratchLocal] := by
  unfold admissible at h
  split at h
  · fin_cases h <;> decide
  · next hany =>
      rw [List.mem_singleton] at h
      subst h
      cases type <;> simp_all

/-- Without an admissible type that is available falling through the cases finds nothing. -/
theorem fallOrder_find_none {request : ScratchType} {verdict : ScratchType → CheckResult}
    (priority : ScratchPriority) (hnone : ∀ type ∈ admissible request, verdict type ≠ .available) :
    (fallOrder priority.first).find? (offered request verdict) = none := by
  rw [List.find?_eq_none]
  intro type htype hoffered
  have hthree : type ∈ [ScratchType.scratchSSD, .scratchShared, .scratchLocal] := by
    unfold fallOrder at htype
    cases hp : priority.first <;> rw [hp] at htype <;> fin_cases htype <;> decide
  rw [offered_eq verdict hthree, Bool.and_eq_true, decide_eq_true_iff, beq_iff_eq] at hoffered
  exact hnone type hoffered.1 hoffered.2

/-- With one the priority has a first offer. -/
theorem exists_first_offer {request : ScratchType} {verdict : ScratchType → CheckResult}
    {priority : ScratchPriority} (hrequest : request ≠ .scratchNone)
    (hperm : priority.order.Perm [.scratchSSD, .scratchShared, .scratchLocal])
    (havailable : ∃ type ∈ admissible request, verdict type = .available) :
    ∃ found, priority.order.find? (offered request verdict) = some found := by
  obtain ⟨type, htype, hverdict⟩ := havailable
  have hoffer : offered request verdict type = true := by
    rw [offered_eq verdict (mem_admissible hrequest htype), decide_eq_true htype, hverdict]
    rfl
  cases hfirst : priority.order.find? (offered request verdict) with
  | some found => exact ⟨found, rfl⟩
  | none =>
      rw [List.find?_eq_none] at hfirst
      exact absurd hoffer (hfirst type (hperm.mem_iff.mpr (mem_admissible hrequest htype)))

/-- The answer is the one by the priority, exactly if nothing is admissible at all, or something
is available and falling through the cases comes to the right type. -/
theorem hasScratch_right_iff (node : ScratchNode) {spec : ParsSpecNode}
    (hrequest : spec.scratchType ≠ .scratchNone)
    (hperm : node.scratchPriority.order.Perm [.scratchSSD, .scratchShared, .scratchLocal]) :
    ScratchRight node.scratchPriority spec.scratchType (scratchVerdict node spec.scratch)
        (hasScratch false node spec) ↔
      (∀ type ∈ admissible spec.scratchType, scratchVerdict node spec.scratch type = .nonFit) ∨
      ((∃ type ∈ admissible spec.scratchType,
          scratchVerdict node spec.scratch type = .available) ∧
        FallsRight node.scratchPriority
          (offered spec.scratchType (scratchVerdict node spec.scratch))) := by
  rw [hasScratch_eq node hrequest]
  set verdict := scratchVerdict node spec.scratch
  set request := spec.scratchType
  set priority := node.scratchPriority
  have hfind : priority.order.find? (fun type =>
      decide (type ∈ admissible request) && verdict type == .available)
        = priority.order.find? (offered request verdict) := by
    refine List.find?_congr ?_
    intro type htype
    exact (offered_eq verdict (hperm.mem_iff.mp htype)).symm
  constructor
  · intro h
    by_cases havailable : ∃ type ∈ admissible request, verdict type = .available
    · -- the first offer of the priority is what falling through comes to
      refine Or.inr ⟨havailable, ?_⟩
      have hchosen := h.chosen havailable
      obtain ⟨found, hfirst⟩ := exists_first_offer hrequest hperm havailable
      rw [hfind, hfirst] at hchosen
      apply (fallOrder_find_iff hperm _ hfirst).mp
      cases hfall : (fallOrder priority.first).find? (offered request verdict) with
      | none =>
          rw [hfall] at hchosen
          cases hchosen
      | some type' =>
          rw [hfall] at hchosen
          cases hchosen
          rfl
    · left
      have hnone : ∀ type ∈ admissible request, verdict type ≠ .available := by
        intro type htype hverdict
        exact havailable ⟨type, htype, hverdict⟩
      apply h.nonFit.mp
      rw [fallOrder_find_none priority hnone]
  · rintro (hall | ⟨havailable, hfalls⟩)
    · have hnone : ∀ type ∈ admissible request, verdict type ≠ .available := by
        intro type htype hverdict
        rw [hall type htype] at hverdict
        cases hverdict
      rw [fallOrder_find_none priority hnone]
      refine ⟨?_, ?_, iff_of_true rfl hall⟩
      · rintro ⟨type, htype, hverdict⟩
        exact absurd hverdict (hnone type htype)
      · rintro _ ⟨type, htype, hoccupied⟩
        rw [hall type htype] at hoccupied
        cases hoccupied
    · obtain ⟨found, hfirst⟩ := exists_first_offer hrequest hperm havailable
      obtain ⟨type, htype, hverdict⟩ := havailable
      rw [(fallOrder_find_iff hperm _ hfirst).mpr hfalls]
      refine ⟨?_, ?_, iff_of_false (by simp) ?_⟩
      · intro _
        rw [hfind, hfirst]
      · intro hno
        exact absurd hverdict (hno type htype)
      · intro hall
        rw [hall type htype] at hverdict
        cases hverdict

/-! ### An SSD that is full for the moment -/

/-- An SSD of 1000, of which 800 are in use. -/
def fullSsd : Resource := ⟨.resourceStatic, "scratch_ssd", [], -1, 1000, 800⟩

/-- A node with this SSD, and the priority it is created with. -/
def ssdNode : ScratchNode where
  getResource := fun name => if name = "scratch_ssd" then some fullSsd else none
  scratchPool := ""
  dynamicResources := fun _ => none
  scratchPriority := ScratchPriority.initial

/-- A request for SSD scratch. -/
def ssdPart (amount : ℕ) : ParsSpecNode :=
  ⟨1, none, none, 1, 1024, 0, amount, .scratchSSD, []⟩

/-- There is room for 200. -/
theorem hasScratch_right_room :
    ScratchRight ssdNode.scratchPriority .scratchSSD (scratchVerdict ssdNode 200)
      (hasScratch false ssdNode (ssdPart 200)) :=
  (@hasScratch_right_iff ssdNode (ssdPart 200) (by decide) (by decide)).mpr
    (Or.inr ⟨⟨.scratchSSD, by decide, by decide⟩, Or.inl (by decide)⟩)

/-- 500 have to wait, and the node is said never to have them. -/
theorem fullSsd_nonFit :
    (ssdPart 500).scratchType ≠ .scratchNone ∧
    ssdNode.scratchPriority.order.Perm [.scratchSSD, .scratchShared, .scratchLocal] ∧
    ¬ ScratchRight ssdNode.scratchPriority (ssdPart 500).scratchType
        (scratchVerdict ssdNode (ssdPart 500).scratch)
        (hasScratch false ssdNode (ssdPart 500)) := by
  refine ⟨by decide, by decide, ?_⟩
  intro h
  have hverdict := h.nonFit.mp (by decide) .scratchSSD (by decide)
  revert hverdict
  decide

end PlanSched.Nodespec
