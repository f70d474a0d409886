/-
# Booting a node with one of its images

Models `can_fit_job_for_boot` and the tests below it (`NodeInfo.cpp`, `logic/NodeLogic.cpp`):
whether the processors, the memory and the scratch of a node fit a part of the
specification, and whether one of the images the node can be booted with has the properties
that the node itself does not have.

The loop over the images keeps the verdict on the image it looked at last, not the best one.

* `bootLoop_eq`: the first image that is available, or the verdict on the last one;
* `canFitJobForBoot_best_iff`: when the answer is that of the best image, in whatever order
  they are listed.
-/
import PlanSched.ScratchChoice
import PlanSched.TextSearch

namespace PlanSched.Nodespec

open TextSearch

/-! ## The tests -/

/-- `repository_alternatives`: an image and the list of its properties, which may be `NULL`. -/
structure RepositoryAlternatives where
  rName : String
  rProplist : Option String
  deriving DecidableEq, Repr

/-- The loop of `alternative_has_property`: the search goes on one character behind each
occurrence that is no item of the list. -/
def propertyLoop (prop list : List Char) : Bool :=
  match _hfind : strstr prop list with
  | none => false
  | some (before, found) =>
      let after := found.drop prop.length
      if (before = [] ∨ before.getLast? = some ',') ∧ (after = [] ∨ after.head? = some ',') then
        true
      else if _hnil : found = [] then false
      else propertyLoop prop found.tail
termination_by list.length
decreasing_by
  obtain ⟨rfl, _⟩ := strstr_some list _hfind
  have hpos := List.length_pos_of_ne_nil _hnil
  rw [List.length_append, List.length_tail]
  omega

/-- `alternative_has_property`. -/
def alternativeHasProperty (r : RepositoryAlternatives) (prop : String) : Bool :=
  match r.rProplist with
  | none => false
  | some list => propertyLoop prop.toList list.toList

/-- What the tests read of a node.  `hasResc` is the answer on a resource. -/
structure BootNode extends ScratchNode where
  name : String
  physProps : List String
  virtProps : List String
  hasResc : ParsProp → CheckResult
  alternatives : List RepositoryAlternatives
  coresTotal : ℤ
  coresFree : ℤ
  coreAssigned : ℤ
  exclusivelyAssigned : Bool
  adminSlotAvail : Bool
  adminSlotEnabled : Bool

/-- What the tests read of a job. -/
structure FitJob where
  isAdminQueue : Bool
  isExclusive : Bool

/-- `result_helper`. -/
def resultHelper (result : Bool) : CheckResult := if result then .available else .nonFit

/-- `has_prop`. -/
def hasProp (node : BootNode) (property : ParsProp) (physicalOnly : Bool) : CheckResult :=
  let negative := property.name.toList.head? == some '^'
  let name := if negative then String.ofList property.name.toList.tail else property.name
  match property.value with
  | none =>
      if node.name = name then resultHelper !negative
      else if name ∈ node.physProps then resultHelper !negative
      else if physicalOnly = false ∧ name ∈ node.virtProps then resultHelper !negative
      else resultHelper negative
  | some value =>
      if name = "host" ∧ value = node.name then resultHelper !negative
      else node.hasResc property

/-- `has_proc`. -/
def hasProc (node : BootNode) (job : FitJob) (spec : ParsSpecNode) : CheckResult :=
  if job.isAdminQueue then
    if node.adminSlotAvail then .available
    else if node.adminSlotEnabled then .occupied
    else .nonFit
  else if node.coresTotal < spec.procs then .nonFit
  else if node.exclusivelyAssigned then .occupied
  else if node.coresFree - node.coreAssigned = 0 then .occupied
  else if job.isExclusive then
    if node.coresFree - node.coreAssigned ≠ node.coresTotal then .occupied else .available
  else if node.coresFree - node.coreAssigned < spec.procs then .occupied
  else .available

/-- `has_mem`. -/
def hasMem (node : BootNode) (job : FitJob) (spec : ParsSpecNode) : CheckResult :=
  if job.isAdminQueue then .available
  else
    match node.getResource "mem" with
    | none => if spec.mem ≠ 0 then .nonFit else .available
    | some mem => mem.checkNumericFit spec.mem

/-- `has_spec`: the answer, and what is written to `*scratch`. -/
def hasSpec (node : BootNode) (job : FitJob) (spec : ParsSpecNode) :
    CheckResult × Option ScratchType :=
  let procResult := hasProc node job spec
  let memResult := hasMem node job spec
  let scratch := hasScratch job.isAdminQueue node.toScratchNode spec
  if procResult = .nonFit ∨ memResult = .nonFit ∨ scratch.1 = .nonFit then (.nonFit, scratch.2)
  else if procResult = .occupied ∨ memResult = .occupied ∨ scratch.1 = .occupied then
    (.occupied, scratch.2)
  else (.available, scratch.2)

/-- The loop of `has_props_boot` over the properties. -/
def propsBootLoop (node : BootNode) (virtConf : RepositoryAlternatives) :
    List ParsProp → CheckResult → CheckResult
  | [], result => result
  | prop :: props, result =>
      let testPhys := hasProp node prop true
      let testVirt : CheckResult :=
        if alternativeHasProperty virtConf prop.name then .available else .nonFit
      if testPhys = .nonFit ∧ testVirt = .nonFit then .nonFit
      else
        propsBootLoop node virtConf props
          (if testPhys ≠ .available ∧ testVirt ≠ .available then .occupied else result)

/-- `has_props_boot`. -/
def hasPropsBoot (node : BootNode) (spec : ParsSpecNode) (virtConf : RepositoryAlternatives) :
    CheckResult :=
  propsBootLoop node virtConf spec.properties .available

/-- The loop of `can_fit_job_for_boot` over the images: `node_test`, and the image it stops
at. -/
def bootLoop (test : RepositoryAlternatives → CheckResult) :
    List RepositoryAlternatives → CheckResult → CheckResult × Option RepositoryAlternatives
  | [], nodeTest => (nodeTest, none)
  | ra :: alternatives, _ =>
      match test ra with
      | .nonFit => bootLoop test alternatives .nonFit
      | .occupied => bootLoop test alternatives .occupied
      | .available => (.available, some ra)

/-- `can_fit_job_for_boot`, with the answer of `can_boot_job`. -/
def canFitJobForBoot (node : BootNode) (job : FitJob) (canBootJob : CheckResult)
    (spec : ParsSpecNode) : FitAnswer :=
  if canBootJob = .nonFit then ⟨.nonFit, none, none⟩
  else
    let fit := hasSpec node job spec
    if fit.1 = .nonFit then ⟨.nonFit, fit.2, none⟩
    else
      let result := if fit.1 = .occupied then .occupied else canBootJob
      let found := bootLoop (hasPropsBoot node spec) node.alternatives .nonFit
      if found.1 = .nonFit then ⟨.nonFit, fit.2, none⟩
      else
        ⟨if found.1 = .occupied then .occupied else result, fit.2,
          some (found.2.map RepositoryAlternatives.rName)⟩

/-! ## The property -/

/-- The answer is that of the best image, and the image is the first one that is available. -/
structure BestAlternative (node : BootNode) (job : FitJob) (canBootJob : CheckResult)
    (spec : ParsSpecNode) : Prop where
  nonFit : (canFitJobForBoot node job canBootJob spec).result = .nonFit ↔
    ∀ ra ∈ node.alternatives, hasPropsBoot node spec ra = .nonFit
  available : (canFitJobForBoot node job canBootJob spec).result = .available ↔
    canBootJob = .available ∧ (hasSpec node job spec).1 = .available ∧
      ∃ ra ∈ node.alternatives, hasPropsBoot node spec ra = .available
  alternative : (canFitJobForBoot node job canBootJob spec).result = .available →
    (canFitJobForBoot node job canBootJob spec).alternative
      = some ((node.alternatives.find? (fun ra => hasPropsBoot node spec ra == .available)).map
          RepositoryAlternatives.rName)
  anyOrder : ∀ alternatives, alternatives.Perm node.alternatives →
    (canFitJobForBoot { node with alternatives := alternatives } job canBootJob spec).result
      = (canFitJobForBoot node job canBootJob spec).result

/-! ## The loop -/

/-- The verdict on the last image, or the one before the loop. -/
def lastVerdict (test : RepositoryAlternatives → CheckResult)
    (alternatives : List RepositoryAlternatives) (nodeTest : CheckResult) : CheckResult :=
  (alternatives.getLast?.map test).getD nodeTest

/-- The loop stops at the first image that is available, and otherwise keeps the verdict on the
last one. -/
theorem bootLoop_eq (test : RepositoryAlternatives → CheckResult)
    (alternatives : List RepositoryAlternatives) : ∀ nodeTest,
      bootLoop test alternatives nodeTest
        = match alternatives.find? (fun ra => test ra == .available) with
          | some ra => (.available, some ra)
          | none => (lastVerdict test alternatives nodeTest, none) := by
  induction alternatives with
  | nil => exact fun nodeTest => rfl
  | cons ra alternatives ih =>
      intro nodeTest
      have hlast : ∀ verdict, test ra = verdict →
          lastVerdict test (ra :: alternatives) nodeTest
            = lastVerdict test alternatives verdict := by
        intro verdict hverdict
        unfold lastVerdict
        cases alternatives with
        | nil => rw [List.getLast?_singleton, ← hverdict]; rfl
        | cons next alternatives =>
            rw [List.getLast?_cons_cons]
            cases hnext : (next :: alternatives).getLast? with
            | none => rw [List.getLast?_eq_none_iff] at hnext; cases hnext
            | some last => rfl
      rw [bootLoop]
      cases hverdict : test ra with
      | available => rw [List.find?_cons_of_pos (by rw [hverdict]; rfl)]
      | occupied =>
          rw [List.find?_cons_of_neg (by rw [hverdict]; decide), hlast _ hverdict]
          exact ih .occupied
      | nonFit =>
          rw [List.find?_cons_of_neg (by rw [hverdict]; decide), hlast _ hverdict]
          exact ih .nonFit

/-! ## When the answer is that of the best image -/

/-- The test of an image does not look at the list of the images. -/
theorem hasPropsBoot_alternatives (node : BootNode) (alternatives : List RepositoryAlternatives)
    (spec : ParsSpecNode) : hasPropsBoot { node with alternatives := alternatives } spec
      = hasPropsBoot node spec := by
  have hloop : ∀ (virtConf : RepositoryAlternatives) (props : List ParsProp) (result : CheckResult),
      propsBootLoop { node with alternatives := alternatives } virtConf props result
        = propsBootLoop node virtConf props result := by
    intro virtConf props
    induction props with
    | nil => exact fun result => rfl
    | cons prop props ih =>
        intro result
        rw [propsBootLoop, propsBootLoop]
        have hprop : hasProp { node with alternatives := alternatives } prop true
            = hasProp node prop true := rfl
        rw [hprop]
        simp only [ih]
  funext virtConf
  exact hloop virtConf spec.properties .available

section best

variable {node : BootNode} {job : FitJob} {canBootJob : CheckResult} {spec : ParsSpecNode}

/-- The answer, when a later test decides. -/
theorem canFitJobForBoot_eq (hboot : canBootJob ≠ .nonFit)
    (hspec : (hasSpec node job spec).1 ≠ .nonFit) :
    canFitJobForBoot node job canBootJob spec
      = match node.alternatives.find? (fun ra => hasPropsBoot node spec ra == .available) with
        | some ra => ⟨if (hasSpec node job spec).1 = .occupied then .occupied else canBootJob,
            (hasSpec node job spec).2, some (some ra.rName)⟩
        | none =>
            if lastVerdict (hasPropsBoot node spec) node.alternatives .nonFit = .nonFit then
              ⟨.nonFit, (hasSpec node job spec).2, none⟩
            else ⟨.occupied, (hasSpec node job spec).2, some none⟩ := by
  unfold canFitJobForBoot
  rw [if_neg hboot]
  dsimp only
  rw [if_neg hspec, bootLoop_eq]
  cases hfind : node.alternatives.find? (fun ra => hasPropsBoot node spec ra == .available) with
  | some ra => rfl
  | none =>
      have hno : lastVerdict (hasPropsBoot node spec) node.alternatives .nonFit ≠ .available := by
        unfold lastVerdict
        cases hlast : node.alternatives.getLast? with
        | none => simp
        | some last =>
            rw [List.find?_eq_none] at hfind
            simpa using hfind last (List.mem_of_getLast? hlast)
      dsimp only
      cases hverdict : lastVerdict (hasPropsBoot node spec) node.alternatives .nonFit with
      | nonFit => rfl
      | occupied => rfl
      | available => exact absurd hverdict hno

variable (node job spec) in
/-- The answer does not depend on the order when an image is available. -/
theorem canFitJobForBoot_available {ra : RepositoryAlternatives} (hboot : canBootJob ≠ .nonFit)
    (hspec : (hasSpec node job spec).1 ≠ .nonFit) (hmem : ra ∈ node.alternatives)
    (havailable : hasPropsBoot node spec ra = .available) :
    (canFitJobForBoot node job canBootJob spec).result
      = if (hasSpec node job spec).1 = .occupied then .occupied else canBootJob := by
  rw [canFitJobForBoot_eq hboot hspec]
  cases hfind : node.alternatives.find? (fun ra => hasPropsBoot node spec ra == .available) with
  | some found => rfl
  | none =>
      rw [List.find?_eq_none] at hfind
      exact absurd (beq_iff_eq.mpr havailable) (hfind ra hmem)

variable (node job spec) in
/-- Without one it is the verdict on the last image. -/
theorem canFitJobForBoot_last (hboot : canBootJob ≠ .nonFit)
    (hspec : (hasSpec node job spec).1 ≠ .nonFit)
    (hnone : ∀ ra ∈ node.alternatives, hasPropsBoot node spec ra ≠ .available) :
    (canFitJobForBoot node job canBootJob spec).result
      = lastVerdict (hasPropsBoot node spec) node.alternatives .nonFit := by
  have hfind : node.alternatives.find? (fun ra => hasPropsBoot node spec ra == .available)
      = none := by
    rw [List.find?_eq_none]
    intro ra hra
    rw [beq_iff_eq]
    exact hnone ra hra
  have hlast : lastVerdict (hasPropsBoot node spec) node.alternatives .nonFit ≠ .available := by
    unfold lastVerdict
    cases hlast : node.alternatives.getLast? with
    | none => simp
    | some last => exact hnone last (List.mem_of_getLast? hlast)
  rw [canFitJobForBoot_eq hboot hspec, hfind]
  cases hverdict : lastVerdict (hasPropsBoot node spec) node.alternatives .nonFit with
  | nonFit => rfl
  | occupied => rfl
  | available => exact absurd hverdict hlast

/-- The verdict on the last image, when all have the same one. -/
theorem lastVerdict_of_forall {test : RepositoryAlternatives → CheckResult}
    {alternatives : List RepositoryAlternatives} {verdict : CheckResult} {nodeTest : CheckResult}
    (hne : alternatives ≠ [] ∨ nodeTest = verdict) (h : ∀ ra ∈ alternatives, test ra = verdict) :
    lastVerdict test alternatives nodeTest = verdict := by
  unfold lastVerdict
  cases hlast : alternatives.getLast? with
  | none =>
      rw [List.getLast?_eq_none_iff] at hlast
      exact hne.resolve_left (not_not.mpr hlast)
  | some last => exact h last (List.mem_of_getLast? hlast)

/-- An image can be moved to the end. -/
theorem exists_perm_last {alternatives : List RepositoryAlternatives} {ra : RepositoryAlternatives}
    (h : ra ∈ alternatives) : ∃ moved : List RepositoryAlternatives,
      moved.Perm alternatives ∧ moved.getLast? = some ra := by
  refine ⟨alternatives.erase ra ++ [ra], ?_, List.getLast?_concat⟩
  exact (List.perm_append_singleton ra _).trans (List.perm_cons_erase h).symm

/-- Where the answer is that of the best image in whatever order and none is available, each
image has the verdict that is the answer: it may be the last one. -/
theorem BestAlternative.verdict_eq (h : BestAlternative node job canBootJob spec)
    (hboot : canBootJob ≠ .nonFit) (hspec : (hasSpec node job spec).1 ≠ .nonFit)
    (hnone : ∀ ra ∈ node.alternatives, hasPropsBoot node spec ra ≠ .available)
    {ra : RepositoryAlternatives} (hra : ra ∈ node.alternatives) :
    hasPropsBoot node spec ra = (canFitJobForBoot node job canBootJob spec).result := by
  obtain ⟨moved, hperm, hend⟩ := exists_perm_last hra
  rw [← h.anyOrder moved hperm]
  have hmoved := canFitJobForBoot_last { node with alternatives := moved } job spec
    hboot hspec (by
      rw [hasPropsBoot_alternatives]
      exact fun ra' hra' => hnone ra' (hperm.mem_iff.mp hra'))
  rw [hmoved, hasPropsBoot_alternatives node moved spec]
  unfold lastVerdict
  rw [show ({ node with alternatives := moved } : BootNode).alternatives = moved from rfl, hend]
  rfl

/-- With an available image the answer is that of the best one. -/
theorem best_of_available (hboot : canBootJob ≠ .nonFit)
    (hspec : (hasSpec node job spec).1 ≠ .nonFit) {ra : RepositoryAlternatives}
    (hra : ra ∈ node.alternatives) (hverdict : hasPropsBoot node spec ra = .available) :
    BestAlternative node job canBootJob spec := by
  have hresult := canFitJobForBoot_available node job spec hboot hspec hra hverdict
  constructor
  case nonFit =>
    rw [hresult]
    refine iff_of_false ?_ ?_
    · split
      · simp
      · exact hboot
    · intro hall
      rw [hall ra hra] at hverdict
      cases hverdict
  case available =>
    rw [hresult]
    cases hfit : (hasSpec node job spec).1 with
    | nonFit => exact absurd hfit hspec
    | occupied => simp
    | available =>
        rw [if_neg (by simp)]
        exact ⟨fun hb => ⟨hb, rfl, ra, hra, hverdict⟩, fun hb => hb.1⟩
  case alternative =>
    intro _
    rw [canFitJobForBoot_eq hboot hspec]
    cases hfind : node.alternatives.find?
        (fun ra => hasPropsBoot node spec ra == .available) with
    | some found => rfl
    | none =>
        rw [List.find?_eq_none] at hfind
        exact absurd (beq_iff_eq.mpr hverdict) (hfind ra hra)
  case anyOrder =>
    intro alternatives hperm
    rw [hresult]
    exact canFitJobForBoot_available { node with alternatives := alternatives } job spec
      hboot hspec (hperm.mem_iff.mpr hra)
      (by rw [hasPropsBoot_alternatives]; exact hverdict)

/-- With one verdict for all images, other than available, the answer is that of the best one.
Without an image the verdict is the one before the loop. -/
theorem best_of_same {verdict : CheckResult} (hboot : canBootJob ≠ .nonFit)
    (hspec : (hasSpec node job spec).1 ≠ .nonFit) (hnot : verdict ≠ .available)
    (hne : node.alternatives ≠ [] ∨ CheckResult.nonFit = verdict)
    (hsame : ∀ ra ∈ node.alternatives, hasPropsBoot node spec ra = verdict) :
    BestAlternative node job canBootJob spec := by
  have hnone : ∀ ra ∈ node.alternatives, hasPropsBoot node spec ra ≠ .available :=
    fun ra hra heq => hnot ((hsame ra hra).symm.trans heq)
  have hresult := canFitJobForBoot_last node job spec hboot hspec hnone
  rw [lastVerdict_of_forall hne hsame] at hresult
  constructor
  case nonFit =>
    rw [hresult]
    constructor
    · rintro rfl
      exact hsame
    · intro hall
      rcases hne with hne | hne
      · obtain ⟨ra, hra⟩ := List.exists_mem_of_ne_nil _ hne
        rw [← hsame ra hra, hall ra hra]
      · exact hne.symm
  case available =>
    rw [hresult]
    refine iff_of_false hnot ?_
    rintro ⟨-, -, ra, hra, havailable⟩
    exact hnone ra hra havailable
  case alternative =>
    intro hb
    rw [hresult] at hb
    exact absurd hb hnot
  case anyOrder =>
    intro alternatives hperm
    rw [hresult, canFitJobForBoot_last { node with alternatives := alternatives } job spec
      hboot hspec (by
        rw [hasPropsBoot_alternatives]
        exact fun ra hra => hnone ra (hperm.mem_iff.mp hra)), hasPropsBoot_alternatives]
    refine lastVerdict_of_forall ?_ (fun ra hra => hsame ra (hperm.mem_iff.mp hra))
    refine hne.imp_left (fun hnil h => hnil ?_)
    rw [show ({ node with alternatives := alternatives } : BootNode).alternatives
      = alternatives from rfl] at h
    rw [h] at hperm
    exact List.nil_perm.mp hperm

/-- The answer is that of the best image in whatever order, exactly if an image is available, or
the other verdicts do not both occur. -/
theorem canFitJobForBoot_best_iff (hboot : canBootJob ≠ .nonFit)
    (hspec : (hasSpec node job spec).1 ≠ .nonFit) :
    BestAlternative node job canBootJob spec ↔
      (∃ ra ∈ node.alternatives, hasPropsBoot node spec ra = .available) ∨
      (∀ ra ∈ node.alternatives, hasPropsBoot node spec ra ≠ .occupied) ∨
      (∀ ra ∈ node.alternatives, hasPropsBoot node spec ra ≠ .nonFit) := by
  constructor
  · intro h
    by_contra hnot
    rw [not_or, not_or] at hnot
    obtain ⟨havailable, hoccupied, hnonFit⟩ := hnot
    have hnone : ∀ ra ∈ node.alternatives, hasPropsBoot node spec ra ≠ .available :=
      fun ra hra heq => havailable ⟨ra, hra, heq⟩
    push Not at hoccupied hnonFit
    obtain ⟨ra, hra, hraOccupied⟩ := hoccupied
    obtain ⟨ra', hra', hraNonFit⟩ := hnonFit
    -- an order with each of the two verdicts at the end
    have hsame := (h.verdict_eq hboot hspec hnone hra).trans
      (h.verdict_eq hboot hspec hnone hra').symm
    rw [hraOccupied, hraNonFit] at hsame
    cases hsame
  · intro h
    by_cases havailable : ∃ ra ∈ node.alternatives, hasPropsBoot node spec ra = .available
    · obtain ⟨ra, hra, hverdict⟩ := havailable
      exact best_of_available hboot hspec hra hverdict
    · have hnone : ∀ ra ∈ node.alternatives, hasPropsBoot node spec ra ≠ .available :=
        fun ra hra heq => havailable ⟨ra, hra, heq⟩
      rcases h.resolve_left havailable with hno | hno
      · have hnot : CheckResult.nonFit ≠ .available := by simp
        refine best_of_same hboot hspec hnot (Or.inr rfl) ?_
        intro ra hra
        cases hverdict : hasPropsBoot node spec ra with
        | nonFit => rfl
        | occupied => exact absurd hverdict (hno ra hra)
        | available => exact absurd hverdict (hnone ra hra)
      · by_cases hnil : node.alternatives = []
        · have hnot : CheckResult.nonFit ≠ .available := by simp
          refine best_of_same hboot hspec hnot (Or.inr rfl) ?_
          rw [hnil]
          exact fun ra hra => absurd hra List.not_mem_nil
        · have hnot : CheckResult.occupied ≠ .available := by simp
          refine best_of_same hboot hspec hnot (Or.inl hnil) ?_
          intro ra hra
          cases hverdict : hasPropsBoot node spec ra with
          | nonFit => exact absurd hverdict (hno ra hra)
          | occupied => rfl
          | available => exact absurd hverdict (hnone ra hra)

end best

/-! ### A resource in use and a property of one image -/

/-- A node with two images, of which the first one has the property `debian`; all of its GPUs
are in use. -/
def gpuNode : BootNode where
  getResource := fun _ => none
  scratchPool := ""
  dynamicResources := fun _ => none
  scratchPriority := ScratchPriority.initial
  name := "node"
  physProps := []
  virtProps := []
  hasResc := fun _ => .occupied
  alternatives := [⟨"first", some "debian"⟩, ⟨"second", some "centos"⟩]
  coresTotal := 4
  coresFree := 4
  coreAssigned := 0
  exclusivelyAssigned := false
  adminSlotAvail := false
  adminSlotEnabled := false

/-- A part that asks for a GPU and `debian`. -/
def debianPart : ParsSpecNode :=
  ⟨1, none, none, 1, 0, 0, 0, .scratchNone, [⟨"gpu", some "1"⟩, ⟨"debian", none⟩]⟩

/-- When only the first image is listed, the node is occupied, as it should be. -/
theorem canFitJobForBoot_best_first :
    BestAlternative { gpuNode with alternatives := [⟨"first", some "debian"⟩] } ⟨false, false⟩
      .available debianPart :=
  (canFitJobForBoot_best_iff (by decide) (by decide +kernel)).mpr
    (Or.inr (Or.inr (by decide +kernel)))

/-- The node could be booted with the first image once a GPU is free; it is said not to fit, for
the second image has not the property. -/
theorem secondImage_nonFit :
    CheckResult.available ≠ .nonFit ∧ (hasSpec gpuNode ⟨false, false⟩ debianPart).1 ≠ .nonFit ∧
    ¬ BestAlternative gpuNode ⟨false, false⟩ .available debianPart := by
  refine ⟨by decide, by decide +kernel, ?_⟩
  intro h
  have hverdict := h.nonFit.mp (by decide +kernel) ⟨"first", some "debian"⟩ (by decide +kernel)
  revert hverdict
  decide +kernel

end PlanSched.Nodespec
