/-
# Dynamic resources

Models the class `DynamicResource` (`base/DynamicResource.cpp`): an amount that
an external cache reports as available, optionally together with the amount in
use, and the two counters the scheduler keeps itself.

`would_fit` looks at `p_assigned` always and at `p_scheduled_use` only for a
resource that reports its use.  `try_run_plan` records a start in
`p_scheduled_use`; the other run path, `plan_on_server`, records it in
`p_assigned`.  `admittedSum_le_iff` says for which resources recording in
`p_scheduled_use` keeps the admitted amounts within what was available.

`long long` arithmetic is taken without overflow.
-/
import PlanSched.CText

namespace PlanSched

open CText

/-! ## The class -/

/-- `DynamicResource`. -/
structure DynamicResource where
  pAvail : ℤ
  pAssigned : ℤ
  pReportedUse : ℤ
  pScheduledUse : ℤ
  pName : String
  deriving DecidableEq, Repr, Inhabited

/-- The constructor from the text `avail` or `avail;used`. -/
def DynamicResource.ofValue (name value : String) : DynamicResource :=
  let (v1, rest) := strtol value.toList
  let v2 : ℤ :=
    if rest.head? = some ';' then
      let (v2, rest) := strtol rest.tail
      if rest = [] then v2 else -1
    else -1
  ⟨v1, 0, v2, 0, name⟩

/-- `add_assigned`. -/
def DynamicResource.addAssigned (r : DynamicResource) (v : ℤ) : DynamicResource :=
  { r with pAssigned := r.pAssigned + v }

/-- `add_scheduled`. -/
def DynamicResource.addScheduled (r : DynamicResource) (v : ℤ) : DynamicResource :=
  { r with pScheduledUse := r.pScheduledUse + v }

section fields

variable (r : DynamicResource) (v : ℤ)

@[simp] theorem addAssigned_pAvail : (r.addAssigned v).pAvail = r.pAvail := rfl
@[simp] theorem addAssigned_pAssigned : (r.addAssigned v).pAssigned = r.pAssigned + v := rfl
@[simp] theorem addScheduled_pAvail : (r.addScheduled v).pAvail = r.pAvail := rfl
@[simp] theorem addScheduled_pAssigned : (r.addScheduled v).pAssigned = r.pAssigned := rfl
@[simp] theorem addScheduled_pReportedUse :
    (r.addScheduled v).pReportedUse = r.pReportedUse := rfl
@[simp] theorem addScheduled_pScheduledUse :
    (r.addScheduled v).pScheduledUse = r.pScheduledUse + v := rfl

end fields

/-- `would_fit`. -/
def DynamicResource.wouldFit (r : DynamicResource) (amount : ℤ) : Bool :=
  if 0 ≤ r.pReportedUse then
    let dynamic := r.pScheduledUse - r.pReportedUse
    let dynamic := if dynamic < 0 then 0 else dynamic
    decide (amount ≤ r.pAvail - r.pAssigned - dynamic)
  else decide (amount ≤ r.pAvail - r.pAssigned)

/-! ## A sequence of requests -/

/-- The amounts admitted from a sequence of requests, each admitted one recorded
before the next is tested. -/
def admitted (record : DynamicResource → ℤ → DynamicResource) :
    DynamicResource → List ℤ → List ℤ
  | _, [] => []
  | r, amount :: requests =>
      if r.wouldFit amount then amount :: admitted record (record r amount) requests
      else admitted record r requests

/-- The sum of the amounts admitted when starts are recorded with
`add_scheduled`, as `try_run_plan` does. -/
def admittedSum (r : DynamicResource) (requests : List ℤ) : ℤ :=
  (admitted DynamicResource.addScheduled r requests).sum

/-- What a refused or an admitted request does to the sum. -/
theorem admittedSum_cons (r : DynamicResource) (amount : ℤ) (requests : List ℤ) :
    admittedSum r (amount :: requests) =
      if r.wouldFit amount then amount + admittedSum (r.addScheduled amount) requests
      else admittedSum r requests := by
  unfold admittedSum
  rw [admitted]
  split
  · rw [List.sum_cons]
  · rfl

/-- A request fits a reporting resource exactly when it fits beside the scheduled
use beyond the report. -/
theorem wouldFit_of_reported {r : DynamicResource} (h : 0 ≤ r.pReportedUse) (amount : ℤ) :
    r.wouldFit amount = true ↔
      amount ≤ r.pAvail - r.pAssigned - max 0 (r.pScheduledUse - r.pReportedUse) := by
  unfold DynamicResource.wouldFit
  rw [if_pos h]
  simp only [decide_eq_true_eq]
  split <;> omega

/-- Without a report nothing that was recorded is looked at. -/
theorem wouldFit_of_unreported {r : DynamicResource} (h : r.pReportedUse < 0) (amount : ℤ) :
    r.wouldFit amount = true ↔ amount ≤ r.pAvail - r.pAssigned := by
  unfold DynamicResource.wouldFit
  rw [if_neg (by omega), decide_eq_true_eq]

/-- Once the scheduled use has reached the reported one, every admitted amount is
counted against the rest. -/
theorem admittedSum_le_of_reported (requests : List ℤ) :
    ∀ r : DynamicResource, 0 ≤ r.pReportedUse → r.pReportedUse ≤ r.pScheduledUse →
      0 ≤ r.pAvail - r.pAssigned → (∀ a ∈ requests, 0 ≤ a) →
      admittedSum r requests ≤
        max 0 (r.pAvail - r.pAssigned - (r.pScheduledUse - r.pReportedUse)) := by
  induction requests with
  | nil =>
      intro r _ _ _ _
      exact le_max_left _ _
  | cons amount requests ih =>
      intro r hrep hsch havail hnonneg
      have hamount := hnonneg amount List.mem_cons_self
      have hrest : ∀ a ∈ requests, 0 ≤ a := fun a ha => hnonneg a (List.mem_cons_of_mem _ ha)
      rw [admittedSum_cons]
      split
      · rename_i hfit
        rw [wouldFit_of_reported hrep] at hfit
        have hnext := ih (r.addScheduled amount) hrep (by simp; omega) havail hrest
        simp only [addScheduled_pAvail, addScheduled_pAssigned, addScheduled_pScheduledUse,
          addScheduled_pReportedUse] at hnext
        omega
      · exact ih r hrep hsch havail hrest

/-- With nothing available, only requests for nothing are admitted. -/
theorem admittedSum_le_of_exhausted (requests : List ℤ) :
    ∀ r : DynamicResource, r.pAvail - r.pAssigned = 0 → (∀ a ∈ requests, 0 ≤ a) →
      admittedSum r requests ≤ 0 := by
  induction requests with
  | nil => intro r _ _; exact le_rfl
  | cons amount requests ih =>
      intro r havail hnonneg
      have hrest : ∀ a ∈ requests, 0 ≤ a := fun a ha => hnonneg a (List.mem_cons_of_mem _ ha)
      rw [admittedSum_cons]
      split
      · rename_i hfit
        have hle : amount ≤ 0 := by
          by_cases hrep : 0 ≤ r.pReportedUse
          · rw [wouldFit_of_reported hrep] at hfit
            omega
          · rw [wouldFit_of_unreported (by omega)] at hfit
            omega
        have := ih (r.addScheduled amount) havail hrest
        omega
      · exact ih r havail hrest

/-- **Recording in `p_scheduled_use` bounds the admitted amounts exactly for
reporting resources whose report is not ahead of the schedule** (and trivially
when nothing is left). -/
theorem admittedSum_le_iff (r : DynamicResource) :
    (∀ requests : List ℤ, (∀ a ∈ requests, 0 ≤ a) →
      admittedSum r requests ≤ r.pAvail - r.pAssigned) ↔
    (r.pAvail - r.pAssigned = 0 ∨
      (0 < r.pAvail - r.pAssigned ∧ 0 ≤ r.pReportedUse ∧ r.pReportedUse ≤ r.pScheduledUse)) := by
  constructor
  · intro h
    have hnonneg : 0 ≤ r.pAvail - r.pAssigned := h [] (by simp)
    by_cases hzero : r.pAvail - r.pAssigned = 0
    · exact Or.inl hzero
    · right
      -- everything that is left, and then one unit more
      have hover := h [r.pAvail - r.pAssigned, 1] (by
        intro a ha
        rw [List.mem_cons, List.mem_singleton] at ha
        rcases ha with rfl | rfl <;> omega)
      refine ⟨by omega, ?_⟩
      by_contra hcond
      have hfit : r.wouldFit (r.pAvail - r.pAssigned) = true := by
        by_cases hrep : 0 ≤ r.pReportedUse
        · rw [wouldFit_of_reported hrep]
          omega
        · rw [wouldFit_of_unreported (by omega)]
      have hfit' : (r.addScheduled (r.pAvail - r.pAssigned)).wouldFit 1 = true := by
        by_cases hrep : 0 ≤ (r.addScheduled (r.pAvail - r.pAssigned)).pReportedUse
        · rw [wouldFit_of_reported hrep]
          simp only [addScheduled_pAvail, addScheduled_pAssigned, addScheduled_pScheduledUse,
            addScheduled_pReportedUse] at hrep ⊢
          omega
        · rw [wouldFit_of_unreported (by omega), addScheduled_pAvail, addScheduled_pAssigned]
          omega
      rw [admittedSum_cons, if_pos hfit, admittedSum_cons, if_pos hfit'] at hover
      simp only [admittedSum, admitted, List.sum_nil] at hover
      omega
  · rintro (hzero | ⟨hpos, hrep, hsch⟩) requests hnonneg
    · rw [hzero]
      exact admittedSum_le_of_exhausted requests r hzero hnonneg
    · have := admittedSum_le_of_reported requests r hrep hsch (by omega) hnonneg
      omega

/-- Ten units without a report: two requests for all of them are both admitted. -/
theorem admittedSum_unreported :
    (∀ a ∈ [(10 : ℤ), 10], 0 ≤ a) ∧
      ¬ admittedSum (DynamicResource.ofValue "matlab" "10") [10, 10] ≤
        (DynamicResource.ofValue "matlab" "10").pAvail
          - (DynamicResource.ofValue "matlab" "10").pAssigned := by
  refine ⟨by decide, ?_⟩
  decide +kernel

/-! ## The other run path -/

/-- Recording with `add_assigned`, as `plan_on_server` does, never admits more
than was available. -/
theorem admitted_addAssigned_le (requests : List ℤ) :
    ∀ r : DynamicResource, 0 ≤ r.pAvail - r.pAssigned → (∀ a ∈ requests, 0 ≤ a) →
      (admitted DynamicResource.addAssigned r requests).sum ≤ r.pAvail - r.pAssigned := by
  induction requests with
  | nil => intro r h _; exact h
  | cons amount requests ih =>
      intro r havail hnonneg
      have hrest : ∀ a ∈ requests, 0 ≤ a := fun a ha => hnonneg a (List.mem_cons_of_mem _ ha)
      rw [admitted]
      split
      · rename_i hfit
        have hle : amount ≤ r.pAvail - r.pAssigned := by
          by_cases hrep : 0 ≤ r.pReportedUse
          · rw [wouldFit_of_reported hrep] at hfit
            omega
          · rwa [wouldFit_of_unreported (by omega)] at hfit
        have hnext := ih (r.addAssigned amount) (by simp; omega) hrest
        rw [addAssigned_pAvail, addAssigned_pAssigned] at hnext
        rw [List.sum_cons]
        omega
      · exact ih r havail hrest

end PlanSched
