/-
# The resources of a node

Models the class `Resource` (`base/Resource.cpp`): a capacity or, for a dynamic resource,
an amount that is available, the amount that is assigned, and the test whether a request
fits.  A number that was never set is `RESC_UNSPECIFIED` or `RESC_INFINITY`, both negative;
a value that does not start with a digit makes the resource a text.

`Account` is what a sequence of calls says about the resource, without such marks:

* `run_keeps`: after every sequence of calls the resource shows the account, except that
  without a reported use the assigned amount is counted from `RESC_UNSPECIFIED`;
* `checkNumericFit_sound_iff`: for which sequences no request is admitted beyond what the
  account leaves.

`long long` arithmetic is taken without overflow.
-/
import PlanSched.Configuration
import PlanSched.NodeAssignment

namespace PlanSched

open CText

/-! ## The class -/

/-- `RESC_UNSPECIFIED`. -/
def rescUnspecified : ℤ := -1

/-- `RESC_INFINITY`. -/
def rescInfinity : ℤ := -2

/-- `enum ResourceType`. -/
inductive ResourceType : Type where
  | resourceStatic
  | resourceDynamic
  | resourceString
  deriving DecidableEq, Repr

/-- `Resource`. -/
structure Resource where
  pResType : ResourceType
  pName : String
  pStrVal : List Char
  pAvail : ℤ
  pMax : ℤ
  pAssign : ℤ
  deriving DecidableEq, Repr

/-- The constructor. -/
def Resource.create (name : String) : Resource :=
  ⟨.resourceStatic, name, [], rescUnspecified, rescInfinity, rescUnspecified⟩

/-- `is_num`. -/
def isNum (value : List Char) : Bool :=
  match value with
  | [] => false
  | c :: _ => c.isDigit

/-- `set_capacity`. -/
def Resource.setCapacity (r : Resource) (value : List Char) : Resource :=
  if isNum value then
    { r with pMax := resToNum value, pStrVal := value, pResType := .resourceStatic }
  else
    { r with
      pMax := rescUnspecified, pAvail := rescUnspecified, pAssign := rescUnspecified,
      pStrVal := value, pResType := .resourceString }

/-- `set_avail`. -/
def Resource.setAvail (r : Resource) (value : List Char) : Resource :=
  if isNum value then
    -- dynamic resources don't have capacity
    { r with
      pAvail := resToNum value, pMax := rescUnspecified, pStrVal := value,
      pResType := .resourceDynamic }
  else
    { r with
      pAvail := 0, pMax := rescUnspecified, pStrVal := value, pResType := .resourceString }

/-- An argument of the overloaded members: a number, or a text that is converted. -/
inductive Amount : Type where
  | number (value : ℤ)
  | text (value : List Char)
  deriving DecidableEq, Repr

/-- The number an argument stands for. -/
def Amount.val : Amount → ℤ
  | number value => value
  | text value => resToNum value

/-- `set_utilization`. -/
def Resource.setUtilization (r : Resource) (value : Amount) : Resource :=
  { r with pAssign := value.val }

/-- `consume_resource`. -/
def Resource.consumeResource (r : Resource) (value : Amount) : Resource :=
  { r with pAssign := r.pAssign + value.val }

/-- `freeup_resource`. -/
def Resource.freeupResource (r : Resource) (value : Amount) : Resource :=
  { r with pAssign := r.pAssign - value.val }

/-- `reset`. -/
def Resource.reset (r : Resource) : Resource :=
  { r with
    pResType := .resourceStatic, pAvail := rescUnspecified, pMax := rescUnspecified,
    pAssign := rescUnspecified }

/-- `check_numeric_fit`. -/
def Resource.checkNumericFit (r : Resource) (amount : ℤ) : CheckResult :=
  if r.pMax ≠ rescInfinity ∧ r.pMax ≠ rescUnspecified ∧ r.pMax < amount then .nonFit
  else if r.pMax = rescUnspecified ∨ r.pMax = rescInfinity then
    -- no maximum, only the current amount
    if amount ≤ r.pAvail - r.pAssign then .available else .occupied
  else if amount ≤ r.pMax - r.pAssign then .available
  else .occupied

/-- `check_fit`: a text fits only itself. -/
def Resource.checkFit (r : Resource) (value : List Char) : CheckResult :=
  if r.pResType = .resourceString then
    if r.pStrVal = value then .available else .nonFit
  else r.checkNumericFit (resToNum value)

/-! ## Sequences of calls -/

/-- A numeric value: it starts with a digit and is read as a number, which
`RESC_UNSPECIFIED` is not. -/
structure NumericText where
  text : List Char
  isNum_text : isNum text = true
  resToNum_nonneg : 0 ≤ resToNum text

/-- A call of a member that changes the resource. -/
inductive ResourceCall : Type where
  | setCapacity (value : NumericText)
  | setAvail (value : NumericText)
  | setUtilization (value : Amount)
  | consumeResource (value : Amount)
  | freeupResource (value : Amount)
  | reset

/-- The resource after a call. -/
def Resource.call (r : Resource) : ResourceCall → Resource
  | .setCapacity value => r.setCapacity value.text
  | .setAvail value => r.setAvail value.text
  | .setUtilization value => r.setUtilization value
  | .consumeResource value => r.consumeResource value
  | .freeupResource value => r.freeupResource value
  | .reset => r.reset

/-- A new resource after a sequence of calls. -/
def Resource.run (name : String) (calls : List ResourceCall) : Resource :=
  calls.foldl Resource.call (Resource.create name)

/-! ## The account -/

/-- What the calls say about a resource: the capacity, the availability and the
utilisation that were set last, and what was consumed and freed since then. -/
structure Account where
  capacity : Option ℤ
  avail : Option ℤ
  utilization : Option ℤ
  consumed : ℤ
  deriving DecidableEq, Repr

namespace Account

/-- Nothing was set. -/
def empty : Account := ⟨none, none, none, 0⟩

/-- What a call adds: an availability takes the place of a capacity, and a reset unsets
everything. -/
def call (a : Account) : ResourceCall → Account
  | .setCapacity value => { a with capacity := some (resToNum value.text) }
  | .setAvail value => { a with avail := some (resToNum value.text), capacity := none }
  | .setUtilization value => { a with utilization := some value.val, consumed := 0 }
  | .consumeResource value => { a with consumed := a.consumed + value.val }
  | .freeupResource value => { a with consumed := a.consumed - value.val }
  | .reset => empty

/-- The account of a sequence of calls. -/
def run (calls : List ResourceCall) : Account := calls.foldl call empty

/-- The limit: the capacity, or the availability when there is none. -/
def limit (a : Account) : Option ℤ := a.capacity.or a.avail

/-- The amount in use, counted from 0 when no utilisation was set. -/
def used (a : Account) : ℤ := a.utilization.getD 0 + a.consumed

/-- Whether counting the use from `RESC_UNSPECIFIED` instead of 0 cannot be seen: there is
a utilisation, or no limit, or the limit is passed by more than the difference, or the
capacity alone keeps a request within it. -/
def Covered (a : Account) : Prop :=
  a.utilization.isSome ∨
    ∀ limit, a.limit = some limit →
      limit + 1 < a.used ∨ (a.capacity.isSome ∧ a.used ≤ 0)

end Account

/-- How a resource shows an account. -/
structure Keeps (r : Resource) (a : Account) : Prop where
  unlimited : a.capacity = none → r.pMax = rescUnspecified ∨ r.pMax = rescInfinity
  capacity : ∀ c, a.capacity = some c → 0 ≤ c ∧ r.pMax = c
  avail : ∀ v, a.avail = some v → r.pAvail = v
  assign : r.pAssign = a.utilization.getD rescUnspecified + a.consumed

/-- A new resource shows the empty account. -/
theorem create_keeps (name : String) : Keeps (Resource.create name) Account.empty where
  unlimited := fun _ => Or.inr rfl
  capacity := by
    intro c h
    cases h
  avail := by
    intro v h
    cases h
  assign := rfl

/-- Every call is shown as the account has it. -/
theorem Keeps.call {r : Resource} {a : Account} (h : Keeps r a) (c : ResourceCall) :
    Keeps (r.call c) (a.call c) := by
  cases c with
  | setCapacity value =>
      rw [Resource.call, Resource.setCapacity, if_pos value.isNum_text]
      refine ⟨?_, ?_, h.avail, h.assign⟩
      · intro hnone
        cases hnone
      · intro c hc
        cases hc
        exact ⟨value.resToNum_nonneg, rfl⟩
  | setAvail value =>
      rw [Resource.call, Resource.setAvail, if_pos value.isNum_text]
      refine ⟨fun _ => Or.inl rfl, ?_, ?_, h.assign⟩
      · intro c hc
        cases hc
      · intro v hv
        cases hv
        rfl
  | setUtilization value =>
      refine ⟨h.unlimited, h.capacity, h.avail, ?_⟩
      show value.val = value.val + 0
      omega
  | consumeResource value =>
      refine ⟨h.unlimited, h.capacity, h.avail, ?_⟩
      show r.pAssign + value.val = a.utilization.getD rescUnspecified + (a.consumed + value.val)
      rw [h.assign]
      omega
  | freeupResource value =>
      refine ⟨h.unlimited, h.capacity, h.avail, ?_⟩
      show r.pAssign - value.val = a.utilization.getD rescUnspecified + (a.consumed - value.val)
      rw [h.assign]
      omega
  | reset =>
      refine ⟨fun _ => Or.inl rfl, ?_, ?_, rfl⟩
      · intro c hc
        cases hc
      · intro v hv
        cases hv

/-- The calls of a sequence, from a resource that shows an account. -/
theorem Keeps.calls {r : Resource} {a : Account} (h : Keeps r a) (calls : List ResourceCall) :
    Keeps (calls.foldl Resource.call r) (calls.foldl Account.call a) := by
  induction calls generalizing r a with
  | nil => exact h
  | cons c calls ih => exact ih (h.call c)

/-- **After every sequence of calls the resource shows the account.** -/
theorem run_keeps (name : String) (calls : List ResourceCall) :
    Keeps (Resource.run name calls) (Account.run calls) :=
  (create_keeps name).calls calls

/-! ## Requests -/

/-- A request is admitted only if it is within what the limit leaves beside the use. -/
def FitSound (r : Resource) (a : Account) : Prop :=
  ∀ amount : ℤ, 0 ≤ amount → r.checkNumericFit amount = .available →
    ∀ limit, a.limit = some limit → amount ≤ limit - a.used

/-- With a capacity, a request has to be within it twice: alone, and beside the assigned
amount. -/
theorem checkNumericFit_capacity {r : Resource} {a : Account} {c : ℤ} (h : Keeps r a)
    (hc : a.capacity = some c) (amount : ℤ) :
    r.checkNumericFit amount = .available ↔ amount ≤ c ∧ amount ≤ c - r.pAssign := by
  obtain ⟨hnonneg, hmax⟩ := h.capacity c hc
  have hset : r.pMax ≠ rescInfinity ∧ r.pMax ≠ rescUnspecified := by
    rw [hmax, rescInfinity, rescUnspecified]
    omega
  rw [Resource.checkNumericFit]
  by_cases hover : r.pMax < amount
  · rw [if_pos ⟨hset.1, hset.2, hover⟩]
    constructor
    · intro h
      cases h
    · intro h
      omega
  · rw [if_neg (fun h => hover h.2.2), if_neg (by tauto), hmax]
    split
    · rename_i hfit
      exact ⟨fun _ => ⟨by omega, hfit⟩, fun _ => rfl⟩
    · rename_i hfit
      constructor
      · intro h
        cases h
      · intro h
        exact absurd h.2 hfit

/-- Without a capacity, a request has to be available beside the assigned amount. -/
theorem checkNumericFit_avail {r : Resource} {a : Account} {v : ℤ} (h : Keeps r a)
    (hc : a.capacity = none) (hv : a.avail = some v) (amount : ℤ) :
    r.checkNumericFit amount = .available ↔ amount ≤ v - r.pAssign := by
  have hunset := h.unlimited hc
  rw [Resource.checkNumericFit, if_neg (by tauto), if_pos hunset, h.avail v hv]
  split
  · rename_i hfit
    exact ⟨fun _ => hfit, fun _ => rfl⟩
  · rename_i hfit
    constructor
    · intro h
      cases h
    · intro h
      exact absurd h hfit

/-- The assigned amount is the use, or one less when no utilisation was set. -/
theorem Keeps.assign_eq {r : Resource} {a : Account} (h : Keeps r a) :
    r.pAssign = if a.utilization.isSome then a.used else a.used - 1 := by
  rw [h.assign, Account.used]
  cases a.utilization with
  | none =>
      show rescUnspecified + a.consumed = 0 + a.consumed - 1
      rw [rescUnspecified]
      omega
  | some v => rfl

/-- Requests against a capacity. -/
theorem fitSound_capacity_iff {r : Resource} {a : Account} {c : ℤ} (h : Keeps r a)
    (hc : a.capacity = some c) :
    FitSound r a ↔ a.utilization.isSome ∨ c + 1 < a.used ∨ a.used ≤ 0 := by
  have hlimit : a.limit = some c := by rw [Account.limit, hc, Option.some_or]
  have hassign := h.assign_eq
  constructor
  · intro hsound
    by_contra hcon
    rw [not_or, not_or] at hcon
    rw [if_neg hcon.1] at hassign
    -- the one unit too many that the count leaves
    have := hsound (c + 1 - a.used) (by omega)
      ((checkNumericFit_capacity h hc _).mpr (by omega)) c hlimit
    omega
  · intro hcond amount hamount hfit limit hl
    rw [hlimit, Option.some.injEq] at hl
    obtain ⟨hle, hfit⟩ := (checkNumericFit_capacity h hc amount).mp hfit
    split at hassign
    · omega
    · rename_i hutil
      rcases hcond with hcond | hcond | hcond
      · exact absurd hcond hutil
      · omega
      · omega

/-- Requests against an availability. -/
theorem fitSound_avail_iff {r : Resource} {a : Account} {v : ℤ} (h : Keeps r a)
    (hc : a.capacity = none) (hv : a.avail = some v) :
    FitSound r a ↔ a.utilization.isSome ∨ v + 1 < a.used := by
  have hlimit : a.limit = some v := by rw [Account.limit, hc, Option.none_or, hv]
  have hassign := h.assign_eq
  constructor
  · intro hsound
    by_contra hcon
    rw [not_or] at hcon
    rw [if_neg hcon.1] at hassign
    have := hsound (v + 1 - a.used) (by omega)
      ((checkNumericFit_avail h hc hv _).mpr (by omega)) v hlimit
    omega
  · intro hcond amount hamount hfit limit hl
    rw [hlimit, Option.some.injEq] at hl
    have hfit := (checkNumericFit_avail h hc hv amount).mp hfit
    split at hassign
    · omega
    · rename_i hutil
      rcases hcond with hcond | hcond
      · exact absurd hcond hutil
      · omega

/-- **A request is never admitted beyond what the limit leaves, exactly if counting the
use from `RESC_UNSPECIFIED` cannot be seen.** -/
theorem checkNumericFit_sound_iff (name : String) (calls : List ResourceCall) :
    FitSound (Resource.run name calls) (Account.run calls) ↔ (Account.run calls).Covered := by
  have hkeeps := run_keeps name calls
  generalize Resource.run name calls = r at *
  generalize Account.run calls = a at *
  rw [Account.Covered]
  cases hc : a.capacity with
  | some c =>
      have hlimit : a.limit = some c := by rw [Account.limit, hc, Option.some_or]
      rw [fitSound_capacity_iff hkeeps hc, hlimit]
      simp
  | none =>
      cases hv : a.avail with
      | some v =>
          have hlimit : a.limit = some v := by rw [Account.limit, hc, Option.none_or, hv]
          rw [fitSound_avail_iff hkeeps hc hv, hlimit]
          simp
      | none =>
          -- without a limit nothing is promised
          have hlimit : a.limit = none := by rw [Account.limit, hc, Option.none_or, hv]
          rw [FitSound, hlimit]
          simp

/-- Ten units. -/
def tenUnits : NumericText := ⟨"10".toList, by decide +kernel, by decide +kernel⟩

/-- A dynamic resource as `set_resource_dynamic` leaves it, with ten units available,
admits a request for eleven. -/
theorem dynamic_resource_overadmits :
    ¬ FitSound (Resource.run "scratch" [.reset, .setAvail tenUnits])
      (Account.run [.reset, .setAvail tenUnits]) := by
  intro h
  have hover := h 11 (by decide) (by decide +kernel) 10 (by decide +kernel)
  have hused : (Account.run [.reset, .setAvail tenUnits]).used = 0 := by decide +kernel
  rw [hused] at hover
  omega

end PlanSched
