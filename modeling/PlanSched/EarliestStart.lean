/-
# The earliest start within the limits

`adjust_job_starttime_according_to_limits` (`plan_limits.cpp`) goes once through the
limit profile and pushes the job behind every snapshot that would be overflowed.
The window it checks moves while it is checked, and there are two tests per
snapshot: the total of the class against `limits_values_global`, the account's own
CPUs against `limits_values`.

Both tests together say whether a snapshot is acceptable (`PlanLimit.Admits`), so the
function is the sweep of `StepProfile` (`adjustToLimits_sweep`), and the start it
returns is the least admissible one (`adjustJob_earliest`).
-/
import PlanSched.LimitsAgree

namespace PlanSched

open CheckedRun StepProfile

/-! ## Admissible starts -/

/-- The CPUs of an account in class `c`, in the cell `limit_find_account` reports. -/
def PlanLimit.reportedCpus (limit : PlanLimit) (accountId : ℤ) (c : ℕ) : ℤ :=
  match limitFindAccount limit accountId with
  | .ok (some i) => ((limit.accounts[i]?).map (fun account => account.numCpus.getD c 0)).getD 0
  | _ => 0

/-- The account's CPUs in class `c` at time `t`. -/
def accountProfileAt (limits : List PlanLimit) (accountId : ℤ) (c : ℕ) (t : ℤ) : ℤ :=
  valueAt PlanLimit.timestamp (fun limit => limit.reportedCpus accountId c) limits t

/-- A job that starts at `s` keeps within the class limit `global` and the account
limit `own` as long as it runs. -/
def AdmissibleStart (limits : List PlanLimit) (job : PlanJob) (c : ℕ) (own global s : ℤ) : Prop :=
  ∀ t, s ≤ t → t < s + job.estimatedProcessing →
    profileAt limits c t + job.limitCpus ≤ global ∧
      accountProfileAt limits job.accountId c t + job.limitCpus ≤ own

/-- The snapshot has room for the job in both respects. -/
def PlanLimit.Admits (limit : PlanLimit) (job : PlanJob) (c : ℕ) (own global : ℤ) : Prop :=
  limit.classTotal c + job.limitCpus ≤ global ∧
    limit.reportedCpus job.accountId c + job.limitCpus ≤ own

instance (job : PlanJob) (c : ℕ) (own global : ℤ) :
    DecidablePred (fun limit : PlanLimit => limit.Admits job c own global) :=
  fun _ => inferInstanceAs (Decidable (_ ∧ _))

/-- A start is admissible exactly if every snapshot in force in the window admits
the job: where none is in force the job only meets its own CPUs. -/
theorem admissibleStart_iff {limits : List PlanLimit} {job : PlanJob} {c : ℕ} {own global : ℤ}
    (hown : job.limitCpus ≤ own) (hglobal : job.limitCpus ≤ global) (s : ℤ) :
    AdmissibleStart limits job c own global s ↔
      FitsFrom PlanLimit.timestamp (fun limit => limit.Admits job c own global)
        job.estimatedProcessing limits s := by
  unfold AdmissibleStart FitsFrom
  refine forall_congr' fun t => forall_congr' fun _ => forall_congr' fun _ => ?_
  unfold profileAt accountProfileAt valueAt
  cases hforce : lastLe PlanLimit.timestamp limits t with
  | none =>
      constructor
      · intro _ limit hlimit
        cases hlimit
      · intro _
        show 0 + job.limitCpus ≤ global ∧ 0 + job.limitCpus ≤ own
        constructor <;> omega
  | some limit =>
      constructor
      · intro h limit' hlimit'
        cases hlimit'
        exact h
      · intro h
        exact h limit rfl

/-! ## One pass -/

section Pass

variable {values : LimitsValues} {c : ℕ} {own global : ℤ} {limit : PlanLimit}
variable {successor : Option PlanLimit} {job : PlanJob}

/-- What the second half of the body reads: nothing, or the account's own cell. -/
theorem limitFindAccount_reported (limit : PlanLimit) (accountId : ℤ) (hc : c < NUM_LIMITS) :
    (limitFindAccount limit accountId = .ok none ∧ limit.reportedCpus accountId c = 0) ∨
      ∃ i account, limitFindAccount limit accountId = .ok (some i) ∧
        getAt limit.accounts i = .ok account ∧
        getAt account.numCpus c = .ok (limit.reportedCpus accountId c) := by
  obtain ⟨found, hfound, hcell⟩ := limitFindAccount_spec limit accountId
  cases found with
  | none =>
      refine Or.inl ⟨hfound, ?_⟩
      unfold PlanLimit.reportedCpus
      rw [hfound]
  | some i =>
      obtain ⟨account, haccount, -⟩ := hcell i rfl
      refine Or.inr ⟨i, account, hfound, getAt_ok.mpr haccount, getAt_ok.mpr ?_⟩
      have hlt : c < account.numCpus.length := by
        rw [account.length_numCpus]
        exact hc
      unfold PlanLimit.reportedCpus
      rw [hfound]
      dsimp only
      rw [haccount, Option.map_some, Option.getD_some, List.getD_eq_getElem?_getD,
        List.getElem?_eq_getElem hlt, Option.getD_some]

/-- The second half moves the job if the snapshot concerns it and the account would
overflow. -/
theorem adjustToAccount_eq (hc : c < NUM_LIMITS) (hown : getAt values.limitsValues c = .ok own)
    (hfits : job.limitCpus ≤ own)
    (hnext : own < limit.reportedCpus job.accountId c + job.limitCpus → successor ≠ none) :
    adjustToAccount values c limit successor job
      = .ok (if limit.concerns successor job ∧
            own < limit.reportedCpus job.accountId c + job.limitCpus
          then job.startAt ((successor.map PlanLimit.timestamp).getD job.startTime) else job) := by
  unfold adjustToAccount
  rcases limitFindAccount_reported limit job.accountId hc with
    ⟨hfound, hzero⟩ | ⟨i, account, hfound, haccount, hcpus⟩
  · rw [hfound, hzero, if_neg (by omega)]
    rfl
  · rw [hfound]
    refine bind_ok.mpr ⟨some i, rfl, ?_⟩
    dsimp only
    by_cases hconcerns : limit.concerns successor job
    · rw [if_pos hconcerns, haccount]
      refine bind_ok.mpr ⟨account, rfl, ?_⟩
      rw [hcpus]
      refine bind_ok.mpr ⟨_, rfl, ?_⟩
      rw [hown]
      refine bind_ok.mpr ⟨own, rfl, ?_⟩
      by_cases hover : own < limit.reportedCpus job.accountId c + job.limitCpus
      · obtain ⟨next, hsome⟩ := Option.ne_none_iff_exists'.mp (hnext hover)
        rw [if_pos hover, if_pos ⟨hconcerns, hover⟩, hsome]
        rfl
      · rw [if_neg hover, if_neg (fun h => hover h.2)]
        rfl
    · rw [if_neg hconcerns, if_neg (fun h => hconcerns h.1)]
      rfl

/-- A whole pass moves the job if the snapshot concerns it and does not admit it. -/
theorem adjustToLimit_eq (hc : c < NUM_LIMITS) (hown : getAt values.limitsValues c = .ok own)
    (hglobal : getAt values.limitsValuesGlobal c = .ok global) (hfits : job.limitCpus ≤ own)
    (hnext : ¬ limit.Admits job c own global → successor ≠ none) :
    adjustToLimit values c limit successor job
      = .ok (if limit.concerns successor job ∧ ¬ limit.Admits job c own global
          then job.startAt ((successor.map PlanLimit.timestamp).getD job.startTime) else job) := by
  have haccount := adjustToAccount_eq hc hown hfits
    (fun hover : own < limit.reportedCpus job.accountId c + job.limitCpus =>
      hnext (fun h => absurd h.2 (by omega)))
  unfold adjustToLimit
  by_cases hconcerns : limit.concerns successor job
  · rw [if_pos hconcerns, sumLimitsOfLimit_eq limit hc]
    refine bind_ok.mpr ⟨_, rfl, ?_⟩
    rw [hglobal]
    refine bind_ok.mpr ⟨global, rfl, ?_⟩
    by_cases hover : global < limit.classTotal c + job.limitCpus
    · have hfull : ¬ limit.Admits job c own global := fun h => absurd h.1 (by omega)
      obtain ⟨next, hsome⟩ := Option.ne_none_iff_exists'.mp (hnext hfull)
      rw [if_pos hover, if_pos ⟨hconcerns, hfull⟩, hsome]
      rfl
    · -- the class has room, so only the account decides
      have hadmits : limit.Admits job c own global ↔
          ¬ own < limit.reportedCpus job.accountId c + job.limitCpus := by
        constructor
        · rintro ⟨-, h⟩
          omega
        · intro h
          exact ⟨by omega, by omega⟩
      rw [if_neg hover, haccount]
      simp only [hadmits, not_not]
  · rw [if_neg hconcerns, haccount, if_neg (fun h => hconcerns h.1),
      if_neg (fun h => hconcerns h.1)]

end Pass

/-! ## The whole pass over the profile -/

/-- For a job with consistent times, `concerns` is the test of the sweep. -/
theorem PlanLimit.concerns_iff_touches {limit : PlanLimit} {successor : Option PlanLimit}
    {job : PlanJob} (htimes : job.completionTime = job.startTime + job.estimatedProcessing) :
    limit.concerns successor job ↔
      Touches PlanLimit.timestamp job.estimatedProcessing limit successor job.startTime := by
  unfold PlanLimit.concerns Touches
  rw [htimes]

/-- The function is a sweep over the profile: it returns, and the job it returns is
the old one or one that starts and ends anew. -/
theorem adjustToLimits_sweep {values : LimitsValues} {c : ℕ} {own global : ℤ}
    (hc : c < NUM_LIMITS) (hown : getAt values.limitsValues c = .ok own)
    (hglobal : getAt values.limitsValuesGlobal c = .ok global) (limits : List PlanLimit) :
    ∀ job : PlanJob, job.completionTime = job.startTime + job.estimatedProcessing →
      job.limitCpus ≤ own →
      (∀ last, limits.getLast? = some last → last.Admits job c own global) →
      ∃ job', adjustToLimits values c limits job = .ok job' ∧
        (job' = job ∨ job' = job.startAt job'.startTime) ∧
        job'.startTime = sweep PlanLimit.timestamp (fun limit => limit.Admits job c own global)
          job.estimatedProcessing limits job.startTime := by
  induction limits with
  | nil =>
      intro job _ _ _
      exact ⟨job, rfl, Or.inl rfl, rfl⟩
  | cons limit rest ih =>
      intro job htimes hfits hlast
      have hnext : ¬ limit.Admits job c own global → rest.head? ≠ none := by
        intro hfull hnone
        rw [List.head?_eq_none_iff] at hnone
        rw [hnone] at hlast
        exact hfull (hlast limit rfl)
      rw [adjustToLimits, adjustToLimit_eq hc hown hglobal hfits hnext]
      have hlast' : ∀ last, rest.getLast? = some last → last.Admits job c own global := by
        intro last hl
        refine hlast last ?_
        rw [List.getLast?_cons, hl]
        rfl
      rw [sweep, sweepPast]
      simp only [← PlanLimit.concerns_iff_touches htimes]
      by_cases hmove : limit.concerns rest.head? job ∧ ¬ limit.Admits job c own global
      · rw [if_pos hmove, if_pos hmove]
        obtain ⟨next, hsome⟩ := Option.ne_none_iff_exists'.mp (hnext hmove.2)
        rw [hsome]
        -- the rest of the pass sees the moved job
        obtain ⟨job', hrun, hkept, hstart⟩ := ih (job.startAt next.timestamp) rfl hfits hlast'
        refine ⟨job', hrun, Or.inr ?_, hstart⟩
        rcases hkept with h | h
        · rw [h]
          rfl
        · exact h
      · rw [if_neg hmove, if_neg hmove]
        exact ih job htimes hfits hlast'

/-- A snapshot without CPUs admits every job within the two limits. -/
theorem PlanLimit.admits_of_zero {limit : PlanLimit} {job : PlanJob} {c : ℕ} {own global : ℤ}
    (hzero : ∀ account ∈ limit.accounts, ∀ n ∈ account.numCpus, n = 0)
    (hown : job.limitCpus ≤ own) (hglobal : job.limitCpus ≤ global) :
    limit.Admits job c own global := by
  have hcell : ∀ account ∈ limit.accounts, account.numCpus.getD c 0 = 0 := by
    intro account haccount
    rw [List.getD_eq_getElem?_getD]
    cases hn : account.numCpus[c]? with
    | none => rfl
    | some n => exact hzero account haccount n (List.mem_of_getElem? hn)
  constructor
  · have hsum : limit.classTotal c = 0 := by
      unfold PlanLimit.classTotal
      refine List.sum_eq_zero ?_
      intro n hn
      obtain ⟨account, haccount, rfl⟩ := List.mem_map.mp hn
      exact hcell account haccount
    omega
  · have hreported : limit.reportedCpus job.accountId c = 0 := by
      unfold PlanLimit.reportedCpus
      split
      · next i _ =>
          cases haccount : limit.accounts[i]? with
          | none => rfl
          | some account => exact hcell account (List.mem_of_getElem? haccount)
      · rfl
    omega

/-- **The earliest admissible start**: on increasing timestamps with an empty last
snapshot, the function follows no missing successor, gives a job it moves the
completion of its new start, and ends at the least admissible start that is not
before the old one. -/
theorem adjustJob_earliest {conf : LimitsForClusters} {cluster : PlanCluster}
    {values : LimitsValues} {limits : List PlanLimit} {job : PlanJob} {c : ℕ} {own global : ℤ}
    (hinc : Increasing PlanLimit.timestamp limits)
    (hlast : ∀ last, limits.getLast? = some last →
      ∀ account ∈ last.accounts, ∀ n ∈ account.numCpus, n = 0)
    (hest : 0 < job.estimatedProcessing)
    (htimes : job.completionTime = job.startTime + job.estimatedProcessing)
    (hclass : walltimeSuitsToLimit conf job.estimatedProcessing cluster = .ok c)
    (hc : c < NUM_LIMITS) (hvalue : values.limitsValues[c]? = some own)
    (hvalueGlobal : values.limitsValuesGlobal[c]? = some global)
    (hown : job.limitCpus ≤ own) (hglobal : job.limitCpus ≤ global) :
    ∃ job', adjustJobStarttimeAccordingToLimits conf cluster values limits job = .ok job' ∧
      (job' = job ∨ job' = job.startAt job'.startTime) ∧
      IsLeast {s | job.startTime ≤ s ∧ AdmissibleStart limits job c own global s}
        job'.startTime := by
  have hempty : ∀ last, limits.getLast? = some last → last.Admits job c own global := by
    intro last hl
    exact PlanLimit.admits_of_zero (hlast last hl) hown hglobal
  obtain ⟨job', hrun, hkept, hstart⟩ := adjustToLimits_sweep hc (getAt_ok.mpr hvalue)
    (getAt_ok.mpr hvalueGlobal) limits job htimes hown hempty
  refine ⟨job', ?_, hkept, ?_⟩
  · unfold adjustJobStarttimeAccordingToLimits
    rw [hclass]
    exact hrun
  · rw [hstart]
    simp only [admissibleStart_iff hown hglobal]
    exact sweep_isLeast hest limits job.startTime hinc hempty

/-- Account `7` holds three of four CPUs until `50`: a job of two CPUs that is due at
`0` starts at `50`, and no earlier start would do. -/
theorem adjustJob_earliest_crowded :
    ∃ (limits : List PlanLimit) (job' : PlanJob),
      limits.map PlanLimit.timestamp = [0, 50, 100] ∧
      adjustJobStarttimeAccordingToLimits [("", ⟨[(0, ⟨[.finite 1], [.finite 1], [7200]⟩)],
        by decide⟩)] ⟨"zubat", [], 4, 4, 0⟩ ⟨[4], [4]⟩ limits
        (PlanJob.filled 0 default 2 1 (by decide) 0 100 0 0) = .ok job' ∧
      job'.startTime = 50 ∧ job'.completionTime = 150 ∧
      IsLeast {s | 0 ≤ s ∧ AdmissibleStart limits
        (PlanJob.filled 0 default 2 1 (by decide) 0 100 0 0) 0 4 4 s} 50 := by
  set limits : List PlanLimit := [⟨0, [⟨7, [3, 0, 0, 0, 0, 0, 0, 0], rfl⟩]⟩,
    ⟨50, [⟨7, [1, 0, 0, 0, 0, 0, 0, 0], rfl⟩]⟩, ⟨100, []⟩] with hlimits
  obtain ⟨job', hrun, -, hleast⟩ := @adjustJob_earliest
    [("", ⟨[(0, ⟨[.finite 1], [.finite 1], [7200]⟩)], by decide⟩)] ⟨"zubat", [], 4, 4, 0⟩
    ⟨[4], [4]⟩ limits (PlanJob.filled 0 default 2 1 (by decide) 0 100 0 0) 0 4 4
    (by unfold Increasing; decide) (by decide) (by decide) (by decide) (by rfl)
    (by decide) rfl rfl (by decide) (by decide)
  have htimes : (do
      let job ← adjustJobStarttimeAccordingToLimits [("", ⟨[(0, ⟨[.finite 1], [.finite 1],
        [7200]⟩)], by decide⟩)] ⟨"zubat", [], 4, 4, 0⟩ ⟨[4], [4]⟩ limits
        (PlanJob.filled 0 default 2 1 (by decide) 0 100 0 0)
      return (job.startTime, job.completionTime) : Run (ℤ × ℤ)) = .ok (50, 150) := by
    decide +kernel
  rw [hrun] at htimes
  obtain ⟨hstart, hcompletion⟩ := Prod.mk.inj (pure_ok.mp htimes)
  rw [hstart] at hleast
  exact ⟨limits, job', rfl, hrun, hstart, hcompletion, hleast⟩

end PlanSched
