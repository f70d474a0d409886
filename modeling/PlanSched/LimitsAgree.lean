/-
# The two limit checkers

A queued job meets the limit profile of its cluster twice (`plan_limits.cpp`):
`limits_is_gap_ok` asks for every gap of a run whether the job may use it, and
`adjust_job_starttime_according_to_limits` later moves the planned job behind the
snapshots it would overflow.  The gap search promises a start time only if the
second function leaves it alone.

The two cut time in different ways, but on a run of gaps that covers the job they
read the same snapshots (`concerns_meetsGap`).  They do not read the same class of
limits: the first takes the walltime from the request, where a missing one counts
as `0`, the second from `estimated_processing`, where it counts as one day.
`limitCheckers_agree_iff` shows that this is the only way in which they disagree.
-/
import PlanSched.Limits

namespace PlanSched

open CheckedRun StepProfile

/-! ## Profiles and runs of gaps -/

/-- The profile was built by `add_job_to_limits`, job after job. -/
inductive BuiltLimits (conf : LimitsForClusters) (cluster : PlanCluster) :
    List PlanLimit → Prop
  | nil : BuiltLimits conf cluster []
  | add {limits limits' : List PlanLimit} (job : PlanJob) (h : BuiltLimits conf cluster limits)
      (hadd : addJobToLimits conf cluster limits job = .ok limits') :
      BuiltLimits conf cluster limits'

/-- The gap is not empty, and its duration is its length unless it has no end. -/
def PlanGap.Lasts (gap : PlanGap) : Prop :=
  gap.startTime < gap.endTime ∧
    (gap.duration = gap.endTime - gap.startTime ∨ gap.endTime = LONG_MAX)

/-- The gaps follow one another without a break, from time `t` on. -/
def FollowFrom : ℤ → List PlanGap → Prop
  | _, [] => True
  | t, gap :: gaps => gap.startTime = t ∧ gap.Lasts ∧ FollowFrom gap.endTime gaps

/-- A run of gaps that starts with the job and lasts at least as long. -/
structure GapRun (job : PlanJob) (run : List PlanGap) : Prop where
  ne_nil : run ≠ []
  follow : FollowFrom job.startTime run
  long : job.estimatedProcessing ≤ (run.map PlanGap.duration).sum

/-- On this cluster, whenever every gap of a run passes the first checker, the
second one leaves the start of the job alone. -/
def CheckersAgree (conf : LimitsForClusters) (cluster : PlanCluster) (job : PlanJob) : Prop :=
  ∀ (values : LimitsValues) (limits : List PlanLimit) (run : List PlanGap),
    BuiltLimits conf cluster limits → GapRun job run →
    (∀ gap ∈ run, limitsIsGapOk conf cluster values limits job gap = .ok true) →
    ∃ job', adjustJobStarttimeAccordingToLimits conf cluster values limits job = .ok job' ∧
      job'.startTime = job.startTime

/-! ## Both read the same snapshots -/

/-- A run of gaps leaves out no time until its total duration is over. -/
theorem FollowFrom.cover (run : List PlanGap) :
    ∀ {t₀ t : ℤ}, FollowFrom t₀ run → t₀ ≤ t → t < t₀ + (run.map PlanGap.duration).sum →
      t < LONG_MAX → ∃ gap ∈ run, gap.startTime ≤ t ∧ t < gap.endTime := by
  induction run with
  | nil =>
      intro t₀ t _ hle hlt _
      rw [List.map_nil, List.sum_nil] at hlt
      omega
  | cons gap gaps ih =>
      intro t₀ t h hle hlt hmax
      obtain ⟨hstart, ⟨-, hduration⟩, hrest⟩ := h
      by_cases hinside : t < gap.endTime
      · exact ⟨gap, List.mem_cons_self, by omega, hinside⟩
      · -- the gap ends before `t`, so it has an end and the others carry on
        rw [List.map_cons, List.sum_cons] at hlt
        have hend : gap.duration = gap.endTime - gap.startTime := by
          rcases hduration with h | h
          · exact h
          · omega
        obtain ⟨gap', hmem, hcover⟩ := ih hrest (by omega) (by omega) hmax
        exact ⟨gap', List.mem_cons_of_mem _ hmem, hcover⟩

/-- The first gap of the run starts with the job. -/
theorem GapRun.exists_first {job : PlanJob} {run : List PlanGap} (h : GapRun job run) :
    ∃ gap ∈ run, gap.startTime = job.startTime ∧ gap.startTime < gap.endTime := by
  cases hrun : run with
  | nil => exact absurd hrun h.ne_nil
  | cons gap gaps =>
      have hfollow := h.follow
      rw [hrun] at hfollow
      exact ⟨gap, List.mem_cons_self, hfollow.1, hfollow.2.1.1⟩

/-- A snapshot that concerns the job meets one of the gaps. -/
theorem concerns_meetsGap {job : PlanJob} {run : List PlanGap} {limit : PlanLimit}
    {successor : Option PlanLimit} (hrun : GapRun job run)
    (hcompletion : job.startTime < job.completionTime →
      job.completionTime ≤ job.startTime + job.estimatedProcessing)
    (hmax : job.completionTime ≤ LONG_MAX) (h : limit.concerns successor job) :
    ∃ gap ∈ run, limit.meetsGap successor gap := by
  rcases h with ⟨next, hnext, hle, hlt⟩ | ⟨hlt, hend⟩
  · -- in force at the start: the first gap sees it
    obtain ⟨gap, hgap, hstart, hne⟩ := hrun.exists_first
    refine ⟨gap, hgap, ?_⟩
    rcases eq_or_lt_of_le hle with heq | hbefore
    · exact Or.inl (by omega)
    · exact Or.inr ⟨next, hnext, by omega, by omega⟩
  · have hlong := hrun.long
    have hlast := hcompletion (hlt.trans hend)
    obtain ⟨gap, hgap, hcover⟩ :=
      FollowFrom.cover run hrun.follow hlt.le (by omega) (by omega)
    exact ⟨gap, hgap, Or.inl hcover⟩

/-! ## The second checker follows the first -/

section Steps

variable {values : LimitsValues} {foundLimit : ℕ} {job : PlanJob} {limit : PlanLimit}
variable {successor : Option PlanLimit}

/-- Where the account passes for a gap the snapshot meets, the job is not moved. -/
theorem adjustToAccount_of_ok
    (h : limit.concerns successor job → ∃ gap, limit.meetsGap successor gap ∧
      accountLimitOk values foundLimit job gap limit successor = .ok true) :
    adjustToAccount values foundLimit limit successor job = .ok job := by
  unfold adjustToAccount
  obtain ⟨found, hfound, -⟩ := limitFindAccount_spec limit job.accountId
  refine bind_ok.mpr ⟨found, hfound, ?_⟩
  cases found with
  | none => rfl
  | some foundAccount =>
      dsimp only
      split
      · next hconcerns =>
          obtain ⟨gap, hmeets, hok⟩ := h hconcerns
          unfold accountLimitOk at hok
          rw [hfound] at hok
          obtain ⟨_, hsome, hok⟩ := bind_ok.mp hok
          cases hsome
          dsimp only at hok
          rw [if_pos hmeets] at hok
          obtain ⟨value, hvalue, hok⟩ := bind_ok.mp hok
          obtain ⟨account, haccount, hok⟩ := bind_ok.mp hok
          obtain ⟨numCpus, hcpus, hok⟩ := bind_ok.mp hok
          have hle := of_decide_eq_true (pure_ok.mp hok)
          refine bind_ok.mpr ⟨account, haccount, bind_ok.mpr ⟨numCpus, hcpus, ?_⟩⟩
          refine bind_ok.mpr ⟨value, hvalue, ?_⟩
          rw [if_neg (by omega)]
          rfl
      · rfl

/-- Where both tests pass for a gap the snapshot meets, the job is not moved. -/
theorem adjustToLimit_of_ok
    (h : limit.concerns successor job → ∃ gap, limit.meetsGap successor gap ∧
      globalLimitOk values foundLimit job gap limit successor = .ok true ∧
      accountLimitOk values foundLimit job gap limit successor = .ok true) :
    adjustToLimit values foundLimit limit successor job = .ok job := by
  have haccount : adjustToAccount values foundLimit limit successor job = .ok job := by
    refine adjustToAccount_of_ok ?_
    intro hconcerns
    obtain ⟨gap, hmeets, -, hok⟩ := h hconcerns
    exact ⟨gap, hmeets, hok⟩
  unfold adjustToLimit
  split
  · next hconcerns =>
      obtain ⟨gap, hmeets, hok, -⟩ := h hconcerns
      unfold globalLimitOk at hok
      rw [if_pos hmeets] at hok
      obtain ⟨total, htotal, hok⟩ := bind_ok.mp hok
      obtain ⟨value, hvalue, hok⟩ := bind_ok.mp hok
      have hle := of_decide_eq_true (pure_ok.mp hok)
      refine bind_ok.mpr ⟨total, htotal, bind_ok.mpr ⟨value, hvalue, ?_⟩⟩
      rw [if_neg (by omega)]
      exact haccount
  · exact haccount

end Steps

/-- The loop of the first checker passes a snapshot only if both of its tests pass,
and then goes on. -/
theorem gapOkForLimits_cons {values : LimitsValues} {foundLimit : ℕ} {job : PlanJob}
    {gap : PlanGap} {limit : PlanLimit} {rest : List PlanLimit}
    (h : gapOkForLimits values foundLimit job gap (limit :: rest) = .ok true) :
    globalLimitOk values foundLimit job gap limit rest.head? = .ok true ∧
      accountLimitOk values foundLimit job gap limit rest.head? = .ok true ∧
      gapOkForLimits values foundLimit job gap rest = .ok true := by
  rw [gapOkForLimits] at h
  obtain ⟨global, hglobal, h⟩ := bind_ok.mp h
  cases global with
  | false => cases pure_ok.mp h
  | true =>
      rw [if_pos rfl] at h
      obtain ⟨account, haccount, h⟩ := bind_ok.mp h
      cases account with
      | false => cases pure_ok.mp h
      | true =>
          rw [if_pos rfl] at h
          exact ⟨hglobal, haccount, h⟩

/-- If every gap of a run passes, with one class of limits, no snapshot moves the
job. -/
theorem adjustToLimits_of_gapsOk {values : LimitsValues} {foundLimit : ℕ} {job : PlanJob}
    {run : List PlanGap} (hrun : GapRun job run)
    (hcompletion : job.startTime < job.completionTime →
      job.completionTime ≤ job.startTime + job.estimatedProcessing)
    (hmax : job.completionTime ≤ LONG_MAX) (limits : List PlanLimit) :
    (∀ gap ∈ run, gapOkForLimits values foundLimit job gap limits = .ok true) →
      adjustToLimits values foundLimit limits job = .ok job := by
  induction limits with
  | nil =>
      intro _
      rfl
  | cons limit rest ih =>
      intro hok
      rw [adjustToLimits]
      have hstep : adjustToLimit values foundLimit limit rest.head? job = .ok job := by
        refine adjustToLimit_of_ok ?_
        intro hconcerns
        obtain ⟨gap, hgap, hmeets⟩ := concerns_meetsGap hrun hcompletion hmax hconcerns
        obtain ⟨hglobal, haccount, -⟩ := gapOkForLimits_cons (hok gap hgap)
        exact ⟨gap, hmeets, hglobal, haccount⟩
      refine bind_ok.mpr ⟨job, hstep, ih ?_⟩
      intro gap hgap
      exact (gapOkForLimits_cons (hok gap hgap)).2.2

/-- The first checker passes a gap in the class of the requested walltime. -/
theorem limitsIsGapOk_class {conf : LimitsForClusters} {cluster : PlanCluster}
    {values : LimitsValues} {limits : List PlanLimit} {job : PlanJob} {gap : PlanGap}
    (h : limitsIsGapOk conf cluster values limits job gap = .ok true) :
    ∃ foundLimit, walltimeSuitsToLimit conf job.jinfo.getWalltime cluster = .ok foundLimit ∧
      gapOkForLimits values foundLimit job gap limits = .ok true := by
  unfold limitsIsGapOk at h
  obtain ⟨foundLimit, hclass, h⟩ := bind_ok.mp h
  obtain ⟨value, -, h⟩ := bind_ok.mp h
  split at h
  · cases pure_ok.mp h
  · exact ⟨foundLimit, hclass, h⟩

/-- With one class for both walltimes the checkers agree. -/
theorem checkersAgree_of_class {conf : LimitsForClusters} {cluster : PlanCluster} {job : PlanJob}
    (hcompletion : job.startTime < job.completionTime →
      job.completionTime ≤ job.startTime + job.estimatedProcessing)
    (hmax : job.completionTime ≤ LONG_MAX)
    (hclass : walltimeSuitsToLimit conf job.jinfo.getWalltime cluster
      = walltimeSuitsToLimit conf job.estimatedProcessing cluster) :
    CheckersAgree conf cluster job := by
  intro values limits run _ hrun hok
  obtain ⟨first, hfirst, -⟩ := hrun.exists_first
  obtain ⟨foundLimit, hfound, -⟩ := limitsIsGapOk_class (hok first hfirst)
  refine ⟨job, ?_, rfl⟩
  unfold adjustJobStarttimeAccordingToLimits
  rw [← hclass, hfound]
  refine adjustToLimits_of_gapsOk hrun hcompletion hmax limits ?_
  intro gap hgap
  obtain ⟨foundLimit', hfound', hgapok⟩ := limitsIsGapOk_class (hok gap hgap)
  rw [hfound] at hfound'
  cases hfound'
  exact hgapok

/-! ## Jobs without a walltime -/

/-- What `job_fillin` says about the times of a job. -/
theorem jobFillin_times {ptr : ℕ} {jinfo : JobInfo} {startTime : ℤ} {job : PlanJob}
    (h : jobFillin ptr jinfo startTime = .ok job) :
    job.jinfo = jinfo ∧ job.startTime = startTime ∧
      (job.startTime < job.completionTime →
        job.completionTime ≤ job.startTime + job.estimatedProcessing) ∧
      job.estimatedProcessing = ((findResourceReq jinfo.resreq "walltime").map
        ResourceReq.amount).getD DEFAULT_WALLTIME := by
  obtain ⟨procs, nodect, hnodect, mem, gpu, rfl⟩ := jobFillin_ok h
  refine ⟨rfl, rfl, ?_, rfl⟩
  unfold PlanJob.filled
  dsimp only
  intro hlt
  split at hlt
  · omega
  · next hne =>
      rw [if_neg hne]

/-- An empty profile with breakpoints at `t` and one second later can be built. -/
theorem builtLimits_pair (conf : LimitsForClusters) (cluster : PlanCluster) (job : PlanJob)
    (t : ℤ) : BuiltLimits conf cluster [limitCreate t, limitCreate (t + 1)] := by
  -- a job that ends when it starts leaves its breakpoint and no CPUs
  have hfirst : addJobToLimits conf cluster []
      { job with startTime := t, completionTime := t } = .ok [limitCreate t] := by
    unfold addJobToLimits breakpointsForJob leadingSnapshot limitCreate
    simp
    rfl
  have hsecond : addJobToLimits conf cluster [limitCreate t]
      { job with startTime := t + 1, completionTime := t + 1 }
      = .ok [limitCreate t, limitCreate (t + 1)] := by
    unfold addJobToLimits breakpointsForJob leadingSnapshot limitCreate
    simp [cloneLimitTimestamp, limitCreate]
    rfl
  exact .add _ (.add _ .nil hfirst) hsecond

/-- A snapshot without accounts has no CPUs. -/
theorem sumLimitsOfLimit_empty {limit : PlanLimit} (h : limit.accounts = []) (c : ℕ) :
    sumLimitsOfLimit limit c = .ok 0 := by
  unfold sumLimitsOfLimit
  rw [h]
  rfl

/-- Snapshots without accounts allow a gap to a job that is itself within the global limit. -/
theorem gapOkForLimits_empty {values : LimitsValues} {job : PlanJob} {c : ℕ}
    (hglobal : getAt values.limitsValuesGlobal c = .ok job.limitCpus) (gap : PlanGap)
    {limit : PlanLimit} {rest : List PlanLimit} (hlimit : limit.accounts = [])
    (hrest : gapOkForLimits values c job gap rest = .ok true) :
    gapOkForLimits values c job gap (limit :: rest) = .ok true := by
  have hwhole : globalLimitOk values c job gap limit rest.head? = .ok true := by
    unfold globalLimitOk
    rw [sumLimitsOfLimit_empty hlimit, hglobal]
    split
    · show (pure (decide (0 + job.limitCpus ≤ job.limitCpus)) : Run Bool) = .ok true
      rw [zero_add, decide_eq_true le_rfl]
      rfl
    · rfl
  have hnone : limitFindAccount limit job.accountId = .ok none := by
    unfold limitFindAccount
    rw [hlimit]
    rfl
  have haccount : accountLimitOk values c job gap limit rest.head? = .ok true := by
    unfold accountLimitOk
    rw [hnone]
    rfl
  rw [gapOkForLimits]
  refine bind_ok.mpr ⟨true, hwhole, ?_⟩
  rw [if_pos rfl]
  refine bind_ok.mpr ⟨true, haccount, ?_⟩
  rw [if_pos rfl]
  exact hrest

/-- If the two walltimes belong to different classes, a value of the second class
below the job's CPUs separates the checkers. -/
theorem not_checkersAgree_of_class_ne {conf : LimitsForClusters} {cluster : PlanCluster}
    {job : PlanJob} {c₁ c₂ : ℕ} (hest : 0 < job.estimatedProcessing)
    (h₁ : walltimeSuitsToLimit conf job.jinfo.getWalltime cluster = .ok c₁)
    (h₂ : walltimeSuitsToLimit conf job.estimatedProcessing cluster = .ok c₂) (hne : c₁ ≠ c₂) :
    ¬ CheckersAgree conf cluster job := by
  intro hagree
  set n := c₁ + c₂ + 1 with hn
  set values : LimitsValues := ⟨List.replicate n job.limitCpus,
    (List.replicate n job.limitCpus).set c₂ (job.limitCpus - 1)⟩ with hvalues
  set t := job.startTime with ht
  have hown : getAt values.limitsValues c₁ = .ok job.limitCpus := by
    rw [getAt_ok, hvalues, List.getElem?_replicate, if_pos (by omega)]
  have hglobal₁ : getAt values.limitsValuesGlobal c₁ = .ok job.limitCpus := by
    rw [getAt_ok, hvalues]
    dsimp only
    rw [List.getElem?_set_ne hne.symm, List.getElem?_replicate, if_pos (by omega)]
  have hglobal₂ : getAt values.limitsValuesGlobal c₂ = .ok (job.limitCpus - 1) := by
    rw [getAt_ok, hvalues]
    dsimp only
    rw [List.getElem?_set_self (by rw [List.length_replicate]; omega)]
  set gap : PlanGap := ⟨t, t + job.estimatedProcessing, job.estimatedProcessing, 0, [], none⟩
    with hgap
  have hrun : GapRun job [gap] := by
    refine ⟨List.cons_ne_nil _ _, ⟨rfl, ⟨?_, Or.inl ?_⟩, trivial⟩, ?_⟩
    · rw [hgap]
      dsimp only
      omega
    · rw [hgap]
      dsimp only
      omega
    · rw [List.map_singleton, List.sum_singleton]
  -- both snapshots are empty, so the first checker sees only the job itself
  have hok : limitsIsGapOk conf cluster values [limitCreate t, limitCreate (t + 1)] job gap
      = .ok true := by
    unfold limitsIsGapOk
    refine bind_ok.mpr ⟨c₁, h₁, bind_ok.mpr ⟨job.limitCpus, hown, ?_⟩⟩
    rw [if_neg (lt_irrefl _)]
    exact gapOkForLimits_empty hglobal₁ gap rfl (gapOkForLimits_empty hglobal₁ gap rfl rfl)
  obtain ⟨job', hadjust, hstart⟩ := hagree values _ [gap] (builtLimits_pair conf cluster job t)
    hrun (by rw [List.forall_mem_singleton]; exact hok)
  -- the second checker moves the job to the second snapshot at least
  unfold adjustJobStarttimeAccordingToLimits at hadjust
  rw [h₂] at hadjust
  obtain ⟨_, hc, hadjust⟩ := bind_ok.mp hadjust
  cases hc
  rw [adjustToLimits] at hadjust
  obtain ⟨moved, hmoved, hadjust⟩ := bind_ok.mp hadjust
  have hconcerns : (limitCreate t).concerns (some (limitCreate (t + 1))) job :=
    Or.inl ⟨_, rfl, le_rfl, by show t < t + 1; omega⟩
  unfold adjustToLimit at hmoved
  rw [List.head?_cons, if_pos hconcerns, sumLimitsOfLimit_empty rfl, hglobal₂] at hmoved
  have hmoved' : (pure (job.startAt (t + 1)) : Run PlanJob) = .ok moved := by
    rw [← hmoved]
    show _ = (if job.limitCpus - 1 < 0 + job.limitCpus then _ else _)
    rw [if_pos (by omega)]
    rfl
  rw [← pure_ok.mp hmoved'] at hadjust
  rcases adjustToLimits_delayed _ (List.pairwise_singleton _ _) hadjust with rfl | ⟨s, hs, rfl⟩
  · have : t + 1 = t := hstart
    omega
  · have : s = t := hstart
    have : t + 1 < s := hs
    omega

/-- The checkers agree on a job `job_fillin` made, whatever its account, exactly if
the request gives a walltime or a missing one and one of a day belong to the same
class of limits. -/
theorem limitCheckers_agree_iff (conf : LimitsForClusters) (cluster : PlanCluster) {ptr : ℕ}
    {jinfo : JobInfo} {startTime : ℤ} {job : PlanJob}
    (h : jobFillin ptr jinfo startTime = .ok job) (hmax : job.completionTime ≤ LONG_MAX)
    (accountId : ℤ) :
    CheckersAgree conf cluster { job with accountId := accountId } ↔
      findResourceReq jinfo.resreq "walltime" ≠ none ∨
        walltimeSuitsToLimit conf 0 cluster
          = walltimeSuitsToLimit conf DEFAULT_WALLTIME cluster := by
  obtain ⟨hjinfo, -, hcompletion, hest⟩ := jobFillin_times h
  cases hwalltime : findResourceReq jinfo.resreq "walltime" with
  | some walltime =>
      have hsame : job.jinfo.getWalltime = job.estimatedProcessing := by
        unfold JobInfo.getWalltime
        rw [hest, hjinfo, hwalltime]
        rfl
      refine ⟨fun _ => Or.inl (by simp), fun _ => ?_⟩
      refine checkersAgree_of_class hcompletion hmax ?_
      show walltimeSuitsToLimit conf job.jinfo.getWalltime cluster = _
      rw [hsame]
  | none =>
      have hzero : job.jinfo.getWalltime = 0 := by
        unfold JobInfo.getWalltime
        rw [hjinfo, hwalltime]
        rfl
      have hday : job.estimatedProcessing = DEFAULT_WALLTIME := by
        rw [hest, hwalltime]
        rfl
      constructor
      · intro hagree
        right
        by_contra hne
        -- a limit array for the cluster is found for both walltimes or for neither
        cases hfind : findLimitsForCluster conf cluster.clusterName cluster.numRunningCpus with
        | error fault =>
            refine hne ?_
            unfold walltimeSuitsToLimit
            rw [hfind]
            rfl
        | ok arrays =>
            have hclass : ∀ walltime, walltimeSuitsToLimit conf walltime cluster = .ok
                (arrays.tresholds.findIdx
                  (fun treshold => decide (toInt walltime ≤ treshold))) := by
              intro walltime
              unfold walltimeSuitsToLimit
              rw [hfind]
              rfl
            refine not_checkersAgree_of_class_ne ?_ (hclass _) (hclass _) ?_ hagree
            · show 0 < job.estimatedProcessing
              rw [hday]
              decide
            · show arrays.tresholds.findIdx (fun treshold =>
                decide (toInt job.jinfo.getWalltime ≤ treshold)) ≠
                arrays.tresholds.findIdx (fun treshold =>
                  decide (toInt job.estimatedProcessing ≤ treshold))
              rw [hzero, hday]
              intro heq
              exact hne (by rw [hclass, hclass, heq])
      · rintro (habsurd | hclass)
        · exact absurd rfl habsurd
        · refine checkersAgree_of_class hcompletion hmax ?_
          show walltimeSuitsToLimit conf job.jinfo.getWalltime cluster
            = walltimeSuitsToLimit conf job.estimatedProcessing cluster
          rw [hzero, hday]
          exact hclass

/-- Two classes of limits: up to two hours a user may have all CPUs, beyond that
half of them. -/
def twoClasses : LimitsForClusters :=
  [("", ⟨[(0, ⟨[.finite 1, .finite (1 / 2)], [.finite 1, .finite (1 / 2)], [7200, 604800]⟩)],
    by decide⟩)]

/-- A request for three CPUs of one node, with the given further requests. -/
def threeCpus (others : List ResourceReq) : JobInfo :=
  { (default : JobInfo) with
    state := .queued
    resreq := [⟨"procs", 3⟩, ⟨"nodect", 1⟩, ⟨"mem", 0⟩] ++ others }

/-- With a walltime in the request the checkers agree. -/
theorem limitCheckers_agree_requested :
    ∃ job, jobFillin 1 (threeCpus [⟨"walltime", 86400⟩]) 1000 = .ok job ∧
      CheckersAgree twoClasses ⟨"zubat", [], 4, 4, 0⟩ { job with accountId := 7 } := by
  have hfill : (jobFillin 1 (threeCpus [⟨"walltime", 86400⟩]) 1000 >>= fun job =>
      pure job.completionTime) = .ok 87400 := by
    decide +kernel
  obtain ⟨job, hjob, hend⟩ := bind_ok.mp hfill
  have hmax : job.completionTime ≤ LONG_MAX := by
    rw [pure_ok.mp hend]
    decide
  exact ⟨job, hjob,
    (limitCheckers_agree_iff twoClasses _ hjob hmax 7).mpr (Or.inl (by decide))⟩

/-- Without one, four CPUs of which one is used until 1200: the gap of a day from
1000 on passes with the limits for short jobs, and the job is then moved to 1200 by
the limits for jobs of a day. -/
theorem limitCheckers_disagree :
    ∃ values limits job,
      updateLimitsValues twoClasses ⟨"zubat", [], 4, 4, 0⟩ ⟨[], []⟩ = .ok values ∧
      addJobToLimits twoClasses ⟨"zubat", [], 4, 4, 0⟩ []
        (PlanJob.filled 2 default 1 1 (by decide) 0 300 0 900) = .ok limits ∧
      jobFillin 1 (threeCpus []) 1000 = .ok job ∧
      GapRun job [⟨1000, 87400, 86400, 4, [], none⟩] ∧
      limitsIsGapOk twoClasses ⟨"zubat", [], 4, 4, 0⟩ values limits job
        ⟨1000, 87400, 86400, 4, [], none⟩ = .ok true ∧
      ∃ job', adjustJobStarttimeAccordingToLimits twoClasses ⟨"zubat", [], 4, 4, 0⟩ values limits
        job = .ok job' ∧ job'.startTime = 1200 := by
  have hrun : (do
      let values ← updateLimitsValues twoClasses ⟨"zubat", [], 4, 4, 0⟩ ⟨[], []⟩
      let limits ← addJobToLimits twoClasses ⟨"zubat", [], 4, 4, 0⟩ []
        (PlanJob.filled 2 default 1 1 (by decide) 0 300 0 900)
      let job ← jobFillin 1 (threeCpus []) 1000
      let ok ← limitsIsGapOk twoClasses ⟨"zubat", [], 4, 4, 0⟩ values limits job
        ⟨1000, 87400, 86400, 4, [], none⟩
      let job' ← adjustJobStarttimeAccordingToLimits twoClasses ⟨"zubat", [], 4, 4, 0⟩ values
        limits job
      return (job.startTime, job.estimatedProcessing, ok, job'.startTime) :
        Run (ℤ × ℤ × Bool × ℤ)) = .ok (1000, 86400, true, 1200) := by
    decide +kernel
  obtain ⟨values, hvalues, hrun⟩ := bind_ok.mp hrun
  obtain ⟨limits, hlimits, hrun⟩ := bind_ok.mp hrun
  obtain ⟨job, hjob, hrun⟩ := bind_ok.mp hrun
  obtain ⟨ok, hok, hrun⟩ := bind_ok.mp hrun
  obtain ⟨job', hjob', hrun⟩ := bind_ok.mp hrun
  rw [pure_ok, Prod.mk.injEq, Prod.mk.injEq, Prod.mk.injEq] at hrun
  obtain ⟨hstart, hest, rfl, hmoved⟩ := hrun
  refine ⟨values, limits, job, hvalues, hlimits, hjob, ?_, hok, job', hjob', hmoved⟩
  refine ⟨List.cons_ne_nil _ _, ?_, ?_⟩
  · rw [hstart]
    exact ⟨rfl, ⟨by decide, Or.inl (by decide)⟩, trivial⟩
  · rw [hest]
    decide

end PlanSched
