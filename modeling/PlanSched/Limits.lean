/-
# The limit profile of a cluster

Models the rest of `plan_limits.cpp`: the list of `plan_limit` snapshots that
says how many CPUs each account uses, per walltime class, from each timestamp
on.  `add_job_to_limits` enters a job, `adjust_job_starttime_according_to_limits`
moves a job behind the snapshots it would overflow.

The list is a step function of time in the sense of `StepProfile`: the snapshot
in force at `t` is the last one with timestamp at most `t`.  The main results
are `addJobToLimits_spec` (one job) and `addJobsToLimits_profile` (any sequence
of jobs): the totals per class are exact at every time.  The hidden invariant is
that the last snapshot is empty, which is what makes it right to append an empty
snapshot behind it.
-/
import PlanSched.StepProfile
import PlanSched.LimitsConfig

namespace PlanSched

open CheckedRun StepProfile

/-! ## Snapshots and their accounts -/

/-- `NUM_LIMITS`: the length of every `num_cpus` array. -/
def NUM_LIMITS : ℕ := 8

/-- `plan_limit_account`. -/
structure PlanLimitAccount where
  accountId : ℤ
  numCpus : List ℤ
  length_numCpus : numCpus.length = NUM_LIMITS
  deriving DecidableEq, Repr

/-- `plan_limit`; `num_accounts` is the length of `accounts`. -/
structure PlanLimit where
  timestamp : ℤ
  accounts : List PlanLimitAccount
  deriving DecidableEq, Repr

/-- `limit_create`. -/
def limitCreate (timestamp : ℤ) : PlanLimit := ⟨timestamp, []⟩

/-- The loop of `limit_add_account` that makes room for a new account, from
position `p` downwards; it stops in front of cell `0` without looking at it. -/
def newPosition (accounts : List PlanLimitAccount) (accountId : ℤ) : ℕ → ℕ
  | 0 => 0
  | p + 1 =>
      if 0 < p ∧ accountId < ((accounts[p]?).map PlanLimitAccount.accountId).getD accountId then
        newPosition accounts accountId p
      else p + 1

/-- `limit_add_account`: the new snapshot and the position of the account. -/
def limitAddAccount (limit : PlanLimit) (accountId : ℤ) : PlanLimit × ℕ :=
  let p := newPosition limit.accounts accountId limit.accounts.length
  let account : PlanLimitAccount :=
    ⟨accountId, List.replicate NUM_LIMITS 0, List.length_replicate⟩
  ({ limit with accounts := limit.accounts.insertIdx p account }, p)

/-- `bin_search_account` on the cells `a..b`, with a budget of recursive calls. -/
def binSearchAccountAux (accounts : List PlanLimitAccount) (id : ℤ) :
    ℕ → ℤ → ℤ → Run (Option ℕ)
  | 0, _, _ => .error .outOfSteps
  | fuel + 1, a, b =>
      if b < a then .ok none
      else do
        let middle := (a + b).tdiv 2
        if middle < 0 then .error .badIndex
        else do
          let account ← getAt accounts middle.toNat
          if account.accountId = id then return some middle.toNat
          else if a = b then return none
          else if account.accountId < id then binSearchAccountAux accounts id fuel (middle + 1) b
          else binSearchAccountAux accounts id fuel a (middle - 1)

/-- `bin_search_account`; `none` is the result `-1`. -/
def binSearchAccount (accounts : List PlanLimitAccount) (a b id : ℤ) : Run (Option ℕ) :=
  binSearchAccountAux accounts id ((b - a).toNat + 2) a b

/-- `limit_find_account`. -/
def limitFindAccount (limit : PlanLimit) (accountId : ℤ) : Run (Option ℕ) := do
  if limit.accounts.length = 0 then return none
  let first ← getAt limit.accounts 0
  let last ← getAt limit.accounts (limit.accounts.length - 1)
  if accountId < first.accountId ∨ last.accountId < accountId then return none
  binSearchAccount limit.accounts 0 (limit.accounts.length - 1) accountId

/-- `num_cpus[found_limit] += num_cpus` on one account. -/
def PlanLimitAccount.addCpus (account : PlanLimitAccount) (foundLimit : ℕ) (numCpus : ℤ) :
    PlanLimitAccount :=
  ⟨account.accountId, account.numCpus.modify foundLimit (· + numCpus), by
    rw [List.length_modify]; exact account.length_numCpus⟩

/-- The account cell `add_limit_to_limit` writes to: the one that was found, or a
new one. -/
def accountCell (limit : PlanLimit) (accountId : ℤ) : Option ℕ → PlanLimit × ℕ
  | some foundAccount => (limit, foundAccount)
  | none => limitAddAccount limit accountId

/-- `add_limit_to_limit`. -/
def addLimitToLimit (conf : LimitsForClusters) (cluster : PlanCluster) (limit : PlanLimit)
    (accountId walltime numCpus : ℤ) : Run PlanLimit := do
  let found ← limitFindAccount limit accountId
  let (limit, foundAccount) := accountCell limit accountId found
  let foundLimit ← walltimeSuitsToLimit conf walltime cluster
  let account ← getAt limit.accounts foundAccount
  let _ ← getAt account.numCpus foundLimit
  return { limit with
    accounts := limit.accounts.set foundAccount (account.addCpus foundLimit numCpus) }

/-- `sum_limits_of_limit`. -/
def sumLimitsOfLimit (limit : PlanLimit) (limitPosition : ℕ) : Run ℤ :=
  limit.accounts.foldlM (fun sum account => do
    let numCpus ← getAt account.numCpus limitPosition
    return sum + numCpus) 0

/-! ## The list of snapshots -/

/-- `clone_limit`. -/
def cloneLimit (oldLimit : PlanLimit) (newTimestamp : ℤ) : PlanLimit :=
  { oldLimit with timestamp := newTimestamp }

/-- `clone_limit_timestamp`: enter a snapshot for `newTimestamp`, empty behind
the last one, a copy of its predecessor between two. -/
def cloneLimitTimestamp (newTimestamp : ℤ) : List PlanLimit → List PlanLimit
  | [] => []
  | limit :: rest =>
      if limit.timestamp = newTimestamp then limit :: rest
      else
        match rest with
        | [] =>
            if limit.timestamp < newTimestamp then [limit, limitCreate newTimestamp]
            else [limit]
        | successor :: _ =>
            if limit.timestamp < newTimestamp ∧ newTimestamp < successor.timestamp then
              limit :: cloneLimit limit newTimestamp :: rest
            else limit :: cloneLimitTimestamp newTimestamp rest

/-- The first two steps of `add_job_to_limits`: an empty list gets a snapshot for
the completion, and a start before the first snapshot gets one in front. -/
def leadingSnapshot (limits : List PlanLimit) (job : PlanJob) : List PlanLimit :=
  match (if limits = [] then [limitCreate job.completionTime] else limits) with
  | [] => []
  | first :: rest =>
      if job.startTime < first.timestamp then limitCreate job.startTime :: first :: rest
      else first :: rest

/-- The snapshots after `add_job_to_limits` made sure that there is one for the
job's start and one for its completion. -/
def breakpointsForJob (limits : List PlanLimit) (job : PlanJob) : List PlanLimit :=
  let limits := leadingSnapshot limits job
  let foundStartTime := limits.any (fun limit => limit.timestamp == job.startTime)
  let foundCompletionTime := limits.any (fun limit => limit.timestamp == job.completionTime)
  let limits := if foundStartTime then limits else cloneLimitTimestamp job.startTime limits
  if foundCompletionTime then limits else cloneLimitTimestamp job.completionTime limits

/-- The CPUs a job counts for against the limits. -/
def PlanJob.limitCpus (job : PlanJob) : ℤ := job.reqPpn * job.reqNumNodes

/-- `add_job_to_limits`. -/
def addJobToLimits (conf : LimitsForClusters) (cluster : PlanCluster)
    (limits : List PlanLimit) (job : PlanJob) : Run (List PlanLimit) :=
  (breakpointsForJob limits job).mapM (fun limit =>
    if job.startTime ≤ limit.timestamp ∧ limit.timestamp < job.completionTime then
      addLimitToLimit conf cluster limit job.accountId (job.completionTime - job.startTime)
        job.limitCpus
    else pure limit)

/-! ## Testing a gap against the limits -/

/-- `JobInfo::get_walltime`. -/
def JobInfo.getWalltime (jinfo : JobInfo) : ℤ :=
  ((findResourceReq jinfo.resreq "walltime").map ResourceReq.amount).getD 0

/-- The snapshot begins inside the gap, or is in force at its start. -/
def PlanLimit.meetsGap (limit : PlanLimit) (successor : Option PlanLimit) (gap : PlanGap) : Prop :=
  (gap.startTime ≤ limit.timestamp ∧ limit.timestamp < gap.endTime) ∨
    ∃ next ∈ successor, limit.timestamp < gap.startTime ∧ gap.startTime < next.timestamp

instance (limit : PlanLimit) (successor : Option PlanLimit) (gap : PlanGap) :
    Decidable (limit.meetsGap successor gap) :=
  inferInstanceAs (Decidable (_ ∨ _))

/-- The global test of one pass of the loop of `limits_is_gap_ok`. -/
def globalLimitOk (values : LimitsValues) (foundLimit : ℕ) (job : PlanJob) (gap : PlanGap)
    (limit : PlanLimit) (successor : Option PlanLimit) : Run Bool := do
  if limit.meetsGap successor gap then do
    let globalLimitValue ← sumLimitsOfLimit limit foundLimit
    let value ← getAt values.limitsValuesGlobal foundLimit
    return decide (globalLimitValue + job.limitCpus ≤ value)
  else return true

/-- The test of the account in one pass of the loop of `limits_is_gap_ok`. -/
def accountLimitOk (values : LimitsValues) (foundLimit : ℕ) (job : PlanJob) (gap : PlanGap)
    (limit : PlanLimit) (successor : Option PlanLimit) : Run Bool := do
  let found ← limitFindAccount limit job.accountId
  match found with
  | none => return true
  | some foundAccount =>
      if limit.meetsGap successor gap then do
        let value ← getAt values.limitsValues foundLimit
        let account ← getAt limit.accounts foundAccount
        let numCpus ← getAt account.numCpus foundLimit
        return decide (numCpus + job.limitCpus ≤ value)
      else return true

/-- The loop of `limits_is_gap_ok`. -/
def gapOkForLimits (values : LimitsValues) (foundLimit : ℕ) (job : PlanJob) (gap : PlanGap) :
    List PlanLimit → Run Bool
  | [] => .ok true
  | limit :: rest => do
      if (← globalLimitOk values foundLimit job gap limit rest.head?) then do
        if (← accountLimitOk values foundLimit job gap limit rest.head?) then
          gapOkForLimits values foundLimit job gap rest
        else return false
      else return false

/-- `limits_is_gap_ok`. -/
def limitsIsGapOk (conf : LimitsForClusters) (cluster : PlanCluster) (values : LimitsValues)
    (limits : List PlanLimit) (job : PlanJob) (gap : PlanGap) : Run Bool := do
  let foundLimit ← walltimeSuitsToLimit conf job.jinfo.getWalltime cluster
  let value ← getAt values.limitsValues foundLimit
  if value < job.limitCpus then return false
  else gapOkForLimits values foundLimit job gap limits

/-! ## Moving a job behind the snapshots it would overflow -/

/-- `job -> start_time = t; job -> completion_time = start + estimated_processing`. -/
def PlanJob.startAt (job : PlanJob) (t : ℤ) : PlanJob :=
  { job with startTime := t, completionTime := t + job.estimatedProcessing }

/-- The snapshot is in force at the job's start, or begins while the job runs. -/
def PlanLimit.concerns (limit : PlanLimit) (successor : Option PlanLimit) (job : PlanJob) : Prop :=
  (∃ next ∈ successor, limit.timestamp ≤ job.startTime ∧ job.startTime < next.timestamp) ∨
    (job.startTime < limit.timestamp ∧ limit.timestamp < job.completionTime)

instance (limit : PlanLimit) (successor : Option PlanLimit) (job : PlanJob) :
    Decidable (limit.concerns successor job) :=
  inferInstanceAs (Decidable (_ ∨ _))

/-- The second half of the loop body: the account's own limit. -/
def adjustToAccount (values : LimitsValues) (foundLimit : ℕ) (limit : PlanLimit)
    (successor : Option PlanLimit) (job : PlanJob) : Run PlanJob := do
  let found ← limitFindAccount limit job.accountId
  match found with
  | none => return job
  | some foundAccount =>
      if limit.concerns successor job then do
        let account ← getAt limit.accounts foundAccount
        let numCpus ← getAt account.numCpus foundLimit
        let value ← getAt values.limitsValues foundLimit
        if value < numCpus + job.limitCpus then do
          let next ← deref successor
          return job.startAt next.timestamp
        else return job
      else return job

/-- One pass of the loop of `adjust_job_starttime_according_to_limits`.  There is
no test that the snapshot has a successor before it is followed. -/
def adjustToLimit (values : LimitsValues) (foundLimit : ℕ) (limit : PlanLimit)
    (successor : Option PlanLimit) (job : PlanJob) : Run PlanJob := do
  if limit.concerns successor job then do
    let globalLimitValue ← sumLimitsOfLimit limit foundLimit
    let value ← getAt values.limitsValuesGlobal foundLimit
    if value < globalLimitValue + job.limitCpus then do
      let next ← deref successor
      return job.startAt next.timestamp
    else adjustToAccount values foundLimit limit successor job
  else adjustToAccount values foundLimit limit successor job

/-- The loop of `adjust_job_starttime_according_to_limits`. -/
def adjustToLimits (values : LimitsValues) (foundLimit : ℕ) :
    List PlanLimit → PlanJob → Run PlanJob
  | [], job => .ok job
  | limit :: rest, job => do
      let job ← adjustToLimit values foundLimit limit rest.head? job
      adjustToLimits values foundLimit rest job

/-- `adjust_job_starttime_according_to_limits`. -/
def adjustJobStarttimeAccordingToLimits (conf : LimitsForClusters) (cluster : PlanCluster)
    (values : LimitsValues) (limits : List PlanLimit) (job : PlanJob) : Run PlanJob := do
  let foundLimit ← walltimeSuitsToLimit conf job.estimatedProcessing cluster
  adjustToLimits values foundLimit limits job

/-! ## Finding and entering an account -/

/-- The search only reads cells of the interval, returns within its budget, and a
found cell belongs to the account. -/
theorem binSearchAccountAux_spec (accounts : List PlanLimitAccount) (id : ℤ) :
    ∀ (fuel : ℕ) (a b : ℤ), 0 ≤ a → b < accounts.length → b - a + 1 < fuel → 0 < fuel →
      ∃ r, binSearchAccountAux accounts id fuel a b = .ok r ∧
        ∀ i, r = some i → ∃ account, accounts[i]? = some account ∧ account.accountId = id := by
  intro fuel
  induction fuel with
  | zero => intro a b _ _ _ h0; omega
  | succ fuel ih =>
      intro a b ha hb hfuel _
      rw [binSearchAccountAux]
      by_cases hba : b < a
      · exact ⟨none, by rw [if_pos hba], by simp⟩
      · rw [if_neg hba]
        have hmid : a ≤ (a + b).tdiv 2 ∧ (a + b).tdiv 2 ≤ b := by
          rw [Int.tdiv_eq_ediv_of_nonneg (by omega)]
          omega
        have hlt : ((a + b).tdiv 2).toNat < accounts.length := by omega
        rw [if_neg (by omega)]
        have hget : getAt accounts ((a + b).tdiv 2).toNat
            = .ok accounts[((a + b).tdiv 2).toNat] := by
          rw [getAt_ok, List.getElem?_eq_getElem hlt]
        simp only [hget, bind, Except.bind]
        split
        · rename_i heq
          refine ⟨some ((a + b).tdiv 2).toNat, rfl, ?_⟩
          intro i hi
          cases hi
          exact ⟨_, List.getElem?_eq_getElem hlt, heq⟩
        · split
          · exact ⟨none, rfl, by simp⟩
          · split
            · exact ih _ _ (by omega) hb (by omega) (by omega)
            · exact ih _ _ ha (by omega) (by omega) (by omega)

/-- `limit_find_account` always returns, and what it finds is the account's cell. -/
theorem limitFindAccount_spec (limit : PlanLimit) (accountId : ℤ) :
    ∃ r, limitFindAccount limit accountId = .ok r ∧
      ∀ i, r = some i → ∃ account, limit.accounts[i]? = some account ∧
        account.accountId = accountId := by
  unfold limitFindAccount
  by_cases h0 : limit.accounts.length = 0
  · exact ⟨none, by simp [h0, pure, Except.pure], by simp⟩
  · have h1 : 0 < limit.accounts.length := by omega
    have hfirst : getAt limit.accounts 0 = .ok limit.accounts[0] := by
      rw [getAt_ok, List.getElem?_eq_getElem h1]
    have hlast : getAt limit.accounts (limit.accounts.length - 1)
        = .ok (limit.accounts[limit.accounts.length - 1]) := by
      rw [getAt_ok, List.getElem?_eq_getElem (by omega)]
    rw [if_neg h0, hfirst, hlast]
    simp only [bind, Except.bind]
    split
    · exact ⟨none, rfl, by simp⟩
    · exact binSearchAccountAux_spec _ _ _ _ _ le_rfl (by omega) (by omega) (by omega)

/-- Room is made at a position of the array. -/
theorem newPosition_le (accounts : List PlanLimitAccount) (accountId : ℤ) (p : ℕ) :
    newPosition accounts accountId p ≤ p := by
  induction p with
  | zero => exact le_rfl
  | succ p ih =>
      rw [newPosition]
      split
      · omega
      · exact le_rfl

/-! ## Totals per class -/

/-- The CPUs of all accounts of a snapshot in class `c`. -/
def PlanLimit.classTotal (limit : PlanLimit) (c : ℕ) : ℤ :=
  (limit.accounts.map (fun account => account.numCpus.getD c 0)).sum

/-- `sum_limits_of_limit` returns the class total, for every real class. -/
theorem sumLimitsOfLimit_eq (limit : PlanLimit) {c : ℕ} (hc : c < NUM_LIMITS) :
    sumLimitsOfLimit limit c = .ok (limit.classTotal c) := by
  have hgen : ∀ (accounts : List PlanLimitAccount) (sum : ℤ),
      accounts.foldlM (fun sum account => do
        let numCpus ← getAt account.numCpus c
        return sum + numCpus) sum
        = (.ok (sum + (accounts.map (fun account => account.numCpus.getD c 0)).sum) : Run ℤ) := by
    intro accounts
    induction accounts with
    | nil => intro sum; simp [pure, Except.pure]
    | cons account accounts ih =>
        intro sum
        have hlt : c < account.numCpus.length := by rw [account.length_numCpus]; exact hc
        have hget : getAt account.numCpus c = .ok (account.numCpus.getD c 0) := by
          rw [getAt_ok, List.getD_eq_getElem?_getD, List.getElem?_eq_getElem hlt]
          rfl
        rw [List.foldlM_cons, hget]
        simp only [bind, Except.bind, pure, Except.pure]
        rw [List.map_cons, List.sum_cons, ← add_assoc]
        exact ih _
  unfold sumLimitsOfLimit PlanLimit.classTotal
  rw [hgen]
  simp

/-- Adding CPUs to one account changes its cell of that class only. -/
theorem getD_addCpus (account : PlanLimitAccount) {foundLimit : ℕ} (numCpus : ℤ) (c : ℕ)
    (hf : foundLimit < NUM_LIMITS) :
    (account.addCpus foundLimit numCpus).numCpus.getD c 0
      = account.numCpus.getD c 0 + if c = foundLimit then numCpus else 0 := by
  have hlt : foundLimit < account.numCpus.length := by rw [account.length_numCpus]; exact hf
  unfold PlanLimitAccount.addCpus
  rw [List.getD_eq_getElem?_getD, List.getD_eq_getElem?_getD, List.getElem?_modify]
  by_cases hcf : foundLimit = c
  · subst hcf
    rw [List.getElem?_eq_getElem hlt]
    simp
  · have hcf' : ¬ c = foundLimit := fun h => hcf h.symm
    simp [hcf, hcf']

/-- A new account enters with zero CPUs. -/
theorem classTotal_limitAddAccount (limit : PlanLimit) (accountId : ℤ) (c : ℕ) :
    (limitAddAccount limit accountId).1.classTotal c = limit.classTotal c := by
  unfold limitAddAccount PlanLimit.classTotal
  have hperm := List.perm_insertIdx (α := PlanLimitAccount)
    ⟨accountId, List.replicate NUM_LIMITS 0, List.length_replicate⟩
    limit.accounts (newPosition_le limit.accounts accountId limit.accounts.length)
  rw [(hperm.map _).sum_eq, List.map_cons, List.sum_cons]
  have hzero : (List.replicate NUM_LIMITS (0 : ℤ)).getD c 0 = 0 := by
    rw [List.getD_eq_getElem?_getD, List.getElem?_replicate]
    split <;> rfl
  rw [hzero, zero_add]

/-- The new account sits where `limit_add_account` says. -/
theorem getElem?_limitAddAccount (limit : PlanLimit) (accountId : ℤ) :
    ∃ account, (limitAddAccount limit accountId).1.accounts[(limitAddAccount limit accountId).2]?
      = some account := by
  unfold limitAddAccount
  refine ⟨⟨accountId, List.replicate NUM_LIMITS 0, List.length_replicate⟩, ?_⟩
  simp only
  rw [List.getElem?_insertIdx_self]
  rw [if_pos (newPosition_le _ _ _)]

/-- `add_limit_to_limit` adds the CPUs to the total of the walltime's class and
touches no other class. -/
theorem addLimitToLimit_spec (conf : LimitsForClusters) (cluster : PlanCluster)
    (limit : PlanLimit) (accountId walltime numCpus : ℤ) {foundLimit : ℕ}
    (hclass : walltimeSuitsToLimit conf walltime cluster = .ok foundLimit)
    (hlt : foundLimit < NUM_LIMITS) :
    ∃ limit', addLimitToLimit conf cluster limit accountId walltime numCpus = .ok limit' ∧
      limit'.timestamp = limit.timestamp ∧
      ∀ c, limit'.classTotal c
        = limit.classTotal c + if c = foundLimit then numCpus else 0 := by
  obtain ⟨found, hfound, hcell⟩ := limitFindAccount_spec limit accountId
  -- the snapshot and the position after a missing account was entered
  obtain ⟨base, pos, account, hpair, hbase, htime, htotal⟩ :
      ∃ (base : PlanLimit) (pos : ℕ) (account : PlanLimitAccount),
        accountCell limit accountId found = (base, pos) ∧
        base.accounts[pos]? = some account ∧ base.timestamp = limit.timestamp ∧
        ∀ c, base.classTotal c = limit.classTotal c := by
    cases found with
    | some i =>
        obtain ⟨account, haccount, _⟩ := hcell i rfl
        exact ⟨limit, i, account, rfl, haccount, rfl, fun _ => rfl⟩
    | none =>
        obtain ⟨account, haccount⟩ := getElem?_limitAddAccount limit accountId
        exact ⟨_, _, account, rfl, haccount, rfl, classTotal_limitAddAccount limit accountId⟩
  have hread : getAt base.accounts pos = .ok account := by rw [getAt_ok]; exact hbase
  have hcellread : getAt account.numCpus foundLimit = .ok (account.numCpus.getD foundLimit 0) := by
    have : foundLimit < account.numCpus.length := by rw [account.length_numCpus]; exact hlt
    rw [getAt_ok, List.getD_eq_getElem?_getD, List.getElem?_eq_getElem this]
    rfl
  refine ⟨{ base with accounts := base.accounts.set pos (account.addCpus foundLimit numCpus) },
    ?_, htime, ?_⟩
  · unfold addLimitToLimit
    simp only [hfound, hpair, hclass, hread, hcellread, bind, Except.bind, pure, Except.pure]
  · intro c
    have hpos : pos < base.accounts.length := by
      rw [List.getElem?_eq_some_iff] at hbase
      exact hbase.1
    have hget : base.accounts[pos] = account := by
      rw [List.getElem?_eq_some_iff] at hbase
      exact hbase.2
    rw [← htotal c]
    unfold PlanLimit.classTotal
    simp only [List.map_set]
    rw [List.sum_set', dif_pos (by rw [List.length_map]; exact hpos), List.getElem_map, hget,
      getD_addCpus account numCpus c hlt]
    ring

/-! ## Entering a breakpoint -/

/-- Timestamps strictly increase and the last snapshot is empty. -/
structure LimitsInv (limits : List PlanLimit) : Prop where
  increasing : Increasing PlanLimit.timestamp limits
  last_empty : ∀ limit ∈ limits.getLast?, limit.accounts = []

/-- The profile of limits starts without snapshots. -/
theorem limitsInv_nil : LimitsInv [] := by
  refine ⟨List.Pairwise.nil, ?_⟩
  intro limit hlimit
  cases hlimit

/-- The CPUs of class `c` counted at time `t`. -/
def profileAt (limits : List PlanLimit) (c : ℕ) (t : ℤ) : ℤ :=
  valueAt PlanLimit.timestamp (fun limit => limit.classTotal c) limits t

/-- An empty snapshot counts nothing. -/
theorem classTotal_of_accounts_nil {limit : PlanLimit} (h : limit.accounts = []) (c : ℕ) :
    limit.classTotal c = 0 := by
  unfold PlanLimit.classTotal
  rw [h]
  rfl

/-- `limits'` is `limits` with one more snapshot at `ts`, which repeats its
predecessor or, at either end of the list, is empty. -/
def EntersAt (limits limits' : List PlanLimit) (ts : ℤ) : Prop :=
  ∃ (pre post : List PlanLimit) (x : PlanLimit),
    limits = pre ++ post ∧ limits' = pre ++ x :: post ∧ x.timestamp = ts ∧
    (∀ a ∈ pre, a.timestamp < ts) ∧ (∀ a ∈ post, ts < a.timestamp) ∧
    (pre = [] ∨ post = [] → x.accounts = []) ∧
    (post ≠ [] → ∀ l ∈ pre.getLast?, x.accounts = l.accounts)

/-- A breakpoint entered that way keeps the invariant. -/
theorem EntersAt.inv {limits limits' : List PlanLimit} {ts : ℤ}
    (h : EntersAt limits limits' ts) (hinv : LimitsInv limits) : LimitsInv limits' := by
  obtain ⟨pre, post, x, rfl, rfl, hx, hpre, hpost, hempty, _⟩ := h
  have hinc := hinv.increasing
  unfold Increasing at hinc
  rw [List.pairwise_append] at hinc
  refine ⟨?_, ?_⟩
  · unfold Increasing
    rw [List.pairwise_append, List.pairwise_cons]
    refine ⟨hinc.1, ⟨fun a ha => by rw [hx]; exact hpost a ha, hinc.2.1⟩, ?_⟩
    intro a ha b hb
    rcases List.mem_cons.mp hb with rfl | hb
    · rw [hx]; exact hpre a ha
    · exact hinc.2.2 a ha b hb
  · intro limit hlimit
    by_cases hp : post = []
    · subst hp
      have : x = limit := by simpa using hlimit
      rw [← this]
      exact hempty (Or.inr rfl)
    · apply hinv.last_empty
      rw [List.getLast?_append_of_ne_nil _ (by simp)] at hlimit
      rw [List.getLast?_append_of_ne_nil _ hp]
      cases post with
      | nil => exact absurd rfl hp
      | cons b bs => simpa using hlimit

/-- A breakpoint entered that way changes no total. -/
theorem EntersAt.profileAt_eq {limits limits' : List PlanLimit} {ts : ℤ}
    (h : EntersAt limits limits' ts) (hinv : LimitsInv limits) (c : ℕ) (t : ℤ) :
    profileAt limits' c t = profileAt limits c t := by
  obtain ⟨pre, post, x, rfl, rfl, hx, hpre, _, hempty, hcopy⟩ := h
  unfold profileAt
  apply valueAt_insert
  · intro a ha
    rw [hx]
    exact hpre a ha
  · -- the value of the left neighbour; at the end of the list that one is empty
    cases hl : pre.getLast? with
    | none =>
        have hnil : pre = [] := by simpa using hl
        simp [classTotal_of_accounts_nil (hempty (Or.inl hnil))]
    | some l =>
        by_cases hp : post = []
        · have hlast : l.accounts = [] := by
            apply hinv.last_empty
            rw [hp, List.append_nil, hl]
            rfl
          simp [classTotal_of_accounts_nil (hempty (Or.inr hp)),
            classTotal_of_accounts_nil hlast]
        · have := hcopy hp l (by rw [hl]; rfl)
          simp [PlanLimit.classTotal, this]

/-- The old snapshots stay and the new one is at `ts`. -/
theorem EntersAt.mem {limits limits' : List PlanLimit} {ts : ℤ}
    (h : EntersAt limits limits' ts) :
    (∃ a ∈ limits', a.timestamp = ts) ∧ ∀ a ∈ limits, a ∈ limits' := by
  obtain ⟨pre, post, x, rfl, rfl, hx, -⟩ := h
  refine ⟨⟨x, by simp, hx⟩, ?_⟩
  intro a ha
  rcases List.mem_append.mp ha with h | h
  · exact List.mem_append_left _ h
  · exact List.mem_append_right _ (List.mem_cons_of_mem _ h)

/-- A breakpoint entered behind an earlier snapshot of the rest stays one when a
snapshot is put in front. -/
theorem EntersAt.cons {limit : PlanLimit} {rest rest' : List PlanLimit} {ts : ℤ}
    (h : EntersAt rest rest' ts) (hlimit : limit.timestamp < ts)
    (hearlier : ∃ a ∈ rest, a.timestamp < ts) :
    EntersAt (limit :: rest) (limit :: rest') ts := by
  obtain ⟨pre, post, x, rfl, rfl, hx, hpre, hpost, hempty, hcopy⟩ := h
  have hne : pre ≠ [] := by
    intro hnil
    obtain ⟨a, ha, hats⟩ := hearlier
    rw [hnil, List.nil_append] at ha
    have := hpost a ha
    omega
  refine ⟨limit :: pre, post, x, rfl, rfl, hx, ?_, hpost, ?_, ?_⟩
  · intro a ha
    rcases List.mem_cons.mp ha with rfl | ha
    · exact hlimit
    · exact hpre a ha
  · intro hor
    apply hempty
    rcases hor with h | h
    · cases h
    · exact Or.inr h
  · intro hp l hl
    apply hcopy hp l
    cases pre with
    | nil => exact absurd rfl hne
    | cons b bs => simpa using hl

/-- A time before every snapshot is not entered. -/
theorem cloneLimitTimestamp_of_lt {ts : ℤ} (limits : List PlanLimit)
    (h : ∀ a ∈ limits, ts < a.timestamp) : cloneLimitTimestamp ts limits = limits := by
  induction limits with
  | nil => rfl
  | cons limit rest ih =>
      have hlimit := h limit List.mem_cons_self
      rw [cloneLimitTimestamp.eq_def]
      simp only
      rw [if_neg (by omega)]
      cases rest with
      | nil => simp only; rw [if_neg (by omega)]
      | cons successor others =>
          simp only
          rw [if_neg (by omega), ih (fun a ha => h a (List.mem_cons_of_mem _ ha))]

/-- `clone_limit_timestamp` enters a breakpoint, except when there is one already
or when the new one would be the earliest. -/
theorem cloneLimitTimestamp_cases (ts : ℤ) (limits : List PlanLimit)
    (hinc : Increasing PlanLimit.timestamp limits) :
    (cloneLimitTimestamp ts limits = limits ∧
      ((∃ a ∈ limits, a.timestamp = ts) ∨ ∀ a ∈ limits, ts < a.timestamp)) ∨
    ((∃ a ∈ limits, a.timestamp < ts) ∧
      EntersAt limits (cloneLimitTimestamp ts limits) ts) := by
  induction limits with
  | nil => exact Or.inl ⟨rfl, Or.inr (by simp)⟩
  | cons limit rest ih =>
      obtain ⟨hhead, htail⟩ := List.pairwise_cons.mp hinc
      rcases lt_trichotomy limit.timestamp ts with hlt | heq | hgt
      · rw [cloneLimitTimestamp.eq_def]
        simp only
        rw [if_neg (by omega)]
        cases rest with
        | nil =>
            simp only [hlt, if_true]
            refine Or.inr ⟨⟨limit, by simp, hlt⟩, [limit], [], limitCreate ts,
              rfl, rfl, rfl, by simpa using hlt, by simp, fun _ => rfl, by simp⟩
        | cons successor others =>
            simp only
            by_cases hsucc : ts < successor.timestamp
            · -- the new snapshot is a copy of `limit`
              rw [if_pos ⟨hlt, hsucc⟩]
              refine Or.inr ⟨⟨limit, by simp, hlt⟩, [limit], successor :: others,
                cloneLimit limit ts, rfl, rfl, rfl, by simpa using hlt, ?_, ?_, ?_⟩
              · intro a ha
                rcases List.mem_cons.mp ha with rfl | ha
                · exact hsucc
                · have := (List.pairwise_cons.mp htail).1 a ha
                  omega
              · intro h
                rcases h with h | h <;> cases h
              · intro _ l hl
                have : limit = l := by simpa using hl
                rw [← this]
                rfl
            · rw [if_neg (by omega)]
              rcases ih htail with ⟨hsame, hwhy⟩ | ⟨hearlier, hent⟩
              · rw [hsame]
                refine Or.inl ⟨rfl, Or.inl ?_⟩
                rcases hwhy with ⟨a, ha, hats⟩ | hall
                · exact ⟨a, List.mem_cons_of_mem _ ha, hats⟩
                · exact absurd (hall successor List.mem_cons_self) hsucc
              · exact Or.inr ⟨⟨limit, by simp, hlt⟩, hent.cons hlt hearlier⟩
      · left
        rw [cloneLimitTimestamp.eq_def]
        simp only
        rw [if_pos heq]
        exact ⟨rfl, Or.inl ⟨limit, List.mem_cons_self, heq⟩⟩
      · have hall : ∀ a ∈ limit :: rest, ts < a.timestamp := by
          intro a ha
          rcases List.mem_cons.mp ha with rfl | ha
          · exact hgt
          · exact lt_trans hgt (hhead a ha)
        exact Or.inl ⟨cloneLimitTimestamp_of_lt _ hall, Or.inr hall⟩

/-- `limits'` has every snapshot of `limits`, the invariant and the same totals. -/
structure RefinesLimits (limits limits' : List PlanLimit) : Prop where
  inv : LimitsInv limits'
  profileAt_eq : ∀ c t, profileAt limits' c t = profileAt limits c t
  mem : ∀ a ∈ limits, a ∈ limits'

/-- Entering one breakpoint is such a refinement. -/
theorem EntersAt.refines {limits limits' : List PlanLimit} {ts : ℤ}
    (h : EntersAt limits limits' ts) (hinv : LimitsInv limits) : RefinesLimits limits limits' :=
  ⟨h.inv hinv, h.profileAt_eq hinv, h.mem.2⟩

/-- Refinements compose. -/
theorem RefinesLimits.trans {l₁ l₂ l₃ : List PlanLimit} (h : RefinesLimits l₁ l₂)
    (h' : RefinesLimits l₂ l₃) : RefinesLimits l₁ l₃ := by
  refine ⟨h'.inv, ?_, fun a ha => h'.mem a (h.mem a ha)⟩
  intro c t
  rw [h'.profileAt_eq, h.profileAt_eq]

/-- `clone_limit_timestamp` refines, and afterwards the time is a breakpoint
unless it comes before all of them. -/
theorem cloneLimitTimestamp_refines (ts : ℤ) {limits : List PlanLimit} (hinv : LimitsInv limits) :
    RefinesLimits limits (cloneLimitTimestamp ts limits) ∧
      ((∃ a ∈ limits, a.timestamp ≤ ts) →
        ∃ a ∈ cloneLimitTimestamp ts limits, a.timestamp = ts) := by
  rcases cloneLimitTimestamp_cases ts limits hinv.increasing with ⟨hsame, hwhy⟩ | ⟨_, hent⟩
  · rw [hsame]
    refine ⟨⟨hinv, fun _ _ => rfl, fun _ h => h⟩, ?_⟩
    rintro ⟨a, ha, hats⟩
    rcases hwhy with h | hall
    · exact h
    · have := hall a ha
      omega
  · exact ⟨hent.refines hinv, fun _ => hent.mem.1⟩

/-- After the first two steps of `add_job_to_limits` there is a snapshot not later
than the job's start. -/
theorem leadingSnapshot_spec {limits : List PlanLimit} (hinv : LimitsInv limits) (job : PlanJob) :
    RefinesLimits limits (leadingSnapshot limits job) ∧
      (job.startTime ≤ job.completionTime →
        ∃ a ∈ leadingSnapshot limits job, a.timestamp ≤ job.startTime) := by
  -- with a first snapshot: another one is put in front of it if it is later than the start
  have hne : ∀ first rest, LimitsInv (first :: rest) →
      RefinesLimits (first :: rest) (if job.startTime < first.timestamp then
        limitCreate job.startTime :: first :: rest else first :: rest) ∧
      ∃ a ∈ (if job.startTime < first.timestamp then
        limitCreate job.startTime :: first :: rest else first :: rest),
          a.timestamp ≤ job.startTime := by
    intro first rest hinv
    by_cases hlt : job.startTime < first.timestamp
    · rw [if_pos hlt]
      have hent : EntersAt (first :: rest) (limitCreate job.startTime :: first :: rest)
          job.startTime := by
        refine ⟨[], first :: rest, limitCreate job.startTime, rfl, rfl, rfl, by simp, ?_,
          fun _ => rfl, by simp⟩
        intro a ha
        rcases List.mem_cons.mp ha with rfl | ha
        · exact hlt
        · exact lt_trans hlt ((List.pairwise_cons.mp hinv.increasing).1 a ha)
      exact ⟨hent.refines hinv, _, List.mem_cons_self, le_rfl⟩
    · rw [if_neg hlt]
      exact ⟨⟨hinv, fun _ _ => rfl, fun _ h => h⟩, first, List.mem_cons_self, by omega⟩
  cases limits with
  | cons first rest =>
      obtain ⟨href, hle⟩ := hne first rest hinv
      exact ⟨href, fun _ => hle⟩
  | nil =>
      have hone : LimitsInv [limitCreate job.completionTime] := by
        refine ⟨List.pairwise_singleton _ _, ?_⟩
        intro limit hlimit
        have : limitCreate job.completionTime = limit := by simpa using hlimit
        rw [← this]
        rfl
      obtain ⟨href, hle⟩ := hne _ _ hone
      refine ⟨RefinesLimits.trans ⟨hone, ?_, by simp⟩ href, fun _ => hle⟩
      intro c t
      unfold profileAt valueAt lastLe
      by_cases ht : job.completionTime ≤ t <;>
        simp [limitCreate, ht, PlanLimit.classTotal]

/-- The breakpoints of a job change no total, and a job that does not end before
its start finds both its times among them. -/
theorem breakpointsForJob_spec {limits : List PlanLimit} (hinv : LimitsInv limits)
    (job : PlanJob) :
    RefinesLimits limits (breakpointsForJob limits job) ∧
      (job.startTime ≤ job.completionTime →
        (∃ a ∈ breakpointsForJob limits job, a.timestamp = job.startTime) ∧
        ∃ a ∈ breakpointsForJob limits job, a.timestamp = job.completionTime) := by
  obtain ⟨hlead, hfirst⟩ := leadingSnapshot_spec hinv job
  unfold breakpointsForJob
  generalize leadingSnapshot limits job = lead at hlead hfirst ⊢
  simp only
  -- a breakpoint is there already, or `clone_limit_timestamp` enters it
  have hadd : ∀ (base : List PlanLimit) (ts : ℤ), RefinesLimits lead base →
      RefinesLimits lead (if lead.any (fun limit => limit.timestamp == ts) then base
        else cloneLimitTimestamp ts base) ∧
      (∀ a ∈ base, a ∈ (if lead.any (fun limit => limit.timestamp == ts) then base
        else cloneLimitTimestamp ts base)) ∧
      ((∃ a ∈ base, a.timestamp ≤ ts) →
        ∃ a ∈ (if lead.any (fun limit => limit.timestamp == ts) then base
          else cloneLimitTimestamp ts base), a.timestamp = ts) := by
    intro base ts hbase
    split
    · rename_i hany
      refine ⟨hbase, fun _ h => h, fun _ => ?_⟩
      rw [List.any_eq_true] at hany
      obtain ⟨a, ha, hats⟩ := hany
      exact ⟨a, hbase.mem a ha, by simpa using hats⟩
    · obtain ⟨href, hkey⟩ := cloneLimitTimestamp_refines ts hbase.inv
      exact ⟨hbase.trans href, href.mem, hkey⟩
  obtain ⟨h₁, hm₁, hk₁⟩ := hadd lead job.startTime ⟨hlead.inv, fun _ _ => rfl, fun _ h => h⟩
  obtain ⟨h₂, hm₂, hk₂⟩ := hadd _ job.completionTime h₁
  refine ⟨hlead.trans h₂, ?_⟩
  intro hle
  obtain ⟨a, ha, hats⟩ := hk₁ (hfirst hle)
  exact ⟨⟨a, hm₂ a ha, hats⟩, hk₂ ⟨a, ha, by omega⟩⟩

/-! ## One job -/

/-- `add_limit_to_limit` keeps the timestamp. -/
theorem addLimitToLimit_timestamp {conf : LimitsForClusters} {cluster : PlanCluster}
    {limit limit' : PlanLimit} {accountId walltime numCpus : ℤ}
    (h : addLimitToLimit conf cluster limit accountId walltime numCpus = .ok limit') :
    limit'.timestamp = limit.timestamp := by
  unfold addLimitToLimit at h
  obtain ⟨found, _, h⟩ := bind_ok.mp h
  obtain ⟨foundLimit, _, h⟩ := bind_ok.mp h
  obtain ⟨account, _, h⟩ := bind_ok.mp h
  obtain ⟨_, _, h⟩ := bind_ok.mp h
  rw [pure_ok] at h
  rw [← h]
  cases found with
  | some i => rfl
  | none => rfl

/-- What a returned `add_job_to_limits` did to each snapshot. -/
theorem forall₂_addJobToLimits {conf : LimitsForClusters} {cluster : PlanCluster}
    {limits limits' : List PlanLimit} {job : PlanJob}
    (h : addJobToLimits conf cluster limits job = .ok limits') :
    List.Forall₂ (fun a b => a.timestamp = b.timestamp ∧
      (¬ job.occupies a.timestamp → b = a)) (breakpointsForJob limits job) limits' := by
  refine List.Forall₂.imp ?_ (forall₂_of_mapM _ _ h)
  intro a b hab
  by_cases hocc : job.startTime ≤ a.timestamp ∧ a.timestamp < job.completionTime
  · rw [if_pos hocc] at hab
    exact ⟨(addLimitToLimit_timestamp hab).symm, fun hn => absurd hocc hn⟩
  · rw [if_neg hocc, pure_ok] at hab
    rw [hab]
    exact ⟨rfl, fun _ => rfl⟩

/-- Snapshots changed in place only while the job occupies its CPUs keep the
invariant: the last snapshot is not among them. -/
theorem LimitsInv.of_forall₂ {limits limits' : List PlanLimit} {job : PlanJob}
    (hinv : LimitsInv limits)
    (hend : job.startTime ≤ job.completionTime → ∃ a ∈ limits, a.timestamp = job.completionTime)
    (h : List.Forall₂ (fun a b => a.timestamp = b.timestamp ∧
      (¬ job.occupies a.timestamp → b = a)) limits limits') : LimitsInv limits' := by
  refine ⟨hinv.increasing.of_forall₂ (h.imp fun _ _ hab => hab.1), ?_⟩
  intro limit' hlimit'
  have hrel := getLast?_rel h
  rw [Option.mem_def] at hlimit'
  rw [hlimit'] at hrel
  cases hlast : limits.getLast? with
  | none => rw [hlast] at hrel; cases hrel
  | some limit =>
      rw [hlast] at hrel
      cases hrel with
      | some hab =>
          -- the job's completion is a breakpoint, so the last one is not earlier
          have hnot : ¬ job.occupies limit.timestamp := by
            rintro ⟨hs, he⟩
            obtain ⟨a, ha, hae⟩ := hend (by omega)
            obtain ⟨init, rfl⟩ := List.getLast?_eq_some_iff.mp hlast
            have hle : a.timestamp ≤ limit.timestamp := by
              rcases List.mem_append.mp ha with h' | h'
              · have hinc := hinv.increasing
                unfold Increasing at hinc
                rw [List.pairwise_append] at hinc
                exact le_of_lt (hinc.2.2 a h' limit (by simp))
              · rw [List.mem_singleton] at h'
                rw [h']
            omega
          rw [hab.2 hnot]
          exact hinv.last_empty limit hlast

/-- `add_job_to_limits` keeps the invariant, whatever times the job has. -/
theorem addJobToLimits_inv {conf : LimitsForClusters} {cluster : PlanCluster}
    {limits limits' : List PlanLimit} {job : PlanJob} (hinv : LimitsInv limits)
    (h : addJobToLimits conf cluster limits job = .ok limits') : LimitsInv limits' := by
  obtain ⟨href, hkeys⟩ := breakpointsForJob_spec hinv job
  exact href.inv.of_forall₂ (fun hle => (hkeys hle).2) (forall₂_addJobToLimits h)

/-- `add_job_to_limits` of a job of class `foundLimit` returns, keeps the
invariant, and raises the totals of that class exactly while the job runs. -/
theorem addJobToLimits_spec (conf : LimitsForClusters) (cluster : PlanCluster)
    {limits : List PlanLimit} {job : PlanJob} {foundLimit : ℕ} (hinv : LimitsInv limits)
    (hle : job.startTime ≤ job.completionTime)
    (hclass : walltimeSuitsToLimit conf (job.completionTime - job.startTime) cluster
      = .ok foundLimit)
    (hlt : foundLimit < NUM_LIMITS) :
    ∃ limits', addJobToLimits conf cluster limits job = .ok limits' ∧ LimitsInv limits' ∧
      ∀ c t, profileAt limits' c t = profileAt limits c t +
        if c = foundLimit ∧ job.occupies t then job.limitCpus else 0 := by
  obtain ⟨href, hkeys⟩ := breakpointsForJob_spec hinv job
  obtain ⟨hstart, hend⟩ := hkeys hle
  -- the snapshots from the start to the end of the job are raised, the others stay
  obtain ⟨limits', hrun, hrel⟩ := mapM_exists
    (R := fun a b : PlanLimit => a.timestamp = b.timestamp ∧ ∀ c, b.classTotal c = a.classTotal c +
      if job.startTime ≤ a.timestamp ∧ a.timestamp < job.completionTime then
        (if c = foundLimit then job.limitCpus else 0) else 0)
    (f := fun limit =>
      if job.startTime ≤ limit.timestamp ∧ limit.timestamp < job.completionTime then
        addLimitToLimit conf cluster limit job.accountId (job.completionTime - job.startTime)
          job.limitCpus
      else pure limit)
    (breakpointsForJob limits job) (by
      intro a _
      by_cases hocc : job.startTime ≤ a.timestamp ∧ a.timestamp < job.completionTime
      · simp only [if_pos hocc]
        obtain ⟨b, hb, htime, htotal⟩ := addLimitToLimit_spec conf cluster a job.accountId
          (job.completionTime - job.startTime) job.limitCpus hclass hlt
        exact ⟨b, hb, htime.symm, htotal⟩
      · simp only [if_neg hocc]
        exact ⟨a, rfl, rfl, fun _ => (add_zero _).symm⟩)
  refine ⟨limits', hrun, addJobToLimits_inv hinv hrun, ?_⟩
  intro c t
  rw [← href.profileAt_eq c t]
  unfold profileAt
  rw [valueAt_raise (v := if c = foundLimit then job.limitCpus else 0) href.inv.increasing
    hstart hend (hrel.imp fun a b hab => ⟨hab.1, hab.2 c⟩) t]
  congr 1
  unfold PlanJob.occupies
  by_cases hocc : job.startTime ≤ t ∧ t < job.completionTime
  · simp [hocc]
  · simp [hocc]

/-! ## A sequence of jobs -/

/-- The limit class of a job: the position of its walltime among the thresholds. -/
def PlanJob.limitClass (conf : LimitsForClusters) (cluster : PlanCluster) (job : PlanJob) :
    Run ℕ :=
  walltimeSuitsToLimit conf (job.completionTime - job.startTime) cluster

/-- The CPUs of class `c` that the jobs occupy at time `t`. -/
def classLoad (conf : LimitsForClusters) (cluster : PlanCluster) (jobs : List PlanJob)
    (c : ℕ) (t : ℤ) : ℤ :=
  ((jobs.filter (fun job =>
    decide (job.limitClass conf cluster = .ok c ∧ job.occupies t))).map PlanJob.limitCpus).sum

/-- What the snapshot in force at `t` says about class `c`. -/
def sumLimitsAt (limits : List PlanLimit) (c : ℕ) (t : ℤ) : Run ℤ :=
  match lastLe PlanLimit.timestamp limits t with
  | some limit => sumLimitsOfLimit limit c
  | none => .ok 0

/-- `sum_limits_of_limit` of the snapshot in force is the profile. -/
theorem sumLimitsAt_eq (limits : List PlanLimit) {c : ℕ} (hc : c < NUM_LIMITS) (t : ℤ) :
    sumLimitsAt limits c t = .ok (profileAt limits c t) := by
  unfold sumLimitsAt profileAt valueAt
  cases lastLe PlanLimit.timestamp limits t with
  | none => rfl
  | some limit => exact sumLimitsOfLimit_eq limit hc

/-- Adding jobs to any profile that keeps the invariant adds their load. -/
theorem foldlM_addJobToLimits (conf : LimitsForClusters) (cluster : PlanCluster)
    (jobs : List PlanJob) :
    ∀ limits, LimitsInv limits →
      (∀ job ∈ jobs, job.startTime ≤ job.completionTime ∧
        ∃ c < NUM_LIMITS, job.limitClass conf cluster = .ok c) →
      ∃ limits', jobs.foldlM (addJobToLimits conf cluster) limits = .ok limits' ∧
        LimitsInv limits' ∧
        ∀ c t, profileAt limits' c t = profileAt limits c t + classLoad conf cluster jobs c t := by
  induction jobs with
  | nil =>
      intro limits hinv _
      exact ⟨limits, rfl, hinv, fun c t => by simp [classLoad]⟩
  | cons job jobs ih =>
      intro limits hinv hjobs
      obtain ⟨hle, foundLimit, hlt, hclass⟩ := hjobs job List.mem_cons_self
      obtain ⟨limits₁, hrun₁, hinv₁, hprofile₁⟩ :=
        addJobToLimits_spec conf cluster hinv hle hclass hlt
      obtain ⟨limits', hrun, hinv', hprofile⟩ :=
        ih limits₁ hinv₁ (fun j hj => hjobs j (List.mem_cons_of_mem _ hj))
      refine ⟨limits', ?_, hinv', ?_⟩
      · rw [List.foldlM_cons, bind_ok]
        exact ⟨limits₁, hrun₁, hrun⟩
      · intro c t
        rw [hprofile c t, hprofile₁ c t, add_assoc]
        congr 1
        unfold classLoad
        by_cases hc : c = foundLimit ∧ job.occupies t
        · have : job.limitClass conf cluster = .ok c ∧ job.occupies t := by
            rw [hclass, hc.1]
            exact ⟨rfl, hc.2⟩
          rw [if_pos hc, List.filter_cons_of_pos (by simpa using this), List.map_cons,
            List.sum_cons]
        · have : ¬ (job.limitClass conf cluster = .ok c ∧ job.occupies t) := by
            rintro ⟨h₁, h₂⟩
            rw [hclass] at h₁
            cases h₁
            exact hc ⟨rfl, h₂⟩
          rw [if_neg hc, List.filter_cons_of_neg (by simpa using this), zero_add]

/-- **The limit profile is exact in total.**  Jobs of real classes added one after
the other to an empty list give increasing timestamps, an empty last snapshot,
and at every time, in every class, the CPUs of the jobs running then. -/
theorem addJobsToLimits_profile (conf : LimitsForClusters) (cluster : PlanCluster)
    (jobs : List PlanJob)
    (hjobs : ∀ job ∈ jobs, job.startTime ≤ job.completionTime ∧
      ∃ c < NUM_LIMITS, job.limitClass conf cluster = .ok c) :
    ∃ limits, jobs.foldlM (addJobToLimits conf cluster) [] = .ok limits ∧
      limits.Pairwise (fun a b => a.timestamp < b.timestamp) ∧
      (∀ last ∈ limits.getLast?, last.accounts = [] ∧
        ∀ c < NUM_LIMITS, sumLimitsOfLimit last c = .ok 0) ∧
      ∀ t, ∀ c < NUM_LIMITS, sumLimitsAt limits c t = .ok (classLoad conf cluster jobs c t) := by
  have hnil : LimitsInv [] := ⟨List.Pairwise.nil, by simp⟩
  obtain ⟨limits, hrun, hinv, hprofile⟩ := foldlM_addJobToLimits conf cluster jobs [] hnil hjobs
  refine ⟨limits, hrun, hinv.increasing, ?_, ?_⟩
  · intro last hlast
    have hempty := hinv.last_empty last hlast
    refine ⟨hempty, fun c hc => ?_⟩
    rw [sumLimitsOfLimit_eq last hc, classTotal_of_accounts_nil hempty]
  · intro t c hc
    rw [sumLimitsAt_eq limits hc, hprofile c t]
    simp [profileAt, valueAt, lastLe]

/-- Two jobs of one class on a cluster with four CPUs, overlapping from `60` to
`100`: six CPUs are counted there. -/
theorem addJobsToLimits_profile_two :
    ∃ limits,
      [PlanJob.filled 0 default 4 2 (by decide) 0 100 0 0,
        PlanJob.filled 1 default 2 1 (by decide) 0 100 0 60].foldlM
        (addJobToLimits [("", ⟨[(0, ⟨[.finite 1], [.finite 1], [7200]⟩)], by decide⟩)]
          ⟨"zubat", [], 4, 4, 0⟩) [] = .ok limits ∧
      sumLimitsAt limits 0 80 = .ok 6 ∧
      ∀ last ∈ limits.getLast?, last.accounts = [] := by
  obtain ⟨limits, hrun, _, hlast, hsum⟩ := addJobsToLimits_profile
    [("", ⟨[(0, ⟨[.finite 1], [.finite 1], [7200]⟩)], by decide⟩)] ⟨"zubat", [], 4, 4, 0⟩
    [PlanJob.filled 0 default 4 2 (by decide) 0 100 0 0,
      PlanJob.filled 1 default 2 1 (by decide) 0 100 0 60]
    (by
      intro job hjob
      rw [List.mem_cons, List.mem_singleton] at hjob
      rcases hjob with rfl | rfl
      · exact ⟨by decide, 0, by decide, by rfl⟩
      · exact ⟨by decide, 0, by decide, by rfl⟩)
  refine ⟨limits, hrun, ?_, fun last h => (hlast last h).1⟩
  rw [hsum 80 0 (by decide)]
  rfl

/-! ## The adjustment only moves a job later -/

/-- The job kept its times, or was moved later to start and end anew. -/
def PlanJob.DelayedTo (job job' : PlanJob) : Prop :=
  job' = job ∨ ∃ t, job.startTime < t ∧ job' = job.startAt t

/-- A snapshot that concerns the job ends after the job's start. -/
theorem PlanLimit.concerns_lt {limit next : PlanLimit} {job : PlanJob}
    (hinc : limit.timestamp < next.timestamp) (h : limit.concerns (some next) job) :
    job.startTime < next.timestamp := by
  rcases h with ⟨next', hnext, _, hlt⟩ | ⟨hlt, _⟩
  · rw [Option.mem_some] at hnext
    rw [hnext]
    exact hlt
  · omega

/-- One pass keeps the job, or moves it to the next timestamp because the snapshot
concerns it. -/
theorem adjustToLimit_cases {values : LimitsValues} {foundLimit : ℕ} {limit : PlanLimit}
    {successor : Option PlanLimit} {job job' : PlanJob}
    (h : adjustToLimit values foundLimit limit successor job = .ok job') :
    job' = job ∨ ∃ next ∈ successor, limit.concerns successor job ∧
      job' = job.startAt next.timestamp := by
  have hmove : ∀ {job' : PlanJob}, limit.concerns successor job →
      (deref successor >>= fun next => (pure (job.startAt next.timestamp) : Run PlanJob))
        = .ok job' → ∃ next ∈ successor, limit.concerns successor job ∧
          job' = job.startAt next.timestamp := by
    intro job' hc hmoved
    obtain ⟨next, hnext, hmoved⟩ := bind_ok.mp hmoved
    exact ⟨next, deref_ok.mp hnext, hc, (pure_ok.mp hmoved).symm⟩
  -- the second test, on the account, is made where the first one lets the job stay
  have haccount : ∀ {job' : PlanJob}, adjustToAccount values foundLimit limit successor job
      = .ok job' → job' = job ∨ ∃ next ∈ successor, limit.concerns successor job ∧
        job' = job.startAt next.timestamp := by
    intro job' hrun
    unfold adjustToAccount at hrun
    obtain ⟨found, _, hrun⟩ := bind_ok.mp hrun
    cases found with
    | none => exact Or.inl (pure_ok.mp hrun).symm
    | some foundAccount =>
        simp only at hrun
        split at hrun
        · rename_i hc
          obtain ⟨account, _, hrun⟩ := bind_ok.mp hrun
          obtain ⟨numCpus, _, hrun⟩ := bind_ok.mp hrun
          obtain ⟨value, _, hrun⟩ := bind_ok.mp hrun
          split at hrun
          · exact Or.inr (hmove hc hrun)
          · exact Or.inl (pure_ok.mp hrun).symm
        · exact Or.inl (pure_ok.mp hrun).symm
  unfold adjustToLimit at h
  split at h
  · rename_i hc
    obtain ⟨globalLimitValue, _, h⟩ := bind_ok.mp h
    obtain ⟨value, _, h⟩ := bind_ok.mp h
    split at h
    · exact Or.inr (hmove hc h)
    · exact haccount h
  · exact haccount h

/-- The adjustment to the limits moves the start and nothing else. -/
theorem adjustToLimits_cases {values : LimitsValues} {foundLimit : ℕ} (limits : List PlanLimit) :
    ∀ {job job' : PlanJob}, adjustToLimits values foundLimit limits job = .ok job' →
      job' = job ∨ ∃ t, job' = job.startAt t := by
  induction limits with
  | nil =>
      intro job job' h
      rw [adjustToLimits] at h
      cases h
      exact Or.inl rfl
  | cons limit rest ih =>
      intro job job' h
      rw [adjustToLimits] at h
      obtain ⟨job₁, h₁, h₂⟩ := bind_ok.mp h
      rcases adjustToLimit_cases h₁ with rfl | ⟨next, -, -, rfl⟩
      · exact ih h₂
      · rcases ih h₂ with rfl | ⟨t, rfl⟩
        · exact Or.inr ⟨_, rfl⟩
        · exact Or.inr ⟨t, rfl⟩

/-- One pass delays the job at most to the next timestamp. -/
theorem adjustToLimit_delayed {values : LimitsValues} {foundLimit : ℕ} {limit : PlanLimit}
    {successor : Option PlanLimit} {job job' : PlanJob}
    (hinc : ∀ next ∈ successor, limit.timestamp < next.timestamp)
    (h : adjustToLimit values foundLimit limit successor job = .ok job') :
    job.DelayedTo job' := by
  rcases adjustToLimit_cases h with hsame | ⟨next, hnext, hc, hmoved⟩
  · exact Or.inl hsame
  · refine Or.inr ⟨next.timestamp, ?_, hmoved⟩
    rw [Option.mem_def] at hnext
    rw [hnext] at hc
    exact PlanLimit.concerns_lt (hinc next hnext) hc

/-- Delays compose. -/
theorem PlanJob.DelayedTo.trans {j₁ j₂ j₃ : PlanJob} (h : j₁.DelayedTo j₂)
    (h' : j₂.DelayedTo j₃) : j₁.DelayedTo j₃ := by
  rcases h with rfl | ⟨t, ht, rfl⟩
  · exact h'
  · rcases h' with rfl | ⟨t', ht', rfl⟩
    · exact Or.inr ⟨t, ht, rfl⟩
    · exact Or.inr ⟨t', lt_trans ht ht', rfl⟩

/-- `adjust_job_starttime_according_to_limits` never moves a job earlier. -/
theorem adjustToLimits_delayed {values : LimitsValues} {foundLimit : ℕ} (limits : List PlanLimit) :
    ∀ {job job' : PlanJob}, Increasing PlanLimit.timestamp limits →
      adjustToLimits values foundLimit limits job = .ok job' → job.DelayedTo job' := by
  induction limits with
  | nil =>
      intro job job' _ h
      rw [adjustToLimits] at h
      cases h
      exact Or.inl rfl
  | cons limit rest ih =>
      intro job job' hinc h
      rw [adjustToLimits] at h
      obtain ⟨job₁, h₁, h₂⟩ := bind_ok.mp h
      obtain ⟨hhead, htail⟩ := List.pairwise_cons.mp hinc
      refine (adjustToLimit_delayed ?_ h₁).trans (ih htail h₂)
      intro next hnext
      exact hhead next (List.mem_of_mem_head? hnext)

/-- `adjust_job_starttime_according_to_limits` leaves a job or moves it. -/
theorem adjustJob_cases {conf : LimitsForClusters} {cluster : PlanCluster}
    {values : LimitsValues} {limits : List PlanLimit} {job job' : PlanJob}
    (h : adjustJobStarttimeAccordingToLimits conf cluster values limits job = .ok job') :
    job' = job ∨ ∃ t, job' = job.startAt t := by
  unfold adjustJobStarttimeAccordingToLimits at h
  obtain ⟨foundLimit, -, h⟩ := bind_ok.mp h
  exact adjustToLimits_cases limits h

/-- On a profile in order of time it moves the job to a later start only. -/
theorem adjustJob_delayed {conf : LimitsForClusters} {cluster : PlanCluster}
    {values : LimitsValues} {limits : List PlanLimit} {job job' : PlanJob}
    (hinc : Increasing PlanLimit.timestamp limits)
    (h : adjustJobStarttimeAccordingToLimits conf cluster values limits job = .ok job') :
    job.DelayedTo job' := by
  unfold adjustJobStarttimeAccordingToLimits at h
  obtain ⟨foundLimit, -, h⟩ := bind_ok.mp h
  exact adjustToLimits_delayed limits hinc h

end PlanSched
