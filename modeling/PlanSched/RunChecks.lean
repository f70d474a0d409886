/-
# Run limits and run checks

Models the counters of `server_info` and `queue_info` that the run limits are
checked against (`ServerInfo.cpp`, `queue_info.cpp`), and
`is_ok_to_run_job_new` with the checks it makes (`check.cpp`).

The counters of a server and of a queue are kept by the same code, so they share
one structure.  `number_of_running_jobs_for_user` and its sibling for groups
remember what they counted in a cache; only `update_on_job_run` advances the
counters, and the plan-based run path does not call it.

The checks of dedicated time, clouds and node specifications belong to other
parts of the scheduler: what they answer is part of the `Outcome` of an attempt.
-/
import PlanSched.DataTypes
import PlanSched.DynamicResource

namespace PlanSched

/-! ## Counters -/

/-- `RESC_INFINITY`: no limit. -/
def RESC_INFINITY : ℤ := -2

/-- The run limits and run counters of a server or of a queue. -/
structure RunCounters where
  maxRun : ℤ
  maxUserRun : ℤ
  maxGroupRun : ℤ
  scRunning : ℤ
  runningJobs : List JobInfo
  runningJobsByUser : List (String × ℤ)
  runningJobsByGroup : List (String × ℤ)
  deriving DecidableEq, Repr

/-- `count_by_user`. -/
def countByUser (jobs : List JobInfo) (user : String) : ℤ :=
  (jobs.filter (fun j => j.account == user)).length

/-- `count_by_group`. -/
def countByGroup (jobs : List JobInfo) (grp : String) : ℤ :=
  (jobs.filter (fun j => j.group == grp)).length

/-- The counters of a fresh snapshot: every running job is counted and nothing is
cached yet. -/
def RunCounters.snapshot (maxRun maxUserRun maxGroupRun : ℤ) (runningJobs : List JobInfo) :
    RunCounters :=
  ⟨maxRun, maxUserRun, maxGroupRun, runningJobs.length, runningJobs, [], []⟩

/-- `number_of_running_jobs_for_user`: the number, and the counters with the
number remembered. -/
def RunCounters.numberOfRunningJobsForUser (c : RunCounters) (username : String) :
    ℤ × RunCounters :=
  match c.runningJobsByUser.lookup username with
  | some n => (n, c)
  | none =>
      let n := countByUser c.runningJobs username
      (n, { c with runningJobsByUser := (username, n) :: c.runningJobsByUser })

/-- `number_of_running_jobs_for_group`. -/
def RunCounters.numberOfRunningJobsForGroup (c : RunCounters) (groupname : String) :
    ℤ × RunCounters :=
  match c.runningJobsByGroup.lookup groupname with
  | some n => (n, c)
  | none =>
      let n := countByGroup c.runningJobs groupname
      (n, { c with runningJobsByGroup := (groupname, n) :: c.runningJobsByGroup })

/-! ## The checks -/

/-- The return codes of the run checks. -/
inductive RunCheck : Type where
  | success
  | serverJobLimitReached
  | serverUserLimitReached
  | serverGroupLimitReached
  | queueJobLimitReached
  | queueUserLimitReached
  | queueGroupLimitReached
  | insuficientDynamicResource
  | other (code : ℤ)
  deriving DecidableEq, Repr, Inhabited

/-- The common form of `check_server_max_run` and `check_queue_max_run`. -/
def checkMaxRun (c : RunCounters) (code : RunCheck) : RunCheck :=
  if c.maxRun = RESC_INFINITY then .success
  else if c.scRunning < c.maxRun then .success
  else code

/-- The common form of `check_server_max_user_run` and `check_queue_max_user_run`. -/
def checkMaxUserRun (c : RunCounters) (account : String) (code : RunCheck) :
    RunCheck × RunCounters :=
  if c.maxUserRun = RESC_INFINITY then (.success, c)
  else
    let (n, c) := c.numberOfRunningJobsForUser account
    (if n < c.maxUserRun then .success else code, c)

/-- The common form of `check_server_max_group_run` and
`check_queue_max_group_run`. -/
def checkMaxGroupRun (c : RunCounters) (group : String) (code : RunCheck) :
    RunCheck × RunCounters :=
  if c.maxGroupRun = RESC_INFINITY then (.success, c)
  else
    let (n, c) := c.numberOfRunningJobsForGroup group
    (if n < c.maxGroupRun then .success else code, c)

/-- The three checks against one set of counters, in the order of
`is_ok_to_run_job_new`: the first code that is not a success. -/
def checkCounters (c : RunCounters) (jinfo : JobInfo) (runCode userCode groupCode : RunCheck) :
    RunCheck × RunCounters :=
  if checkMaxRun c runCode ≠ .success then (checkMaxRun c runCode, c)
  else
    let r := checkMaxUserRun c jinfo.account userCode
    if r.1 ≠ .success then r else checkMaxGroupRun r.2 jinfo.group groupCode

/-- `queue_info`, as far as `try_run_plan` reads it. -/
structure QueueInfo where
  name : String
  serverName : String
  counters : RunCounters
  deriving DecidableEq, Repr

/-- The server and, by address, the queues. -/
structure Counters where
  server : RunCounters
  queues : ℕ → QueueInfo

/-- What the parts of the scheduler and of the system outside this model answer
while one job is tried: is there a connection to the job's server, the checks of
dedicated time and clouds, the check of the node specification, and the return
code of the server call. -/
structure Outcome where
  connected : Bool
  boundaries : RunCheck
  nodespec : RunCheck
  ret : ℤ
  deriving DecidableEq, Repr

/-- `check_dynamic_resources`; `rescInfoDb` lists the names of the dynamic
resources. -/
def checkDynamicResources (rescInfoDb : List String)
    (dynamicResources : List (String × DynamicResource)) (jinfo : JobInfo) : RunCheck :=
  match rescInfoDb with
  | [] => .success
  | name :: rest =>
      match findResourceReq jinfo.resreq name with
      | none => checkDynamicResources rest dynamicResources jinfo
      | some resreq =>
          match dynamicResources.lookup name with
          | none => .insuficientDynamicResource
          | some r =>
              if r.wouldFit resreq.amount then checkDynamicResources rest dynamicResources jinfo
              else .insuficientDynamicResource

/-- The dynamic resources after a start was recorded with `add_scheduled`. -/
def recordScheduled (rescInfoDb : List String)
    (dynamicResources : List (String × DynamicResource)) (jinfo : JobInfo) :
    List (String × DynamicResource) :=
  rescInfoDb.foldl (fun table name =>
    match findResourceReq jinfo.resreq name with
    | none => table
    | some resreq =>
        table.map (fun e => if e.1 = name then (e.1, e.2.addScheduled resreq.amount) else e))
    dynamicResources

/-- The six limit checks of `is_ok_to_run_job_new`. -/
def checkLimits (c : Counters) (jinfo : JobInfo) : RunCheck × Counters :=
  let r := checkCounters c.server jinfo .serverJobLimitReached .serverUserLimitReached
    .serverGroupLimitReached
  let c := { c with server := r.2 }
  if r.1 ≠ .success then (r.1, c)
  else
    let queue := c.queues jinfo.queue
    let r := checkCounters queue.counters jinfo .queueJobLimitReached .queueUserLimitReached
      .queueGroupLimitReached
    (r.1, { c with
      queues := Function.update c.queues jinfo.queue { queue with counters := r.2 } })

/-- `is_ok_to_run_job_new`. -/
def isOkToRunJobNew (rescInfoDb : List String) (c : Counters)
    (dynamicResources : List (String × DynamicResource)) (outcome : Outcome) (jinfo : JobInfo) :
    RunCheck × Counters :=
  let r := checkLimits c jinfo
  if r.1 ≠ .success then r
  else if outcome.boundaries ≠ .success then (outcome.boundaries, r.2)
  else if checkDynamicResources rescInfoDb dynamicResources jinfo ≠ .success then
    (.insuficientDynamicResource, r.2)
  else (outcome.nodespec, r.2)

/-! ## The limits as one family -/

/-- The run limits: of the server or of one queue, in total, per account or per
group. -/
inductive RunLimit : Type where
  | serverRun
  | serverUser (account : String)
  | serverGroup (group : String)
  | queueRun (queue : ℕ)
  | queueUser (queue : ℕ) (account : String)
  | queueGroup (queue : ℕ) (group : String)
  deriving DecidableEq, Repr

namespace RunLimit

/-- The configured value. -/
def value (c : Counters) : RunLimit → ℤ
  | serverRun => c.server.maxRun
  | serverUser _ => c.server.maxUserRun
  | serverGroup _ => c.server.maxGroupRun
  | queueRun q => (c.queues q).counters.maxRun
  | queueUser q _ => (c.queues q).counters.maxUserRun
  | queueGroup q _ => (c.queues q).counters.maxGroupRun

/-- The jobs of the snapshot that count against the limit. -/
def running (c : Counters) : RunLimit → ℤ
  | serverRun => c.server.runningJobs.length
  | serverUser account => countByUser c.server.runningJobs account
  | serverGroup group => countByGroup c.server.runningJobs group
  | queueRun q => (c.queues q).counters.runningJobs.length
  | queueUser q account => countByUser (c.queues q).counters.runningJobs account
  | queueGroup q group => countByGroup (c.queues q).counters.runningJobs group

/-- The limit counts the job. -/
def counts (jinfo : JobInfo) : RunLimit → Bool
  | serverRun => true
  | serverUser account => jinfo.account == account
  | serverGroup group => jinfo.group == group
  | queueRun q => jinfo.queue == q
  | queueUser q account => jinfo.queue == q && jinfo.account == account
  | queueGroup q group => jinfo.queue == q && jinfo.group == group

/-- The six limits that count a job. -/
def ofJob (jinfo : JobInfo) : List RunLimit :=
  [serverRun, serverUser jinfo.account, serverGroup jinfo.group, queueRun jinfo.queue,
    queueUser jinfo.queue jinfo.account, queueGroup jinfo.queue jinfo.group]

/-- The limit is infinite or not reached. -/
def Open (c : Counters) (limit : RunLimit) : Prop :=
  limit.value c = RESC_INFINITY ∨ limit.running c < limit.value c

instance (c : Counters) (limit : RunLimit) : Decidable (limit.Open c) :=
  inferInstanceAs (Decidable (_ ∨ _))

end RunLimit

/-- All six limits that count the job are open. -/
def Counters.Admits (c : Counters) (jinfo : JobInfo) : Prop :=
  ∀ limit ∈ RunLimit.ofJob jinfo, limit.Open c

instance (c : Counters) (jinfo : JobInfo) : Decidable (c.Admits jinfo) :=
  inferInstanceAs (Decidable (∀ limit ∈ RunLimit.ofJob jinfo, limit.Open c))

/-! ## Coherent counters -/

/-- The counters agree with the running jobs, and so does everything cached. -/
structure RunCounters.Coherent (c : RunCounters) : Prop where
  running : c.scRunning = c.runningJobs.length
  byUser : ∀ e ∈ c.runningJobsByUser, e.2 = countByUser c.runningJobs e.1
  byGroup : ∀ e ∈ c.runningJobsByGroup, e.2 = countByGroup c.runningJobs e.1

/-- Same limits and same running jobs. -/
def RunCounters.SameJobs (c c' : RunCounters) : Prop :=
  c'.maxRun = c.maxRun ∧ c'.maxUserRun = c.maxUserRun ∧ c'.maxGroupRun = c.maxGroupRun ∧
    c'.runningJobs = c.runningJobs

/-- A fresh snapshot is coherent. -/
theorem RunCounters.coherent_snapshot (maxRun maxUserRun maxGroupRun : ℤ)
    (runningJobs : List JobInfo) :
    (RunCounters.snapshot maxRun maxUserRun maxGroupRun runningJobs).Coherent :=
  ⟨rfl, by simp [RunCounters.snapshot], by simp [RunCounters.snapshot]⟩

/-- What a lookup finds is an entry. -/
theorem mem_of_lookup {V : Type} {key : String} {v : V} (table : List (String × V))
    (h : table.lookup key = some v) : (key, v) ∈ table := by
  induction table with
  | nil => cases h
  | cons e table ih =>
      rw [List.lookup_cons] at h
      split at h
      · rename_i hkey
        have : key = e.1 := by simpa using hkey
        cases h
        rw [this]
        exact List.mem_cons_self
      · exact List.mem_cons_of_mem _ (ih h)

/-- A query returns the count of the running jobs and changes the cache only. -/
theorem numberOfRunningJobsForUser_spec {c : RunCounters} (hc : c.Coherent) (username : String) :
    (c.numberOfRunningJobsForUser username).1 = countByUser c.runningJobs username ∧
      (c.numberOfRunningJobsForUser username).2.Coherent ∧
      c.SameJobs (c.numberOfRunningJobsForUser username).2 := by
  unfold RunCounters.numberOfRunningJobsForUser
  split
  · rename_i n hn
    exact ⟨hc.byUser _ (mem_of_lookup _ hn), hc, rfl, rfl, rfl, rfl⟩
  · refine ⟨rfl, ⟨hc.running, ?_, hc.byGroup⟩, rfl, rfl, rfl, rfl⟩
    intro e he
    rcases List.mem_cons.mp he with rfl | he
    · rfl
    · exact hc.byUser e he

/-- The query for a group does the same. -/
theorem numberOfRunningJobsForGroup_spec {c : RunCounters} (hc : c.Coherent) (groupname : String) :
    (c.numberOfRunningJobsForGroup groupname).1 = countByGroup c.runningJobs groupname ∧
      (c.numberOfRunningJobsForGroup groupname).2.Coherent ∧
      c.SameJobs (c.numberOfRunningJobsForGroup groupname).2 := by
  unfold RunCounters.numberOfRunningJobsForGroup
  split
  · rename_i n hn
    exact ⟨hc.byGroup _ (mem_of_lookup _ hn), hc, rfl, rfl, rfl, rfl⟩
  · refine ⟨rfl, ⟨hc.running, hc.byUser, ?_⟩, rfl, rfl, rfl, rfl⟩
    intro e he
    rcases List.mem_cons.mp he with rfl | he
    · rfl
    · exact hc.byGroup e he

/-- Same limits and same running jobs, transitively. -/
theorem RunCounters.SameJobs.trans {c₁ c₂ c₃ : RunCounters} (h : c₁.SameJobs c₂)
    (h' : c₂.SameJobs c₃) : c₁.SameJobs c₃ := by
  obtain ⟨h₁, h₂, h₃, h₄⟩ := h
  obtain ⟨h₁', h₂', h₃', h₄'⟩ := h'
  exact ⟨h₁'.trans h₁, h₂'.trans h₂, h₃'.trans h₃, h₄'.trans h₄⟩

/-- A check that answers `code` or success, leaving coherent counters with the same
jobs; it succeeds exactly when `P` holds. -/
structure CheckSpec (c : RunCounters) (P : Prop) (code : RunCheck) (r : RunCheck × RunCounters) :
    Prop where
  success_iff : r.1 = .success ↔ P
  code_eq : r.1 = .success ∨ r.1 = code
  coherent : r.2.Coherent
  sameJobs : c.SameJobs r.2

/-- `check_server_max_user_run` and `check_queue_max_user_run`. -/
theorem checkMaxUserRun_spec {c : RunCounters} (hc : c.Coherent) (account : String)
    {code : RunCheck} (hcode : code ≠ .success) :
    CheckSpec c (c.maxUserRun = RESC_INFINITY ∨
      countByUser c.runningJobs account < c.maxUserRun) code (checkMaxUserRun c account code) := by
  unfold checkMaxUserRun
  split
  · rename_i hinf
    exact ⟨by simp [hinf], Or.inl rfl, hc, rfl, rfl, rfl, rfl⟩
  · rename_i hinf
    obtain ⟨hn, hcoh, hsame⟩ := numberOfRunningJobsForUser_spec hc account
    simp only
    rw [hn, hsame.2.1]
    by_cases hlt : countByUser c.runningJobs account < c.maxUserRun
    · rw [if_pos hlt]
      exact ⟨by simp [hlt], Or.inl rfl, hcoh, hsame⟩
    · rw [if_neg hlt]
      exact ⟨by simp [hlt, hinf, hcode], Or.inr rfl, hcoh, hsame⟩

/-- `check_server_max_group_run` and `check_queue_max_group_run`. -/
theorem checkMaxGroupRun_spec {c : RunCounters} (hc : c.Coherent) (group : String)
    {code : RunCheck} (hcode : code ≠ .success) :
    CheckSpec c (c.maxGroupRun = RESC_INFINITY ∨
      countByGroup c.runningJobs group < c.maxGroupRun) code (checkMaxGroupRun c group code) := by
  unfold checkMaxGroupRun
  split
  · rename_i hinf
    exact ⟨by simp [hinf], Or.inl rfl, hc, rfl, rfl, rfl, rfl⟩
  · rename_i hinf
    obtain ⟨hn, hcoh, hsame⟩ := numberOfRunningJobsForGroup_spec hc group
    simp only
    rw [hn, hsame.2.2.1]
    by_cases hlt : countByGroup c.runningJobs group < c.maxGroupRun
    · rw [if_pos hlt]
      exact ⟨by simp [hlt], Or.inl rfl, hcoh, hsame⟩
    · rw [if_neg hlt]
      exact ⟨by simp [hlt, hinf, hcode], Or.inr rfl, hcoh, hsame⟩

/-- The three limits of one set of counters are open for the job. -/
def RunCounters.Admits (c : RunCounters) (jinfo : JobInfo) : Prop :=
  (c.maxRun = RESC_INFINITY ∨ (c.runningJobs.length : ℤ) < c.maxRun) ∧
    (c.maxUserRun = RESC_INFINITY ∨
      countByUser c.runningJobs jinfo.account < c.maxUserRun) ∧
    (c.maxGroupRun = RESC_INFINITY ∨
      countByGroup c.runningJobs jinfo.group < c.maxGroupRun)

/-- The three checks against one set of counters. -/
theorem checkCounters_spec {c : RunCounters} (hc : c.Coherent) (jinfo : JobInfo)
    {runCode userCode groupCode : RunCheck} (hrun : runCode ≠ .success)
    (huser : userCode ≠ .success) (hgroup : groupCode ≠ .success) :
    ((checkCounters c jinfo runCode userCode groupCode).1 = .success ↔ c.Admits jinfo) ∧
      (checkCounters c jinfo runCode userCode groupCode).1
        ∈ [.success, runCode, userCode, groupCode] ∧
      (checkCounters c jinfo runCode userCode groupCode).2.Coherent ∧
      c.SameJobs (checkCounters c jinfo runCode userCode groupCode).2 := by
  have hmax : checkMaxRun c runCode =
      if c.maxRun = RESC_INFINITY ∨ (c.runningJobs.length : ℤ) < c.maxRun then .success
      else runCode := by
    unfold checkMaxRun
    rw [hc.running]
    by_cases h₁ : c.maxRun = RESC_INFINITY
    · simp [h₁]
    · simp [h₁]
  have hu := checkMaxUserRun_spec hc jinfo.account huser
  unfold checkCounters RunCounters.Admits
  by_cases hopen : c.maxRun = RESC_INFINITY ∨ (c.runningJobs.length : ℤ) < c.maxRun
  · rw [hmax, if_pos hopen, if_neg (by simp)]
    simp only
    split
    · rename_i hcode
      have hnot := mt hu.success_iff.mpr hcode
      refine ⟨by simp [hnot, hcode], ?_, hu.coherent, hu.sameJobs⟩
      rcases hu.code_eq with h | h
      · exact absurd h hcode
      · simp [h]
    · rename_i hcode
      have huserOpen := hu.success_iff.mp (not_not.mp hcode)
      have hg := checkMaxGroupRun_spec hu.coherent jinfo.group hgroup
      obtain ⟨_, _, hgmax, hjobs⟩ := hu.sameJobs
      refine ⟨?_, ?_, hg.coherent, hu.sameJobs.trans hg.sameJobs⟩
      · rw [hg.success_iff, hgmax, hjobs]
        simp [hopen, huserOpen]
      · rcases hg.code_eq with h | h <;> simp [h]
  · rw [hmax, if_neg hopen, if_pos hrun]
    exact ⟨by simp [hopen, hrun], by simp, hc, rfl, rfl, rfl, rfl⟩

/-- Every set of counters is coherent. -/
def Counters.Coherent (c : Counters) : Prop :=
  c.server.Coherent ∧ ∀ q, (c.queues q).counters.Coherent

/-- The same limits, running jobs and queue names throughout. -/
def Counters.SameJobs (c c' : Counters) : Prop :=
  c.server.SameJobs c'.server ∧ ∀ q, (c.queues q).counters.SameJobs (c'.queues q).counters ∧
    (c'.queues q).serverName = (c.queues q).serverName

/-- Nothing changes. -/
theorem Counters.SameJobs.refl (c : Counters) : c.SameJobs c :=
  ⟨⟨rfl, rfl, rfl, rfl⟩, fun _ => ⟨⟨rfl, rfl, rfl, rfl⟩, rfl⟩⟩

/-- The same throughout, transitively. -/
theorem Counters.SameJobs.trans {c₁ c₂ c₃ : Counters} (h : c₁.SameJobs c₂)
    (h' : c₂.SameJobs c₃) : c₁.SameJobs c₃ :=
  ⟨h.1.trans h'.1, fun q => ⟨(h.2 q).1.trans (h'.2 q).1, (h'.2 q).2.trans (h.2 q).2⟩⟩

/-- The six limits of a job are those of the server and those of its queue. -/
theorem Counters.admits_iff (c : Counters) (jinfo : JobInfo) :
    c.Admits jinfo ↔ c.server.Admits jinfo ∧ (c.queues jinfo.queue).counters.Admits jinfo := by
  simp only [Counters.Admits, RunLimit.ofJob, List.forall_mem_cons, RunLimit.Open,
    RunLimit.value, RunLimit.running, RunCounters.Admits]
  constructor
  · rintro ⟨h₁, h₂, h₃, h₄, h₅, h₆, _⟩
    exact ⟨⟨h₁, h₂, h₃⟩, h₄, h₅, h₆⟩
  · rintro ⟨⟨h₁, h₂, h₃⟩, h₄, h₅, h₆⟩
    exact ⟨h₁, h₂, h₃, h₄, h₅, h₆, by simp⟩

/-- Admission depends on the limits and the running jobs only. -/
theorem Counters.SameJobs.admits_iff {c c' : Counters} (h : c.SameJobs c') (jinfo : JobInfo) :
    c'.Admits jinfo ↔ c.Admits jinfo := by
  obtain ⟨⟨h₁, h₂, h₃, h₄⟩, hq⟩ := h
  obtain ⟨⟨h₁', h₂', h₃', h₄'⟩, _⟩ := hq jinfo.queue
  rw [Counters.admits_iff, Counters.admits_iff]
  unfold RunCounters.Admits
  rw [h₁, h₂, h₃, h₄, h₁', h₂', h₃', h₄']

/-- The limit checks succeed exactly for the jobs whose limits are open, and
change caches only. -/
theorem checkLimits_spec {c : Counters} (hc : c.Coherent) (jinfo : JobInfo) :
    ((checkLimits c jinfo).1 = .success ↔ c.Admits jinfo) ∧
      (checkLimits c jinfo).1 ≠ .insuficientDynamicResource ∧
      (checkLimits c jinfo).2.Coherent ∧ c.SameJobs (checkLimits c jinfo).2 := by
  obtain ⟨hs₁, hs₂, hs₃, hs₄⟩ := checkCounters_spec hc.1 jinfo
    (show RunCheck.serverJobLimitReached ≠ .success by decide)
    (show RunCheck.serverUserLimitReached ≠ .success by decide)
    (show RunCheck.serverGroupLimitReached ≠ .success by decide)
  obtain ⟨hq₁, hq₂, hq₃, hq₄⟩ := checkCounters_spec (hc.2 jinfo.queue) jinfo
    (show RunCheck.queueJobLimitReached ≠ .success by decide)
    (show RunCheck.queueUserLimitReached ≠ .success by decide)
    (show RunCheck.queueGroupLimitReached ≠ .success by decide)
  rw [Counters.admits_iff]
  unfold checkLimits
  simp only
  -- the queue is asked only if the server lets the job pass
  split
  · rename_i hcode
    have hnot := mt hs₁.mpr hcode
    refine ⟨by simp [hcode, hnot], ?_, ⟨hs₃, hc.2⟩, hs₄, (Counters.SameJobs.refl c).2⟩
    intro h
    rw [h] at hs₂
    exact absurd hs₂ (by decide)
  · rename_i hcode
    have hserver := hs₁.mp (not_not.mp hcode)
    refine ⟨by simp [hserver, hq₁], ?_, ⟨hs₃, ?_⟩, hs₄, ?_⟩
    · intro h
      rw [h] at hq₂
      exact absurd hq₂ (by decide)
    · intro q
      by_cases hq : q = jinfo.queue
      · subst hq
        simp [hq₃]
      · simp [Function.update_of_ne hq, hc.2 q]
    · intro q
      by_cases hq : q = jinfo.queue
      · subst hq
        simp [hq₄]
      · simp only [Function.update_of_ne hq]
        exact ⟨((Counters.SameJobs.refl c).2 q).1, trivial⟩

/-- `is_ok_to_run_job_new` changes caches only, and lets no job pass whose limits
are reached. -/
theorem isOkToRunJobNew_spec (rescInfoDb : List String) {c : Counters} (hc : c.Coherent)
    (dynamicResources : List (String × DynamicResource)) (outcome : Outcome) (jinfo : JobInfo) :
    (isOkToRunJobNew rescInfoDb c dynamicResources outcome jinfo).2.Coherent ∧
      c.SameJobs (isOkToRunJobNew rescInfoDb c dynamicResources outcome jinfo).2 ∧
      ((isOkToRunJobNew rescInfoDb c dynamicResources outcome jinfo).1 = .success →
        c.Admits jinfo) := by
  obtain ⟨h₁, _, h₃, h₄⟩ := checkLimits_spec hc jinfo
  unfold isOkToRunJobNew
  simp only
  split
  · rename_i hcode
    exact ⟨h₃, h₄, fun h => absurd h hcode⟩
  · rename_i hcode
    have hadmits := h₁.mp (not_not.mp hcode)
    split
    · exact ⟨h₃, h₄, fun _ => hadmits⟩
    · split
      · exact ⟨h₃, h₄, fun _ => hadmits⟩
      · exact ⟨h₃, h₄, fun _ => hadmits⟩

end PlanSched
