/-
# The snapshot of the servers

At the start of every cycle the scheduler fetches its servers
(`World::fetch_servers`): `query_server` and `query_queues` build the queues of the
master with their jobs, counters and running jobs, and the jobs of every slave
server are then merged into the global queues.

* `queryJobs`, `queryQueues`, `queryServer` and `fetchServers` are the functions of
  the source; a reply can be refused (the soft failure), throw (the hard one) or be
  empty;
* `StateCount.countStates` and `StateCount.add` are the two ways the counters come about;
* `Consistent` is what the snapshot promises, `mergeJobs_consistent` the merge of one
  reply and `fetchServers_consistent` the whole fetch;
* `ExpectsHold` are the assertions of the functions that count running jobs,
  `runJobs_expects` says that starting jobs keeps them.
-/
import PlanSched.CheckedRun
import PlanSched.DataTypes

namespace PlanSched.Snapshot

open CheckedRun

/-! ## Counters -/

/-- `StateCount`. -/
structure StateCount where
  running : ℤ
  queued : ℤ
  held : ℤ
  transit : ℤ
  waiting : ℤ
  exiting : ℤ
  suspended : ℤ
  completed : ℤ
  crossrun : ℤ
  total : ℤ
  deriving DecidableEq, Repr

/-- The constructor of `StateCount`, and `StateCount::reset`. -/
def StateCount.reset : StateCount where
  running := 0
  queued := 0
  held := 0
  transit := 0
  waiting := 0
  exiting := 0
  suspended := 0
  completed := 0
  crossrun := 0
  total := 0

/-- One turn of the loop of `count_states`; a job in no state is only logged. -/
def StateCount.countState (sc : StateCount) : JobState → StateCount
  | .queued => { sc with queued := sc.queued + 1 }
  | .running => { sc with running := sc.running + 1 }
  | .transit => { sc with transit := sc.transit + 1 }
  | .exiting => { sc with exiting := sc.exiting + 1 }
  | .held => { sc with held := sc.held + 1 }
  | .waiting => { sc with waiting := sc.waiting + 1 }
  | .suspended => { sc with suspended := sc.suspended + 1 }
  | .completed => { sc with completed := sc.completed + 1 }
  | .crossRun => { sc with crossrun := sc.crossrun + 1 }
  | .noState => sc

/-- `StateCount::count_states`. -/
def StateCount.countStates (sc : StateCount) (jobs : List JobInfo) : StateCount :=
  let sc := jobs.foldl (fun sc j => sc.countState j.state) sc
  { sc with
    total := sc.queued + sc.running + sc.transit + sc.exiting + sc.held + sc.waiting +
      sc.suspended + sc.completed + sc.crossrun }

/-- `StateCount::operator+=`; `total` is not added. -/
def StateCount.add (sc other : StateCount) : StateCount :=
  { sc with
    queued := sc.queued + other.queued
    running := sc.running + other.running
    transit := sc.transit + other.transit
    exiting := sc.exiting + other.exiting
    held := sc.held + other.held
    waiting := sc.waiting + other.waiting
    suspended := sc.suspended + other.suspended
    completed := sc.completed + other.completed
    crossrun := sc.crossrun + other.crossrun }

/-- The counter of a state; there is none for a job in no state. -/
def StateCount.counter (sc : StateCount) : JobState → Option ℤ
  | .noState => none
  | .queued => some sc.queued
  | .running => some sc.running
  | .held => some sc.held
  | .waiting => some sc.waiting
  | .transit => some sc.transit
  | .exiting => some sc.exiting
  | .suspended => some sc.suspended
  | .completed => some sc.completed
  | .crossRun => some sc.crossrun

/-- The number of jobs in a state. -/
def jobsIn (state : JobState) (jobs : List JobInfo) : ℕ := jobs.countP (fun j => j.state = state)

/-- Every counter is the number of jobs in its state. -/
def StateCount.Counts (sc : StateCount) (jobs : List JobInfo) : Prop :=
  ∀ state, state ≠ .noState → sc.counter state = some (jobsIn state jobs : ℤ)

/-! ## Queues and servers -/

/-- `queue_info`, as far as it is part of the snapshot. -/
structure QueueInfo where
  isGlobal : Bool
  jobs : List JobInfo
  sc : StateCount
  runningJobs : List JobInfo
  deriving DecidableEq, Repr

/-- `server_info`, as far as it is part of the snapshot. -/
structure ServerInfo where
  queues : List QueueInfo
  numQueues : ℕ
  jobs : List JobInfo
  sc : StateCount
  runningJobs : List JobInfo
  deriving DecidableEq, Repr

/-- The `copy_if` of the running jobs. -/
def runningOf (jobs : List JobInfo) : List JobInfo := jobs.filter (fun j => j.state = .running)

/-- What becomes of one job of a reply: `new JobInfo` builds it, returns `NULL` or throws. -/
inductive JobStatus : Type where
  | built (j : JobInfo) : JobStatus
  | null : JobStatus
  | throws : JobStatus

/-- The reply of a server for one queue: the connection cannot be made (an exception),
`pbs_selstat` fails, or there are jobs, perhaps none. -/
inductive Reply : Type where
  | unreachable : Reply
  | refused : Reply
  | jobs (statuses : List JobStatus) : Reply

/-- An exception. -/
inductive Exception : Type where
  | thrown : Exception

/-- The loop of `query_jobs` over the reply; for a `NULL` the result is cleared. -/
def pushJobs (result : List JobInfo) : List JobStatus → Except Exception (Bool × List JobInfo)
  | [] => .ok (true, result)
  | .built j :: rest => pushJobs (result ++ [j]) rest
  | .null :: _ => .ok (false, [])
  | .throws :: _ => .error .thrown

/-- `query_jobs`, with the connection it is given. -/
def queryJobs (reply : Reply) (result : List JobInfo) : Except Exception (Bool × List JobInfo) :=
  match reply with
  | .unreachable => .error .thrown
  | .refused => .ok (false, result)
  | .jobs statuses => pushJobs result statuses

/-- One queue of the master's reply; `isValid` says that `query_queue_info` could convert it. -/
structure QueueStatus where
  isValid : Bool
  isGlobal : Bool
  reply : Reply

/-- One turn of `query_queues`: a failed `query_jobs` is logged and the queue keeps the jobs it
has. -/
def queryQueue (status : QueueStatus) : Except Exception (Option QueueInfo) :=
  if status.isValid then do
    let (_, jobs) ← queryJobs status.reply []
    return some
      { isGlobal := status.isGlobal
        jobs := jobs
        sc := StateCount.reset.countStates jobs
        runningJobs := runningOf jobs }
  else
    return none

/-- `query_queues`: `NULL` for a queue that cannot be converted. -/
def queryQueues : List QueueStatus → Except Exception (Option (List QueueInfo))
  | [] => .ok (some [])
  | status :: rest => do
      match ← queryQueue status with
      | none => return none
      | some qinfo =>
          match ← queryQueues rest with
          | none => return none
          | some queues => return some (qinfo :: queues)

/-- The master's reply: `isValid` says that the server and its nodes could be fetched and
`queues` is `none` when `pbs_statque` fails. -/
structure MasterStatus where
  isReachable : Bool
  isValid : Bool
  queues : Option (List QueueStatus)

/-- `query_server`: the counters of the server are the sums of those of the queues, its jobs all
of theirs. -/
def queryServer (master : MasterStatus) : Except Exception (Option ServerInfo) :=
  if ¬ master.isReachable then .error .thrown
  else if ¬ master.isValid then .ok none
  else
    match master.queues with
    | none => .ok none
    | some statuses => do
        match ← queryQueues statuses with
        | none => return none
        | some queues =>
            let jobs := queues.flatMap QueueInfo.jobs
            return some
              { queues := queues
                numQueues := queues.length
                jobs := jobs
                sc := queues.foldl (fun sc q => sc.add q.sc) StateCount.reset
                runningJobs := runningOf jobs }

/-- The merge of new jobs into a queue. -/
def QueueInfo.mergeJobs (qinfo : QueueInfo) (jobs : List JobInfo) : QueueInfo :=
  { qinfo with
    jobs := qinfo.jobs ++ jobs
    sc := StateCount.reset.countStates (qinfo.jobs ++ jobs)
    runningJobs := runningOf (qinfo.jobs ++ jobs) }

/-- The merge of new jobs into queue `i` and the server. -/
def ServerInfo.mergeJobs (sinfo : ServerInfo) (i : ℕ) (jobs : List JobInfo) : ServerInfo :=
  { sinfo with
    queues := sinfo.queues.modify i (fun qinfo => qinfo.mergeJobs jobs)
    jobs := sinfo.jobs ++ jobs
    sc := StateCount.reset.countStates (sinfo.jobs ++ jobs)
    runningJobs := runningOf (sinfo.jobs ++ jobs) }

/-- The loop of `fetch_servers` over the queues for one slave server: a soft failure goes on with
the next queue, a hard one leaves the server. -/
def fetchQueues (slave : ℕ → Reply) (sinfo : ServerInfo) : List ℕ → Run ServerInfo
  | [] => .ok sinfo
  | j :: rest => do
      let qinfo ← getAt sinfo.queues j
      if qinfo.isGlobal then
        match queryJobs (slave j) [] with
        | .error _ => return sinfo
        | .ok (false, _) => fetchQueues slave sinfo rest
        | .ok (true, jobs) =>
            if 0 < jobs.length then fetchQueues slave (sinfo.mergeJobs j jobs) rest
            else fetchQueues slave sinfo rest
      else fetchQueues slave sinfo rest

/-- The loop of `fetch_servers` over the slave servers. -/
def fetchSlaves (sinfo : ServerInfo) : List (ℕ → Reply) → Run ServerInfo
  | [] => .ok sinfo
  | slave :: slaves => do
      let sinfo ← fetchQueues slave sinfo (List.range sinfo.numQueues)
      fetchSlaves sinfo slaves

/-- `World::fetch_servers`: `none` where it returns false. -/
def fetchServers (master : MasterStatus) (slaves : List (ℕ → Reply)) : Run (Option ServerInfo) :=
  match queryServer master with
  | .error _ => .ok none
  | .ok none => .ok none
  | .ok (some sinfo) => do
      let sinfo ← fetchSlaves sinfo slaves
      return some sinfo

/-! ## Starting jobs -/

/-- `queue_info::update_on_job_run`, as far as it is part of the snapshot. -/
def QueueInfo.updateOnJobRun (qinfo : QueueInfo) (j : JobInfo) : QueueInfo :=
  { qinfo with
    sc := { qinfo.sc with running := qinfo.sc.running + 1, queued := qinfo.sc.queued - 1 }
    runningJobs := qinfo.runningJobs ++ [j] }

/-- A job of queue `i` is started: `update_on_job_run` of the server and of the queue. -/
def ServerInfo.updateOnJobRun (sinfo : ServerInfo) (i : ℕ) (j : JobInfo) : ServerInfo :=
  { sinfo with
    queues := sinfo.queues.modify i (fun qinfo => qinfo.updateOnJobRun j)
    sc := { sinfo.sc with running := sinfo.sc.running + 1, queued := sinfo.sc.queued - 1 }
    runningJobs := sinfo.runningJobs ++ [j] }

/-- The jobs that are started in the cycle, each with its queue. -/
def ServerInfo.runJobs (sinfo : ServerInfo) (starts : List (ℕ × JobInfo)) : ServerInfo :=
  starts.foldl (fun sinfo start => sinfo.updateOnJobRun start.1 start.2) sinfo

/-- The assertions of `update_last_running` and of the functions that count the processors of
running jobs. -/
def ExpectsHold (sinfo : ServerInfo) : Prop :=
  sinfo.sc.running = sinfo.runningJobs.length ∧
    ∀ qinfo ∈ sinfo.queues, qinfo.sc.running = qinfo.runningJobs.length

/-! ## Counting -/

/-- One turn of the loop counts the job under its state. -/
theorem counter_countState (sc : StateCount) (state counted : JobState) :
    (sc.countState state).counter counted =
      (sc.counter counted).map (· + if state = counted then 1 else 0) := by
  cases state <;> cases counted <;> simp [StateCount.countState, StateCount.counter]

/-- The loop counts every job under its state. -/
theorem counter_foldl (jobs : List JobInfo) (state : JobState) : ∀ sc : StateCount,
    (jobs.foldl (fun sc j => sc.countState j.state) sc).counter state =
      (sc.counter state).map (· + (jobsIn state jobs : ℤ)) := by
  induction jobs with
  | nil =>
      intro sc
      simp [jobsIn]
  | cons j jobs ih =>
      intro sc
      rw [List.foldl_cons, ih, counter_countState, Option.map_map]
      congr 1
      funext c
      simp only [Function.comp_apply, jobsIn, List.countP_cons, decide_eq_true_eq]
      push_cast
      omega

/-- A recount gives the number of jobs in every state. -/
theorem countStates_counts (jobs : List JobInfo) :
    (StateCount.reset.countStates jobs).Counts jobs := by
  intro state hstate
  have htotal : ∀ sc : StateCount, ∀ total : ℤ,
      ({ sc with total := total } : StateCount).counter state = sc.counter state := by
    intro sc total
    cases state <;> rfl
  rw [StateCount.countStates, htotal, counter_foldl]
  cases state with
  | noState => exact absurd rfl hstate
  | _ => simp [StateCount.counter, StateCount.reset]

/-- The sum of two counts counts both. -/
theorem StateCount.Counts.add {sc other : StateCount} {xs ys : List JobInfo} (hsc : sc.Counts xs)
    (hother : other.Counts ys) : (sc.add other).Counts (xs ++ ys) := by
  intro state hstate
  have hx := hsc state hstate
  have hy := hother state hstate
  have hsum : (jobsIn state (xs ++ ys) : ℤ) = jobsIn state xs + jobsIn state ys := by
    rw [jobsIn, List.countP_append]
    push_cast
    rfl
  rw [hsum]
  cases state with
  | noState => exact absurd rfl hstate
  | _ =>
      simp only [StateCount.counter, Option.some.injEq] at hx hy
      simp only [StateCount.add, StateCount.counter, hx, hy]

/-- The counter of the running jobs is the number of running jobs. -/
theorem StateCount.Counts.running {sc : StateCount} {jobs : List JobInfo} (h : sc.Counts jobs) :
    sc.running = (runningOf jobs).length := by
  have hrunning := h .running (by decide)
  simp only [StateCount.counter, Option.some.injEq] at hrunning
  rw [hrunning, jobsIn, runningOf, List.countP_eq_length_filter]

/-! ## Consistency -/

/-- The running jobs and the counters of a queue are those of its jobs. -/
structure QueueInfo.Consistent (qinfo : QueueInfo) : Prop where
  runningJobs : qinfo.runningJobs = runningOf qinfo.jobs
  counts : qinfo.sc.Counts qinfo.jobs

/-- **What the snapshot promises**: the jobs of the server are those of all its queues, and the
running jobs and the counters, of the server and of every queue, are those of the jobs. -/
structure ServerInfo.Consistent (sinfo : ServerInfo) : Prop where
  numQueues : sinfo.numQueues = sinfo.queues.length
  jobs : sinfo.jobs.Perm (sinfo.queues.flatMap QueueInfo.jobs)
  runningJobs : sinfo.runningJobs = runningOf sinfo.jobs
  counts : sinfo.sc.Counts sinfo.jobs
  queues : ∀ qinfo ∈ sinfo.queues, qinfo.Consistent

/-- A queue with new jobs merged is consistent, whatever it was before. -/
theorem QueueInfo.mergeJobs_consistent (qinfo : QueueInfo) (jobs : List JobInfo) :
    (qinfo.mergeJobs jobs).Consistent :=
  ⟨rfl, countStates_counts _⟩

/-- A queue of a reply of the master is consistent. -/
theorem queryQueue_consistent {status : QueueStatus} {qinfo : QueueInfo}
    (h : queryQueue status = .ok (some qinfo)) : qinfo.Consistent := by
  unfold queryQueue at h
  split at h
  · cases hreply : queryJobs status.reply [] with
    | error e =>
        rw [hreply] at h
        cases h
    | ok answer =>
        rw [hreply] at h
        cases h
        exact ⟨rfl, countStates_counts _⟩
  · cases h

/-- All queues of a reply of the master are consistent. -/
theorem queryQueues_consistent {statuses : List QueueStatus} :
    ∀ {queues : List QueueInfo}, queryQueues statuses = .ok (some queues) →
      ∀ qinfo ∈ queues, qinfo.Consistent := by
  induction statuses with
  | nil =>
      intro queues h qinfo hq
      cases h
      cases hq
  | cons status rest ih =>
      intro queues h qinfo hq
      unfold queryQueues at h
      cases hfirst : queryQueue status with
      | error e =>
          rw [hfirst] at h
          cases h
      | ok first =>
          rw [hfirst] at h
          cases first with
          | none => cases h
          | some first =>
              cases hrest : queryQueues rest with
              | error e =>
                  simp only [bind, Except.bind, hrest] at h
                  cases h
              | ok more =>
                  simp only [bind, Except.bind, hrest] at h
                  cases more with
                  | none => cases h
                  | some more =>
                      cases h
                      rcases List.mem_cons.mp hq with rfl | hq
                      · exact queryQueue_consistent hfirst
                      · exact ih hrest qinfo hq

/-- The summed counters of the queues count all their jobs. -/
theorem foldl_add_counts (queues : List QueueInfo) (h : ∀ qinfo ∈ queues, qinfo.Consistent) :
    ∀ (sc : StateCount) (jobs : List JobInfo), sc.Counts jobs →
      (queues.foldl (fun sc q => sc.add q.sc) sc).Counts
        (jobs ++ queues.flatMap QueueInfo.jobs) := by
  induction queues with
  | nil =>
      intro sc jobs hsc
      simpa using hsc
  | cons qinfo queues ih =>
      intro sc jobs hsc
      rw [List.foldl_cons, List.flatMap_cons, ← List.append_assoc]
      apply ih
      · intro q hq
        exact h q (List.mem_cons_of_mem _ hq)
      · exact hsc.add (h qinfo (by simp)).counts

/-- The first query: summed counters and concatenated jobs. -/
theorem queryServer_consistent {master : MasterStatus} {sinfo : ServerInfo}
    (h : queryServer master = .ok (some sinfo)) : sinfo.Consistent := by
  unfold queryServer at h
  split at h
  · cases h
  · split at h
    · cases h
    · split at h
      · cases h
      · rename_i statuses _
        cases hqueues : queryQueues statuses with
        | error e =>
            rw [hqueues] at h
            cases h
        | ok queues =>
            rw [hqueues] at h
            cases queues with
            | none => cases h
            | some queues =>
                cases h
                have hconsistent := queryQueues_consistent hqueues
                have hreset : StateCount.reset.Counts [] := countStates_counts []
                refine ⟨rfl, List.Perm.refl _, rfl, ?_, hconsistent⟩
                simpa using foldl_add_counts queues hconsistent _ _ hreset

/-- The jobs of the queues after a merge, up to their order. -/
theorem flatMap_modify_perm (queues : List QueueInfo) (jobs : List JobInfo) :
    ∀ i, i < queues.length →
      ((queues.modify i (fun qinfo => qinfo.mergeJobs jobs)).flatMap QueueInfo.jobs).Perm
        (queues.flatMap QueueInfo.jobs ++ jobs) := by
  induction queues with
  | nil =>
      intro i hi
      simp at hi
  | cons qinfo queues ih =>
      intro i hi
      cases i with
      | zero =>
          show ((qinfo.jobs ++ jobs) ++ queues.flatMap QueueInfo.jobs).Perm
            ((qinfo.jobs ++ queues.flatMap QueueInfo.jobs) ++ jobs)
          rw [List.append_assoc, List.append_assoc]
          exact List.Perm.append_left _ List.perm_append_comm
      | succ i =>
          show (qinfo.jobs ++ (queues.modify i _).flatMap QueueInfo.jobs).Perm
            ((qinfo.jobs ++ queues.flatMap QueueInfo.jobs) ++ jobs)
          rw [List.append_assoc]
          apply List.Perm.append_left
          apply ih
          simpa using hi

/-- A member of a list with one entry changed. -/
theorem mem_modify_cases {queues : List QueueInfo} {f : QueueInfo → QueueInfo} {i : ℕ}
    {qinfo : QueueInfo} (h : qinfo ∈ queues.modify i f) :
    qinfo ∈ queues ∨ ∃ q ∈ queues, qinfo = f q := by
  obtain ⟨k, hk⟩ := List.mem_iff_getElem?.mp h
  rw [List.getElem?_modify] at hk
  cases hq : queues[k]? with
  | none =>
      rw [hq] at hk
      cases hk
  | some q =>
      rw [hq] at hk
      have hmem := List.mem_of_getElem? hq
      rw [Option.map_eq_map, Option.map_some, Option.some.injEq] at hk
      split at hk
      · exact Or.inr ⟨q, hmem, hk.symm⟩
      · rw [← hk]
        exact Or.inl hmem

/-- **The merge of one reply** keeps the snapshot consistent. -/
theorem mergeJobs_consistent {sinfo : ServerInfo} (h : sinfo.Consistent) {i : ℕ}
    (hi : i < sinfo.queues.length) (jobs : List JobInfo) : (sinfo.mergeJobs i jobs).Consistent := by
  refine ⟨?_, ?_, rfl, countStates_counts _, ?_⟩
  · show sinfo.numQueues = (sinfo.queues.modify i _).length
    rw [List.length_modify, h.numQueues]
  · show (sinfo.jobs ++ jobs).Perm ((sinfo.queues.modify i _).flatMap QueueInfo.jobs)
    exact (h.jobs.append_right jobs).trans (flatMap_modify_perm sinfo.queues jobs i hi).symm
  · intro qinfo hq
    rcases mem_modify_cases hq with hq | ⟨q, -, rfl⟩
    · exact h.queues qinfo hq
    · exact q.mergeJobs_consistent jobs

/-- The loop over the queues for one slave server ends and keeps the snapshot consistent, whatever
the replies are. -/
theorem fetchQueues_consistent (slave : ℕ → Reply) (indexes : List ℕ) :
    ∀ {sinfo : ServerInfo}, sinfo.Consistent → (∀ j ∈ indexes, j < sinfo.queues.length) →
      ∃ sinfo', fetchQueues slave sinfo indexes = .ok sinfo' ∧ sinfo'.Consistent := by
  induction indexes with
  | nil =>
      intro sinfo h _
      exact ⟨sinfo, rfl, h⟩
  | cons j rest ih =>
      intro sinfo h hlt
      have hj : j < sinfo.queues.length := hlt j (by simp)
      have hrest : ∀ k ∈ rest, k < sinfo.queues.length :=
        fun k hk => hlt k (List.mem_cons_of_mem _ hk)
      have hget : getAt sinfo.queues j = .ok sinfo.queues[j] :=
        getAt_ok.mpr (List.getElem?_eq_getElem hj)
      simp only [fetchQueues, hget, bind, Except.bind]
      split
      · split
        · -- a hard failure: the rest of this server is left out
          exact ⟨sinfo, rfl, h⟩
        · exact ih h hrest
        · rename_i jobs _
          split
          · apply ih (mergeJobs_consistent h hj jobs)
            intro k hk
            show k < (sinfo.queues.modify j _).length
            rw [List.length_modify]
            exact hrest k hk
          · exact ih h hrest
      · exact ih h hrest

/-- The loop over the slave servers ends and keeps the snapshot consistent. -/
theorem fetchSlaves_consistent (slaves : List (ℕ → Reply)) :
    ∀ {sinfo : ServerInfo}, sinfo.Consistent →
      ∃ sinfo', fetchSlaves sinfo slaves = .ok sinfo' ∧ sinfo'.Consistent := by
  induction slaves with
  | nil =>
      intro sinfo h
      exact ⟨sinfo, rfl, h⟩
  | cons slave slaves ih =>
      intro sinfo h
      have hrange : ∀ j ∈ List.range sinfo.numQueues, j < sinfo.queues.length := by
        intro j hj
        rw [← h.numQueues]
        exact List.mem_range.mp hj
      obtain ⟨sinfo₁, hfetch, h₁⟩ := fetchQueues_consistent slave _ h hrange
      obtain ⟨sinfo', hslaves, h'⟩ := ih h₁
      refine ⟨sinfo', ?_, h'⟩
      rw [fetchSlaves, hfetch]
      exact hslaves

/-! ## The assertions -/

/-- A consistent snapshot passes the assertions. -/
theorem ServerInfo.Consistent.expects {sinfo : ServerInfo} (h : sinfo.Consistent) :
    ExpectsHold sinfo := by
  constructor
  · rw [h.runningJobs]
    exact h.counts.running
  · intro qinfo hq
    rw [(h.queues qinfo hq).runningJobs]
    exact (h.queues qinfo hq).counts.running

/-- Starting a job keeps the assertions. -/
theorem updateOnJobRun_expects {sinfo : ServerInfo} (h : ExpectsHold sinfo) (i : ℕ)
    (j : JobInfo) : ExpectsHold (sinfo.updateOnJobRun i j) := by
  constructor
  · show sinfo.sc.running + 1 = ((sinfo.runningJobs ++ [j]).length : ℤ)
    rw [h.1, List.length_append, List.length_singleton]
    push_cast
    rfl
  · intro qinfo hq
    rcases mem_modify_cases hq with hmem | ⟨q, hmem, rfl⟩
    · exact h.2 qinfo hmem
    · show q.sc.running + 1 = ((q.runningJobs ++ [j]).length : ℤ)
      rw [h.2 q hmem, List.length_append, List.length_singleton]
      push_cast
      rfl

/-- Starting jobs keeps the assertions. -/
theorem runJobs_expects (starts : List (ℕ × JobInfo)) :
    ∀ {sinfo : ServerInfo}, ExpectsHold sinfo → ExpectsHold (sinfo.runJobs starts) := by
  induction starts with
  | nil =>
      intro sinfo h
      exact h
  | cons start starts ih =>
      intro sinfo h
      exact ih (updateOnJobRun_expects h start.1 start.2)

/-- **The snapshot is consistent**: whatever the servers answer, `fetch_servers` returns; where it
returns true the jobs, the running jobs and the counters of the server and of every queue agree,
and the assertions hold through the cycle, whichever jobs are started. -/
theorem fetchServers_consistent (master : MasterStatus) (slaves : List (ℕ → Reply)) :
    ∃ fetched, fetchServers master slaves = .ok fetched ∧
      ∀ sinfo, fetched = some sinfo →
        sinfo.Consistent ∧ ∀ starts, ExpectsHold (sinfo.runJobs starts) := by
  unfold fetchServers
  split
  · refine ⟨none, rfl, ?_⟩
    intro sinfo hnone
    cases hnone
  · refine ⟨none, rfl, ?_⟩
    intro sinfo hnone
    cases hnone
  · rename_i sinfo hquery
    obtain ⟨sinfo', hfetch, hconsistent⟩ :=
      fetchSlaves_consistent slaves (queryServer_consistent hquery)
    rw [hfetch]
    refine ⟨some sinfo', rfl, ?_⟩
    rintro sinfo₁ ⟨⟩
    refine ⟨hconsistent, ?_⟩
    intro starts
    exact runJobs_expects starts hconsistent.expects

/-- A job in the given state. -/
def jobIn (jobId : String) (state : JobState) : JobInfo :=
  { (default : JobInfo) with jobId := jobId, state := state }

/-- A master with a local and a global queue, and three slaves: a soft failure, a hard one, and
one with a running and a held job in the global queue. -/
theorem fetchServers_consistent_merged :
    ∃ sinfo, fetchServers
        { isReachable := true
          isValid := true
          queues := some
            [{ isValid := true, isGlobal := false, reply := .jobs [.built (jobIn "1" .running)] },
              { isValid := true, isGlobal := true, reply := .jobs [.built (jobIn "2" .queued)] }] }
        [fun _ => .refused, fun _ => .unreachable,
          fun _ => .jobs [.built (jobIn "3" .running), .built (jobIn "4" .held)]] =
          .ok (some sinfo) ∧
      sinfo.jobs.map JobInfo.jobId = ["1", "2", "3", "4"] ∧ sinfo.sc.running = 2 ∧
      sinfo.Consistent := by
  obtain ⟨fetched, hfetch, hconsistent⟩ := fetchServers_consistent
    { isReachable := true
      isValid := true
      queues := some
        [{ isValid := true, isGlobal := false, reply := .jobs [.built (jobIn "1" .running)] },
          { isValid := true, isGlobal := true, reply := .jobs [.built (jobIn "2" .queued)] }] }
    [fun _ => .refused, fun _ => .unreachable,
      fun _ => .jobs [.built (jobIn "3" .running), .built (jobIn "4" .held)]]
  cases hfetch
  exact ⟨_, rfl, by decide, by decide, (hconsistent _ rfl).1⟩

end PlanSched.Snapshot
