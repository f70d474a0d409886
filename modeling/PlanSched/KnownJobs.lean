/-
# The jobs of the plan over the cycles

Models `plan_known_jobs_update` (`plan_schedule.cpp`): at the start of every cycle the
jobs of the new server snapshot are looked up in the plan by their number.  The first
job of the plan with that number is bound to the reported job, and taken out of the
plan if it is completed; a job that is not found may be handed on as a new one.

A job of the plan carries the cycle of the snapshot its `jinfo` points into, and the
id of the job it was made for.  `SearchedPlan` says once what the search does.

* `plan_points_into_report`: all pointers of the plan are those of the current snapshot
  in all states of a run, if every node of the clusters and every job of the plan is
  reported again.
-/
import PlanSched.ClusterCapacity

namespace PlanSched

open CheckedRun

/-! ## Jobs of the plan -/

/-- A `plan_job` between the cycles: `job.jinfo` points into the snapshot of cycle
`cycle`; `createdFor` is the id of the job `job_fillin` was called for. -/
structure KnownJob where
  job : PlanJob
  createdFor : String
  cycle : ℕ
  jobId_eq : job.jobId = parseHeadNumber createdFor

/-- The number a reported job is looked up by. -/
def JobInfo.number (jinfo : JobInfo) : ℤ := parseHeadNumber jinfo.jobId

/-- The changes to a job that is found.  The request for memory is followed without a
test; a running job whose time is over is given another second. -/
def KnownJob.rebind (cycle : ℕ) (timeNow : ℤ) (jinfo : JobInfo) (known : KnownJob) :
    Run KnownJob := do
  let walltime :=
    ((findResourceReq jinfo.resreq "walltime").map ResourceReq.amount).getD DEFAULT_WALLTIME
  let mem ← deref (findResourceReq jinfo.resreq "mem")
  let completion := known.job.startTime + walltime
  let isOver := (jinfo.state = .running ∨ jinfo.state = .exiting) ∧ completion ≤ timeNow
  return { known with
    job := { known.job with
      jinfo := jinfo
      estimatedProcessing := walltime
      completionTime := if isOver then timeNow + 1 else completion
      reqMem := mem.amount.tdiv known.job.reqNumNodes
      reqScratchLocal := 0 }
    cycle := cycle }

/-- The search through the list of one cluster; `none` if the job is not there. -/
def rebindInList (cycle : ℕ) (timeNow : ℤ) (jinfo : JobInfo) :
    List KnownJob → Run (Option (List KnownJob))
  | [] => .ok none
  | known :: jobs =>
      if known.job.jobId = jinfo.number then do
        let rebound ← known.rebind cycle timeNow jinfo
        return some (if jinfo.state = .completed then jobs else rebound :: jobs)
      else do
        let rest ← rebindInList cycle timeNow jinfo jobs
        return rest.map (known :: ·)

/-- The search through the lists of all clusters. -/
def rebindInPlan (cycle : ℕ) (timeNow : ℤ) (jinfo : JobInfo) :
    List (List KnownJob) → Run (Option (List (List KnownJob)))
  | [] => .ok none
  | jobs :: plan => do
      let rebound ← rebindInList cycle timeNow jinfo jobs
      match rebound with
      | some jobs' => return some (jobs' :: plan)
      | none => do
          let rest ← rebindInPlan cycle timeNow jinfo plan
          return rest.map (jobs :: ·)

/-! ## New jobs -/

/-- What `plan_known_jobs_update` reads of `conf`. -/
structure JobsConf where
  localServer : String
  newJobsLimitPerCycle : ℤ

/-- The job's id does not name the local server. -/
def JobsConf.isRemote (conf : JobsConf) (jinfo : JobInfo) : Bool :=
  !decide (conf.localServer.toList <:+: jinfo.jobId.toList)

/-- There is a dash before the first dot of the job's id. -/
def JobInfo.isArray (jinfo : JobInfo) : Bool :=
  (jinfo.jobId.toList.takeWhile (· != '.')).contains '-'

/-- The plan, the new jobs and the number of remote jobs while the snapshot is gone
through. -/
structure KnownState where
  plan : List (List KnownJob)
  newJobs : List JobInfo
  newJobsRemote : ℕ

/-- One pass of `plan_known_jobs_update`.  Remote jobs count as soon as they are queued,
known or not. -/
def updateKnownJob (conf : JobsConf) (cycle : ℕ) (timeNow : ℤ) (state : KnownState)
    (jinfo : JobInfo) : Run KnownState := do
  let rebound ← rebindInPlan cycle timeNow jinfo state.plan
  let remote := conf.isRemote jinfo
  let remoteQueued := jinfo.state == .queued && remote
  let newJobsRemote :=
    if remoteQueued && !jinfo.isArray then state.newJobsRemote + 1 else state.newJobsRemote
  let found := rebound.isSome
    || (jinfo.state != .running && jinfo.state != .queued)
    || (jinfo.state == .running && remote)
    || (remoteQueued && (jinfo.isArray || decide (10 < newJobsRemote)))
  let isNew := !found && decide ((state.newJobs.length : ℤ) < conf.newJobsLimitPerCycle)
  return {
    plan := rebound.getD state.plan
    newJobs := if isNew then state.newJobs ++ [jinfo] else state.newJobs
    newJobsRemote := newJobsRemote }

/-- `plan_known_jobs_update` on the jobs in the order `compare_fairshare` puts them in.
An empty job list returns at once. -/
def planKnownJobsUpdate (conf : JobsConf) (cycle : ℕ) (timeNow : ℤ) (jobs : List JobInfo)
    (plan : List (List KnownJob)) : Run KnownState :=
  jobs.foldlM (updateKnownJob conf cycle timeNow) ⟨plan, [], 0⟩

/-! ## What the search does -/

/-- What is left of a job that was found: nothing, if it is completed. -/
def Rebound (cycle : ℕ) (timeNow : ℤ) (jinfo : JobInfo) (known : KnownJob)
    (rest : List KnownJob) : Prop :=
  rest = [] ∨ ∃ known', known.rebind cycle timeNow jinfo = .ok known' ∧ rest = [known']

/-- What the search through the plan does, on the jobs of all clusters in a row. -/
inductive SearchedPlan (cycle : ℕ) (timeNow : ℤ) (jinfo : JobInfo) (jobs : List KnownJob) :
    List KnownJob → Bool → Prop
  /-- no job has the number -/
  | missing (h : ∀ known ∈ jobs, known.job.jobId ≠ jinfo.number) :
      SearchedPlan cycle timeNow jinfo jobs jobs false
  /-- the first job of the number is bound to the reported one -/
  | found (before after : List KnownJob) (known : KnownJob) (rest : List KnownJob)
      (hsplit : jobs = before ++ known :: after)
      (hbefore : ∀ k ∈ before, k.job.jobId ≠ jinfo.number)
      (hnumber : known.job.jobId = jinfo.number) (hrest : Rebound cycle timeNow jinfo known rest) :
      SearchedPlan cycle timeNow jinfo jobs (before ++ rest ++ after) true

/-- Jobs before the searched ones that do not have the number. -/
theorem SearchedPlan.prepend {cycle : ℕ} {timeNow : ℤ} {jinfo : JobInfo}
    {jobs jobs' : List KnownJob} {isFound : Bool} (pre : List KnownJob)
    (hpre : ∀ k ∈ pre, k.job.jobId ≠ jinfo.number)
    (h : SearchedPlan cycle timeNow jinfo jobs jobs' isFound) :
    SearchedPlan cycle timeNow jinfo (pre ++ jobs) (pre ++ jobs') isFound := by
  cases h with
  | missing h =>
      refine .missing ?_
      intro k hk
      rcases List.mem_append.mp hk with hk | hk
      · exact hpre k hk
      · exact h k hk
  | found before after known rest hsplit hbefore hnumber hrest =>
      rw [← List.append_assoc, ← List.append_assoc]
      refine .found (pre ++ before) after known rest ?_ ?_ hnumber hrest
      · rw [hsplit, List.append_assoc]
      · intro k hk
        rcases List.mem_append.mp hk with hk | hk
        · exact hpre k hk
        · exact hbefore k hk

/-- Jobs behind the searched ones, once the job is found. -/
theorem SearchedPlan.append {cycle : ℕ} {timeNow : ℤ} {jinfo : JobInfo}
    {jobs jobs' : List KnownJob} (post : List KnownJob)
    (h : SearchedPlan cycle timeNow jinfo jobs jobs' true) :
    SearchedPlan cycle timeNow jinfo (jobs ++ post) (jobs' ++ post) true := by
  cases h with
  | found before after known rest hsplit hbefore hnumber hrest =>
      rw [List.append_assoc]
      refine .found before (after ++ post) known rest ?_ hbefore hnumber hrest
      rw [hsplit, List.append_assoc, List.cons_append]

/-- The search through one list. -/
theorem rebindInList_searched {cycle : ℕ} {timeNow : ℤ} {jinfo : JobInfo} (jobs : List KnownJob) :
    ∀ {result : Option (List KnownJob)}, rebindInList cycle timeNow jinfo jobs = .ok result →
      SearchedPlan cycle timeNow jinfo jobs (result.getD jobs) result.isSome := by
  induction jobs with
  | nil =>
      intro result h
      cases h
      exact .missing (by simp)
  | cons known jobs ih =>
      intro result h
      rw [rebindInList] at h
      split at h
      · next hnumber =>
          obtain ⟨rebound, hrebound, h⟩ := bind_ok.mp h
          rw [← pure_ok.mp h]
          by_cases hstate : jinfo.state = .completed
          · rw [if_pos hstate]
            exact .found [] jobs known [] rfl (by simp) hnumber (Or.inl rfl)
          · rw [if_neg hstate]
            exact .found [] jobs known [rebound] rfl (by simp) hnumber
              (Or.inr ⟨rebound, hrebound, rfl⟩)
      · next hnumber =>
          obtain ⟨rest, hrest, h⟩ := bind_ok.mp h
          rw [← pure_ok.mp h]
          have hpre : ∀ k ∈ [known], k.job.jobId ≠ jinfo.number := by
            intro k hk
            rw [List.mem_singleton.mp hk]
            exact hnumber
          have hnext := (ih hrest).prepend [known] hpre
          cases rest with
          | none => exact hnext
          | some jobs' => exact hnext

/-- The search through the plan. -/
theorem rebindInPlan_searched {cycle : ℕ} {timeNow : ℤ} {jinfo : JobInfo}
    (plan : List (List KnownJob)) :
    ∀ {result : Option (List (List KnownJob))},
      rebindInPlan cycle timeNow jinfo plan = .ok result →
      SearchedPlan cycle timeNow jinfo plan.flatten (result.getD plan).flatten result.isSome := by
  induction plan with
  | nil =>
      intro result h
      cases h
      exact .missing (by simp)
  | cons jobs plan ih =>
      intro result h
      rw [rebindInPlan] at h
      obtain ⟨rebound, hrebound, h⟩ := bind_ok.mp h
      have hlist := rebindInList_searched jobs hrebound
      cases rebound with
      | some jobs' =>
          rw [← pure_ok.mp h]
          exact hlist.append plan.flatten
      | none =>
          obtain ⟨rest, hrest, h⟩ := bind_ok.mp h
          rw [← pure_ok.mp h]
          have hpre : ∀ k ∈ jobs, k.job.jobId ≠ jinfo.number := by
            cases hlist with
            | missing hnone => exact hnone
          have hnext := (ih hrest).prepend jobs hpre
          cases rest with
          | none => exact hnext
          | some plan' => exact hnext

/-- One pass of `plan_known_jobs_update` searches the plan. -/
theorem updateKnownJob_searched {conf : JobsConf} {cycle : ℕ} {timeNow : ℤ}
    {state state' : KnownState} {jinfo : JobInfo}
    (h : updateKnownJob conf cycle timeNow state jinfo = .ok state') :
    ∃ isFound, SearchedPlan cycle timeNow jinfo state.plan.flatten state'.plan.flatten isFound := by
  unfold updateKnownJob at h
  obtain ⟨rebound, hrebound, h⟩ := bind_ok.mp h
  refine ⟨rebound.isSome, ?_⟩
  rw [← pure_ok.mp h]
  exact rebindInPlan_searched state.plan hrebound

/-- The job points into the snapshot of the given cycle. -/
def KnownJob.Current (cycle : ℕ) (jobs : List JobInfo) (known : KnownJob) : Prop :=
  known.cycle = cycle ∧ known.job.jinfo ∈ jobs

/-- A job that is bound to a reported job keeps its number and what it was made for. -/
theorem KnownJob.rebind_spec {cycle : ℕ} {timeNow : ℤ} {jinfo : JobInfo} {known known' : KnownJob}
    (h : known.rebind cycle timeNow jinfo = .ok known') :
    known'.job.jobId = known.job.jobId ∧ known'.createdFor = known.createdFor ∧
      known'.cycle = cycle ∧ known'.job.jinfo = jinfo := by
  unfold KnownJob.rebind at h
  obtain ⟨mem, -, h⟩ := bind_ok.mp h
  rw [← pure_ok.mp h]
  exact ⟨rfl, rfl, rfl, rfl⟩

/-- The numbers of the jobs of the plan are different. -/
def NumbersOnce (jobs : List KnownJob) : Prop := (jobs.map (fun k => k.job.jobId)).Nodup

/-- The search brings in no number. -/
theorem NumbersOnce.searched {cycle : ℕ} {timeNow : ℤ} {jinfo : JobInfo}
    {jobs jobs' : List KnownJob} {isFound : Bool} (hinv : NumbersOnce jobs)
    (h : SearchedPlan cycle timeNow jinfo jobs jobs' isFound) : NumbersOnce jobs' := by
  cases h with
  | missing _ => exact hinv
  | found before after known rest hsplit hbefore hnumber hrest =>
      unfold NumbersOnce at hinv ⊢
      rw [hsplit, List.map_append, List.map_cons] at hinv
      rw [List.append_assoc, List.map_append, List.map_append]
      rcases hrest with rfl | ⟨known', hrebind, rfl⟩
      · exact hinv.sublist (List.Sublist.append_left (List.sublist_cons_self _ _) _)
      · rw [List.map_singleton, (KnownJob.rebind_spec hrebind).1]
        exact hinv

/-- What does not point into the snapshot yet is reported later in it. -/
def StaleReported (cycle : ℕ) (all : List JobInfo) (jobs : List KnownJob) (todo : List JobInfo) :
    Prop :=
  ∀ known ∈ jobs, ¬ known.Current cycle all → known.job.jobId ∈ todo.map JobInfo.number

/-- One pass of `plan_known_jobs_update`. -/
theorem StaleReported.searched {cycle : ℕ} {timeNow : ℤ} {all todo : List JobInfo}
    {jinfo : JobInfo} {jobs jobs' : List KnownJob} {isFound : Bool} (hjinfo : jinfo ∈ all)
    (honce : NumbersOnce jobs) (h : StaleReported cycle all jobs (jinfo :: todo))
    (hsearch : SearchedPlan cycle timeNow jinfo jobs jobs' isFound) :
    StaleReported cycle all jobs' todo := by
  -- a job of another number waits for a job that is still to come
  have hother : ∀ k ∈ jobs, k.job.jobId ≠ jinfo.number → ¬ k.Current cycle all →
      k.job.jobId ∈ todo.map JobInfo.number := by
    intro k hk hne hstale
    have hmem := h k hk hstale
    rw [List.map_cons] at hmem
    exact (List.mem_cons.mp hmem).resolve_left hne
  cases hsearch with
  | missing hnone =>
      intro k hk
      exact hother k hk (hnone k hk)
  | found before after known rest hsplit hbefore hnumber hrest =>
      unfold NumbersOnce at honce
      rw [hsplit, List.map_append, List.map_cons, List.nodup_middle, List.nodup_cons,
        ← List.map_append] at honce
      have hne : ∀ k ∈ before ++ after, k.job.jobId ≠ jinfo.number := by
        intro k hk heq
        exact honce.1 (List.mem_map.mpr ⟨k, hk, heq.trans hnumber.symm⟩)
      intro k hk hstale
      rcases List.mem_append.mp hk with hk | hk
      · rcases List.mem_append.mp hk with hk | hk
        · exact hother k (by simp [hsplit, hk]) (hne k (by simp [hk])) hstale
        · rcases hrest with rfl | ⟨known', hrebind, rfl⟩
          · cases hk
          · obtain ⟨-, -, hcycle, hjob⟩ := KnownJob.rebind_spec hrebind
            rw [List.mem_singleton.mp hk] at hstale
            exact absurd ⟨hcycle, hjob ▸ hjinfo⟩ hstale
      · exact hother k (by simp [hsplit, hk]) (hne k (by simp [hk])) hstale

/-- After `plan_known_jobs_update` every job of the plan points into the snapshot, if
every one was reported. -/
theorem planKnownJobsUpdate_current {conf : JobsConf} {cycle : ℕ} {timeNow : ℤ}
    {all : List JobInfo} (todo : List JobInfo) :
    ∀ {state state' : KnownState}, (∀ jinfo ∈ todo, jinfo ∈ all) →
      NumbersOnce state.plan.flatten → StaleReported cycle all state.plan.flatten todo →
      todo.foldlM (updateKnownJob conf cycle timeNow) state = .ok state' →
      ∀ known ∈ state'.plan.flatten, known.Current cycle all := by
  induction todo with
  | nil =>
      intro state state' _ _ hstale h
      rw [List.foldlM_nil] at h
      rw [← pure_ok.mp h]
      intro known hknown
      by_contra hnot
      cases hstale known hknown hnot
  | cons jinfo todo ih =>
      intro state state' hall honce hstale h
      rw [List.foldlM_cons] at h
      obtain ⟨next, hnext, h⟩ := bind_ok.mp h
      obtain ⟨isFound, hsearch⟩ := updateKnownJob_searched hnext
      refine ih (fun j hj => hall j (List.mem_cons_of_mem _ hj)) (honce.searched hsearch) ?_ h
      exact hstale.searched (hall jinfo List.mem_cons_self) honce hsearch

/-! ## Runs of the scheduler -/

/-- A server snapshot. -/
structure ServerReport where
  nodes : List NodeReport
  jobs : List JobInfo

/-- What lives on between the cycles: the clusters and the job list of each. -/
structure PlanState where
  clusters : List KnownCluster
  plan : List (List KnownJob)

/-- A new cluster comes with an empty job list. -/
def growPlan (plan : List (List KnownJob)) (numClusters : ℕ) : List (List KnownJob) :=
  plan ++ List.replicate (numClusters - plan.length) []

/-- The state after `plan_update_clusters` and `plan_known_jobs_update`.  The order of
jobs that `compare_fairshare` does not tell apart is left open. -/
def Updated (conf : JobsConf) (cycle : ℕ) (timeNow : ℤ) (report : ServerReport)
    (s u : PlanState) : Prop :=
  u.clusters = planUpdateClusters cycle report.nodes s.clusters ∧
    ∃ (sorted : List JobInfo) (state : KnownState), sorted.Perm report.jobs ∧
      planKnownJobsUpdate conf cycle timeNow sorted (growPlan s.plan u.clusters.length)
        = .ok state ∧ u.plan = state.plan

/-- What the rest of a cycle can do: jobs are planned, moved, removed, and added for
reported jobs; pointers do not change. -/
def RestOfCycle (cycle : ℕ) (report : ServerReport) (u s : PlanState) : Prop :=
  s.clusters = u.clusters ∧ ∀ known ∈ s.plan.flatten,
    (∃ old ∈ u.plan.flatten, known.cycle = old.cycle ∧ known.job.jinfo = old.job.jinfo ∧
      known.createdFor = old.createdFor) ∨
    (known.Current cycle report.jobs ∧ known.createdFor = known.job.jinfo.jobId)

/-- The states at the end of a cycle, before whose snapshots `P` held. -/
inductive CyclesTo (conf : JobsConf) (P : PlanState → ServerReport → Prop) :
    List ServerReport → PlanState → Prop
  | start : CyclesTo conf P [] ⟨[], []⟩
  | cycle {past : List ServerReport} {s u s' : PlanState} (report : ServerReport) (timeNow : ℤ)
      (hrun : CyclesTo conf P past s) (hmeets : P s report)
      (hupdate : Updated conf past.length timeNow report s u)
      (hrest : RestOfCycle past.length report u s') : CyclesTo conf P (past ++ [report]) s'

/-- All pointers of the state are those of the snapshot. -/
structure PointsInto (cycle : ℕ) (report : ServerReport) (u : PlanState) : Prop where
  nodes : ∀ cl ∈ u.clusters, ∀ e ∈ cl.entries, e.Current cycle report.nodes
  jobs : ∀ known ∈ u.plan.flatten, known.Current cycle report.jobs

/-- What a snapshot has to report: every node of the clusters, so that it is found where
it is, and every job of the plan; and no two jobs of the plan have the same number. -/
structure ReportsPlan (s : PlanState) (report : ServerReport) : Prop where
  distinct : (report.nodes.map NodeReport.name).Nodup
  refreshed : Refreshed s.clusters report.nodes
  numbers : NumbersOnce s.plan.flatten
  reported : ∀ known ∈ s.plan.flatten, known.job.jobId ∈ report.jobs.map JobInfo.number

/-- Node names occur once in each cluster, in all states of a run. -/
theorem CyclesTo.namesOnce {conf : JobsConf} {past : List ServerReport} {s : PlanState}
    (hrun : CyclesTo conf ReportsPlan past s) : NamesOnce s.clusters := by
  induction hrun with
  | start => simp [NamesOnce]
  | cycle report timeNow _ hmeets hupdate hrest ih =>
      rw [hrest.1, hupdate.1]
      exact (planUpdateClusters_current _ ih hmeets.distinct hmeets.refreshed).1

/-- In every run whose snapshots report the plan, all pointers are those of the current
snapshot after the two updates at the start of a cycle. -/
theorem plan_points_into_report {conf : JobsConf} {past : List ServerReport} {s u : PlanState}
    (hrun : CyclesTo conf ReportsPlan past s) {report : ServerReport} {timeNow : ℤ}
    (hmeets : ReportsPlan s report) (hupdate : Updated conf past.length timeNow report s u) :
    PointsInto past.length report u := by
  obtain ⟨hclusters, sorted, state, hperm, hjobs, hplan⟩ := hupdate
  have hflat : (growPlan s.plan u.clusters.length).flatten = s.plan.flatten := by
    unfold growPlan
    rw [List.flatten_append, List.flatten_replicate_nil, List.append_nil]
  refine ⟨?_, ?_⟩
  · rw [hclusters]
    exact (planUpdateClusters_current _ hrun.namesOnce hmeets.distinct hmeets.refreshed).2
  · rw [hplan]
    refine planKnownJobsUpdate_current sorted (fun jinfo hjinfo => hperm.mem_iff.mp hjinfo)
      ?_ ?_ hjobs
    · rw [hflat]
      exact hmeets.numbers
    · intro known hknown _
      rw [hflat] at hknown
      rw [(hperm.map JobInfo.number).mem_iff]
      exact hmeets.reported known hknown

/-! ## A job over two cycles -/

/-- A queued job with the given id. -/
def reportedJob (jobId : String) : JobInfo :=
  { (default : JobInfo) with
    jobId := jobId
    state := .queued
    resreq := [⟨"procs", 1⟩, ⟨"nodect", 1⟩, ⟨"mem", 4⟩, ⟨"walltime", 600⟩] }

/-- The job of the plan made for a reported job in the given cycle. -/
def KnownJob.madeFor (cycle : ℕ) (jinfo : JobInfo) : KnownJob where
  job := PlanJob.filled 1 jinfo 1 1 Nat.one_pos 4 600 0 (-1)
  createdFor := jinfo.jobId
  cycle := cycle
  jobId_eq := rfl

/-- One node and the given jobs. -/
def oneNodeReport (jobs : List JobInfo) : ServerReport where
  nodes := [plainReport "zubat1" 1 "zubat" ∅]
  jobs := jobs

/-- The cluster of the node. -/
def oneNodeCluster (cycle : ℕ) : KnownCluster where
  clusterName := "zubat"
  clusterProperties := ∅
  entries := [⟨"zubat1", cycle, plainReport "zubat1" 1 "zubat" ∅⟩]
  numCpus := 1
  numRunningCpus := 1
  availableRam := 8
  sinfo := cycle

/-- The server and limit of these runs. -/
def smallConf : JobsConf := ⟨"meta", 10⟩

/-- The job is planned in the first cycle. -/
theorem cyclesTo_oneJob (P : PlanState → ServerReport → Prop)
    (hmeets : P ⟨[], []⟩ (oneNodeReport [reportedJob "7.meta"])) :
    CyclesTo smallConf P [oneNodeReport [reportedJob "7.meta"]]
      ⟨[oneNodeCluster 0], [[KnownJob.madeFor 0 (reportedJob "7.meta")]]⟩ := by
  refine CyclesTo.cycle (u := ⟨[oneNodeCluster 0], [[]]⟩) _ 1000 CyclesTo.start hmeets ?_ ?_
  · exact ⟨rfl, _, _, List.Perm.refl _, rfl, rfl⟩
  · refine ⟨rfl, ?_⟩
    intro known hknown
    rw [List.flatten_singleton, List.mem_singleton] at hknown
    rw [hknown]
    exact Or.inr ⟨⟨rfl, List.mem_singleton.mpr rfl⟩, rfl⟩

/-- The job is reported in the second cycle, too. -/
theorem plan_points_into_report_two :
    ∃ u, Updated smallConf 1 1100 (oneNodeReport [reportedJob "7.meta"])
        ⟨[oneNodeCluster 0], [[KnownJob.madeFor 0 (reportedJob "7.meta")]]⟩ u ∧
      u.plan.flatten.length = 1 ∧ PointsInto 1 (oneNodeReport [reportedJob "7.meta"]) u := by
  have hfirst : ReportsPlan ⟨[], []⟩ (oneNodeReport [reportedJob "7.meta"]) :=
    ⟨by decide +kernel, by simp [Refreshed], List.nodup_nil, by simp⟩
  have hsecond : ReportsPlan ⟨[oneNodeCluster 0], [[KnownJob.madeFor 0 (reportedJob "7.meta")]]⟩
      (oneNodeReport [reportedJob "7.meta"]) := by
    refine ⟨by decide +kernel, ?_, List.nodup_singleton _, ?_⟩
    · intro i cl hcl e he
      obtain ⟨rfl, rfl⟩ : i = 0 ∧ oneNodeCluster 0 = cl := by
        rcases i with _ | i
        · exact ⟨rfl, by simpa using hcl⟩
        · simp at hcl
      rw [List.mem_singleton.mp he]
      exact ⟨_, List.mem_singleton.mpr rfl, rfl, rfl, by simp⟩
    · intro known hknown
      rw [List.flatten_singleton, List.mem_singleton] at hknown
      rw [hknown]
      exact List.mem_singleton.mpr rfl
  obtain ⟨state, hstate, hlength⟩ : ∃ state, planKnownJobsUpdate smallConf 1 1100
      [reportedJob "7.meta"] (growPlan [[KnownJob.madeFor 0 (reportedJob "7.meta")]] 1)
        = .ok state ∧
      state.plan.flatten.length = 1 := ⟨_, rfl, rfl⟩
  have hupdate : Updated smallConf 1 1100 (oneNodeReport [reportedJob "7.meta"])
      ⟨[oneNodeCluster 0], [[KnownJob.madeFor 0 (reportedJob "7.meta")]]⟩
      ⟨[oneNodeCluster 1], state.plan⟩ := ⟨rfl, _, state, List.Perm.refl _, hstate, rfl⟩
  exact ⟨_, hupdate, hlength, plan_points_into_report (cyclesTo_oneJob _ hfirst) hsecond hupdate⟩

/-- A job that is not reported any more keeps its pointer into the snapshot before. -/
theorem plan_keeps_old_pointer :
    ∃ s u, CyclesTo smallConf (fun _ _ => True) [oneNodeReport [reportedJob "7.meta"]] s ∧
      Updated smallConf 1 1100 (oneNodeReport []) s u ∧ ¬ PointsInto 1 (oneNodeReport []) u := by
  refine ⟨_, ⟨[oneNodeCluster 1], [[KnownJob.madeFor 0 (reportedJob "7.meta")]]⟩,
    cyclesTo_oneJob _ trivial, ⟨rfl, _, _, List.Perm.refl _, rfl, rfl⟩, ?_⟩
  intro hpoints
  have hcurrent := hpoints.jobs _ (List.mem_singleton.mpr rfl)
  cases hcurrent.1

end PlanSched
