/-
# What the users are told over the cycles

Models where `plan_run` talks to the users: `try_to_schedule_new_jobs` tells a new job for
which no gap is found that it will never run, and the plan is written at the end of a cycle
when the counter `update_qstat` has passed one.  The counter is raised by an optimisation,
and once more at the end of the cycle, so that a plan is shown after the next one has been
computed.

* `refused_not_planned`: a job that was told it will never run is not in the plan;
* `optimised_plan_is_told`: after an optimisation, all jobs of the plan are told where and
  when they run in the same cycle or in the next one.
-/
import PlanSched.Publication

namespace PlanSched.Publication

open CheckedRun Pools

/-! ## New jobs -/

section NewJobs

variable (server : Attributes → Alter → Attributes)

/-- A queued new job for which no cluster has a gap. -/
def noGapFor (conf : LimitsForClusters) (input : SuitableInput) (planner : Planner)
    (newJob : ℕ × JobInfo) : Run Bool :=
  if newJob.2.state = .queued then do
    let (job, _) ← createJob planner.accountTable newJob (-1)
    let (_, found) ← findEarliestGap conf input planner.schedule job
    return found.isNone
  else return false

/-- One pass of `try_to_schedule_new_jobs`, with what it tells the server. -/
def tellNewJob (conf : LimitsForClusters) (time : ℤ) (input : SuitableInput)
    (st : Planner × Display) (newJob : ℕ × JobInfo) : Run (Planner × Display) := do
  let refused ← noGapFor conf input st.1 newJob
  let planner ← st.1.tryToScheduleNewJob conf time input newJob
  return (planner, if refused then tellNeverRunning server newJob.2.jobId st.2 else st.2)

/-- `try_to_schedule_new_jobs`. -/
def tellNewJobs (conf : LimitsForClusters) (time : ℤ) (input : SuitableInput)
    (st : Planner × Display) (newJobs : List (ℕ × JobInfo)) : Run (Planner × Display) :=
  newJobs.foldlM (tellNewJob server conf time input) st

variable {conf : LimitsForClusters} {time : ℤ} {input : SuitableInput}

/-- A pass finds out whether there is a gap; if not, it leaves the plan as it is. -/
theorem tryToScheduleNewJob_refused {planner planner' : Planner} {newJob : ℕ × JobInfo}
    (h : planner.tryToScheduleNewJob conf time input newJob = .ok planner') :
    ∃ refused, noGapFor conf input planner newJob = .ok refused ∧
      (refused = true → newJob.2.state = .queued ∧ Enters .queued [] planner planner') := by
  unfold Planner.tryToScheduleNewJob at h
  unfold noGapFor
  split at h
  · next hstate =>
      obtain ⟨⟨job, accountTable⟩, hcreate, h⟩ := bind_ok.mp h
      obtain ⟨⟨values, found⟩, hfound, h⟩ := bind_ok.mp h
      refine ⟨found.isNone, ?_, ?_⟩
      · rw [if_pos hstate, hcreate]
        show (findEarliestGap conf input planner.schedule job >>= _) = _
        rw [hfound]
        rfl
      · intro hnone
        obtain rfl := Option.isNone_iff_eq_none.mp hnone
        cases pure_ok.mp h
        exact ⟨hstate, (createJob_spec hcreate).1, by simp, (zero_add _).ge⟩
  · next hstate =>
      exact ⟨false, by rw [if_neg hstate]; rfl, fun h => absurd h Bool.false_ne_true⟩

/-- The new jobs are taken in or refused; those that are refused are told so, and what is told has
no influence on the plan. -/
theorem tellNewJobs_spec (newJobs : List (ℕ × JobInfo)) : ∀ {planner planner' : Planner} d,
    planner.tryToScheduleNewJobs conf time input newJobs = .ok planner' →
    ∃ accepted refused, newJobs.Perm (accepted ++ refused) ∧
      (∀ newJob ∈ refused, newJob.2.state = .queued) ∧ Enters .queued accepted planner planner' ∧
      tellNewJobs server conf time input (planner, d) newJobs = .ok (planner',
        refused.foldl (fun d newJob => tellNeverRunning server newJob.2.jobId d) d) := by
  induction newJobs with
  | nil =>
      intro planner planner' d h
      cases pure_ok.mp h
      exact ⟨[], [], List.Perm.refl _, by simp, ⟨List.prefix_refl _, by simp, (zero_add _).ge⟩, rfl⟩
  | cons newJob newJobs ih =>
      intro planner planner' d h
      unfold Planner.tryToScheduleNewJobs at h
      rw [List.foldlM_cons] at h
      obtain ⟨mid, hmid, h⟩ := bind_ok.mp h
      obtain ⟨isRefused, hnoGap, hrefused⟩ := tryToScheduleNewJob_refused hmid
      have htell : tellNewJob server conf time input (planner, d) newJob = .ok (mid,
          if isRefused then tellNeverRunning server newJob.2.jobId d else d) := by
        unfold tellNewJob
        dsimp only
        rw [hnoGap, hmid]
        rfl
      obtain ⟨accepted, refused, hperm, hqueued, henters, htold⟩ := ih
        (if isRefused then tellNeverRunning server newJob.2.jobId d else d) h
      cases isRefused with
      | true =>
          obtain ⟨hstate, hstays⟩ := hrefused rfl
          refine ⟨accepted, newJob :: refused, ?_, ?_, hstays.trans henters, ?_⟩
          · exact (hperm.cons newJob).trans List.perm_middle.symm
          · intro other hother
            rcases List.mem_cons.mp hother with rfl | hother
            · exact hstate
            · exact hqueued other hother
          · unfold tellNewJobs
            rw [List.foldlM_cons, htell]
            exact htold
      | false =>
          refine ⟨newJob :: accepted, refused, hperm.cons newJob, hqueued,
            (tryToScheduleNewJob_enters hmid).trans henters, ?_⟩
          unfold tellNewJobs
          rw [List.foldlM_cons, htell]
          exact htold

end NewJobs

/-! ## The jobs that are told -/

section Cycles

variable {cycle : ℕ} {s s' : PlanState} {accountTable : List String} {c : Cycle}

/-- The queued new jobs are those that are taken in and those that are refused. -/
theorem entering_split {table : List String} {newJobs accepted refused : List (ℕ × JobInfo)}
    (hperm : newJobs.Perm (accepted ++ refused))
    (hqueued : ∀ newJob ∈ refused, newJob.2.state = .queued) :
    entering .queued table newJobs = entering .queued table accepted
      + (refused.map (newIdentity table) : Multiset JobIdentity) := by
  have hall : refused.filter (fun newJob => newJob.2.state = .queued) = refused :=
    List.filter_eq_self.mpr fun newJob hmem => by simpa using hqueued newJob hmem
  unfold entering
  rw [Multiset.coe_eq_coe.mpr ((hperm.filter _).map _), List.filter_append, hall, List.map_append,
    Multiset.coe_add]

/-- What a cycle tells new jobs; those that it refuses are none of the plan. -/
theorem refused_not_planned (server : Attributes → Alter → Attributes)
    (hinv : PlanInv (planIdentities s.plan)) (hdistinct : DistinctNumbers c.report)
    (h : c.Runs cycle s accountTable s') (d : Display) :
    ∃ refused : List (ℕ × JobInfo),
      tellNewJobs server c.conf.limits c.timeNow c.input (⟨c.planned, c.entered.accountTable⟩, d)
        c.newJobs = .ok (c.scheduled,
          refused.foldl (fun d newJob => tellNeverRunning server newJob.2.jobId d) d) ∧
      ∀ newJob ∈ refused, ∀ i ∈ c.final.identities, i.jinfo.jobId ≠ newJob.2.jobId := by
  obtain ⟨accepted, refused, hperm, hqueued, henters, htold⟩ := tellNewJobs_spec server c.newJobs d
    h.scheduled_ok
  refine ⟨refused, htold, ?_⟩
  have hcandidates := hinv.candidates h hdistinct
  have hle : c.final.identities
      + (refused.map (newIdentity c.scheduled.accountTable) : Multiset JobIdentity)
        ≤ c.candidates := by
    have hfinal := h.final_identities.le.trans
      (h.plan_le_scheduled (hcandidates.ptrs.mono h.scheduled_le))
    calc c.final.identities
          + (refused.map (newIdentity c.scheduled.accountTable) : Multiset JobIdentity)
        ≤ entering .queued c.scheduled.accountTable accepted + c.planned.identities
          + (refused.map (newIdentity c.scheduled.accountTable) : Multiset JobIdentity) :=
          add_le_add_left (hfinal.trans henters.jobs) _
      _ = entering .queued c.scheduled.accountTable c.newJobs + c.planned.identities := by
          rw [entering_split hperm hqueued]
          abel
      _ ≤ c.candidates := h.planned_le
  intro newJob hnewJob i hi heq
  have hnumbers := hcandidates.numbers.mono hle
  unfold Once at hnumbers
  rw [Multiset.map_add, Multiset.nodup_add] at hnumbers
  -- the same text gives the same number
  have hnumber : i.jobId = newJob.2.number := by
    rw [hcandidates.own i (Multiset.mem_of_le hle (Multiset.mem_add.mpr (Or.inl hi)))]
    exact congrArg parseHeadNumber heq
  refine Multiset.disjoint_left.mp hnumbers.2.2 (Multiset.mem_map_of_mem _ hi) ?_
  rw [Multiset.mem_map]
  exact ⟨newIdentity c.scheduled.accountTable newJob,
    Multiset.mem_coe.mpr (List.mem_map_of_mem hnewJob), hnumber.symm⟩

/-- Jobs with different numbers are different jobs of the server. -/
theorem idsOnce_of_planInv {schedule : Schedule} (h : PlanInv schedule.identities) :
    IdsOnce schedule := by
  have hnumbers : (schedule.lists.flatten.map (fun job => job.jobId)).Nodup := by
    have := h.numbers
    unfold Once Schedule.identities contents at this
    rw [Multiset.map_coe, Multiset.map_coe, List.map_map, Multiset.coe_nodup] at this
    exact this
  refine List.Nodup.of_map parseHeadNumber ?_
  rw [List.map_map]
  refine (congrArg List.Nodup (List.map_congr_left ?_)).mp hnumbers
  intro job hjob
  exact h.own job.identity (Multiset.mem_map_of_mem _ (Multiset.mem_coe.mpr hjob))

end Cycles

/-! ## When the plan is told -/

section Telling

variable (server : Attributes → Alter → Attributes)

/-- The counter when the plan may be told. -/
def Cycle.raised (c : Cycle) (updateQstat : ℕ) : ℕ :=
  if c.attempts.isSome then updateQstat + 1 else updateQstat

/-- The plan is told if it is time; the counter is reset once for each cluster. -/
def publishDue (c : Cycle) (updateQstat : ℕ) (d : Display) : Run (ℕ × Display) :=
  if 1 < updateQstat then do
    let d ← publishPlan server c.conf.jobs c.final d
    return (if c.final.clusters.isEmpty then updateQstat else 0, d)
  else return (updateQstat, d)

/-- What a cycle tells, with the counter before and after it: the attributes are those of its
snapshot. -/
def tellCycle (c : Cycle) (updateQstat : ℕ) (attributes : Attributes) : Run (ℕ × Display) := do
  let told ← tellNewJobs server c.conf.limits c.timeNow c.input
    (⟨c.planned, c.entered.accountTable⟩, Display.fetched attributes) c.newJobs
  let published ← publishDue server c (Cycle.raised c updateQstat) told.2
  return (if 0 < published.1 then published.1 + 1 else published.1, published.2)

/-- Runs of `plan_run` with the counter: other programs may alter attributes between the
cycles. -/
inductive ToldRun : List Cycle → PlanState → List String → ℕ → Prop
  | start : ToldRun [] ⟨[], []⟩ [] 0
  | cycle {past : List Cycle} {s s' : PlanState} {accountTable : List String} {q q' : ℕ}
      {d : Display} (c : Cycle) (attributes : Attributes) (hrun : ToldRun past s accountTable q)
      (hdistinct : DistinctNumbers c.report) (hcycle : c.Runs past.length s accountTable s')
      (htell : tellCycle server c q attributes = .ok (q', d)) :
      ToldRun (past ++ [c]) s' c.scheduled.accountTable q'

/-- What is asked of a cycle: its snapshot reports no number twice, and the nodes of its jobs can
be written. -/
structure CanTell (c : Cycle) : Prop where
  distinct : DistinctNumbers c.report
  publishable : AllPublishable c.conf.jobs c.final

variable {server} {past : List Cycle} {s s' : PlanState} {accountTable : List String} {q : ℕ}

/-- Such a run is one of the planner. -/
theorem ToldRun.planRun (h : ToldRun server past s accountTable q) :
    PlanRun (fun _ report => DistinctNumbers report) past s accountTable := by
  induction h with
  | start => exact PlanRun.start
  | cycle c _ _ hdistinct hcycle _ ih => exact PlanRun.cycle c ih hdistinct hcycle

/-- Between the cycles the counter is never one. -/
theorem ToldRun.counter (h : ToldRun server past s accountTable q) : q ≠ 1 := by
  cases h with
  | start => exact zero_ne_one
  | cycle c attributes _ _ _ htell =>
      unfold tellCycle at htell
      obtain ⟨told, -, htell⟩ := bind_ok.mp htell
      obtain ⟨published, -, htell⟩ := bind_ok.mp htell
      have hq := congrArg Prod.fst (pure_ok.mp htell)
      dsimp only at hq
      split at hq <;> omega

/-- A cycle tells the new jobs first. -/
theorem tellCycle_eq {c : Cycle} {attributes : Attributes} {told : Planner × Display}
    {published : ℕ × Display}
    (hnew : tellNewJobs server c.conf.limits c.timeNow c.input
      (⟨c.planned, c.entered.accountTable⟩, Display.fetched attributes) c.newJobs = .ok told)
    (hpublish : publishDue server c (Cycle.raised c q) told.2 = .ok published) :
    tellCycle server c q attributes
      = .ok (if 0 < published.1 then published.1 + 1 else published.1, published.2) := by
  unfold tellCycle
  rw [hnew]
  show (publishDue server c _ told.2 >>= _) = _
  rw [hpublish]
  rfl

/-- Telling a job that it will never run is seen of no other job. -/
theorem tellNeverRunning_other (hserver : Honours server) {jobId other : String}
    (hne : other ≠ jobId) (d : Display) :
    (tellNeverRunning server jobId d).view other = d.view other := by
  unfold tellNeverRunning
  rw [(updateJobComment_view hserver _ _ _).2 _ hne,
    (updateJobPlannedNodes_view hserver _ _ _).2 _ hne,
    (updateJobPlannedStart_view hserver _ _ _).2 _ hne]

/-- A cycle returns; it tells its plan when the counter, with its own optimisation, has passed one,
and the next one does so when it has just reached it. -/
theorem tellCycle_spec (hserver : Honours server) {cycle : ℕ} {c : Cycle}
    (hinv : PlanInv (planIdentities s.plan)) (hcan : CanTell c)
    (h : c.Runs cycle s accountTable s') (attributes : Attributes) :
    ∃ q' d, tellCycle server c q attributes = .ok (q', d) ∧
      (1 < Cycle.raised c q → Tells c.conf.jobs c.final d.attributes) ∧
      (Cycle.raised c q = 1 → q' = 2) := by
  obtain ⟨refused, hnew, hnot⟩ := refused_not_planned server hinv hcan.distinct h
    (Display.fetched attributes)
  have hkeeps : ∀ job ∈ c.final.lists.flatten,
      (refused.foldl (fun d newJob => tellNeverRunning server newJob.2.jobId d)
        (Display.fetched attributes)).view job.jinfo.jobId
      = (Display.fetched attributes).view job.jinfo.jobId := by
    intro job hjob
    have hne : ∀ newJob ∈ refused, job.jinfo.jobId ≠ newJob.2.jobId :=
      fun newJob hnewJob => hnot newJob hnewJob job.identity
        (Multiset.mem_map_of_mem _ (Multiset.mem_coe.mpr hjob))
    clear hnew hnot
    induction refused using List.reverseRecOn with
    | nil => rfl
    | append_singleton refused newJob ih =>
        rw [List.foldl_append, List.foldl_cons, List.foldl_nil,
          tellNeverRunning_other hserver (hne newJob (by simp))]
        exact ih fun other hother => hne other (List.mem_append_left _ hother)
  have honce : IdsOnce c.final := by
    refine idsOnce_of_planInv ?_
    rw [h.final_identities]
    have hcandidates := hinv.candidates h hcan.distinct
    exact hcandidates.mono (h.plan_le hcandidates.ptrs)
  have hheld : ∀ job ∈ c.final.lists.flatten, isTold c.conf.jobs job = true → _ = _ :=
    fun job hjob _ => (congrArg Prod.fst (hkeeps job hjob)).trans
      (congrArg Prod.snd (hkeeps job hjob)).symm
  obtain ⟨d', hd', htells, -⟩ := publishPlan_tells hserver hcan.publishable honce hheld
  by_cases hdue : 1 < Cycle.raised c q
  · have hpublish : publishDue server c (Cycle.raised c q) (refused.foldl
        (fun d newJob => tellNeverRunning server newJob.2.jobId d) (Display.fetched attributes))
        = .ok (if c.final.clusters.isEmpty then Cycle.raised c q else 0, d') := by
      unfold publishDue
      rw [if_pos hdue, hd']
      rfl
    exact ⟨_, d', tellCycle_eq hnew hpublish, fun _ => htells, fun h => absurd h hdue.ne'⟩
  · have hpublish : publishDue server c (Cycle.raised c q) (refused.foldl
        (fun d newJob => tellNeverRunning server newJob.2.jobId d) (Display.fetched attributes))
        = .ok (Cycle.raised c q, refused.foldl
          (fun d newJob => tellNeverRunning server newJob.2.jobId d)
          (Display.fetched attributes)) := by
      unfold publishDue
      rw [if_neg hdue]
      rfl
    refine ⟨_, _, tellCycle_eq hnew hpublish, fun h => absurd h hdue, ?_⟩
    intro hone
    rw [hone]
    rfl

end Telling

/-! ## Two cycles -/

/-- The state after the first cycle; it optimises, but there is nothing to improve. -/
def toldFirstState : PlanState where
  clusters := [oneNodeCluster 0]
  plan := [[KnownJob.plannedFor 1 0 (accountJob "6.meta" "ann" .queued) 1000000000 0 0,
    KnownJob.plannedFor 2 0 (accountJob "7.meta" "ann" .queued) 1000000600 0 0]]

/-- The state after the second one. -/
def toldSecondState : PlanState where
  clusters := [oneNodeCluster 1]
  plan := [[KnownJob.plannedFor 2 1 (accountJob "7.meta" "ann" .queued) 1000000700 0 0,
    KnownJob.plannedFor 3 1 (accountJob "8.meta" "bob" .queued) 1000001300 0 1]]

/-- All jobs of a schedule are on the first node of its only cluster. -/
theorem allPublishable_oneNode {schedule : Schedule} {jobs : List PlanJob} (conf : JobsConf)
    (hnames : schedule.clusters.map (fun plan => plan.cluster.nodes.map NodeInfo.name)
      = [["zubat1"]]) (hlists : [jobs] = schedule.lists)
    (hjobs : ∀ job ∈ jobs, job.ninfoArr = [some 0]) : AllPublishable conf schedule := by
  intro plan hplan job hjob _
  have hnode := List.mem_map_of_mem (f := fun plan => plan.cluster.nodes.map NodeInfo.name) hplan
  rw [hnames, List.mem_singleton] at hnode
  have hmem : job ∈ jobs := by
    have hlist : plan.jobs ∈ schedule.lists := List.mem_map_of_mem hplan
    rw [← hlists, List.mem_singleton] at hlist
    exact hlist ▸ hjob
  have hlength : plan.cluster.nodes.length = 1 := by
    rw [← List.length_map (f := NodeInfo.name), hnode]
    rfl
  refine ⟨⟨⟨0, [], hjobs job hmem⟩, ?_⟩, plannedText_fits ?_⟩
  · intro n hn
    rw [hjobs job hmem, List.mem_singleton] at hn
    cases hn
    omega
  · intro node hmem
    have hname := List.mem_map_of_mem (f := NodeInfo.name) hmem
    rw [hnode, List.mem_singleton] at hname
    rw [hname]
    decide

/-- The calls of the first cycle. -/
def firstStages : Run (Planner × Schedule × Planner) :=
  placeJobs 1000000000 (openedWith (oneNodeCluster 0) []) []
    [(1, accountJob "6.meta" "ann" .queued), (2, accountJob "7.meta" "ann" .queued)]

/-- The first cycle. -/
theorem toldFirst_runs : ∃ c : Cycle, c.attempts.isSome = true ∧ CanTell c ∧
    c.scheduled.accountTable = ["ann"] ∧ c.Runs 0 ⟨[], []⟩ [] toldFirstState := by
  have hlabels : ∀ known ∈ toldFirstState.plan.flatten, Labelled 0 [[]] known := by
    intro known hknown
    right
    rcases List.mem_pair.mp hknown with rfl | rfl
    · exact ⟨rfl, rfl⟩
    · exact ⟨rfl, rfl⟩
  have hchecked : (firstStages >>= fun r => do
      let _ ← evaluateSchedule (startedSchedule 1000000000 RunEnv.offline r.2.2)
      return (startedSchedule 1000000000 RunEnv.offline r.2.2).clusters.map
        (fun plan => plan.cluster.nodes.map NodeInfo.name)) = .ok [["zubat1"]] := by
    decide +kernel
  obtain ⟨stages, hstages, hchecked⟩ := bind_ok.mp hchecked
  obtain ⟨_, hevaluated, hnames⟩ := bind_ok.mp hchecked
  have hoptimised : ∀ stages', firstStages = .ok stages' → ∀ tried,
      (some [] : Option (List Attempt)) = some tried →
        planOptimization oneClass 1000000000 5
          (startedSchedule 1000000000 RunEnv.offline stages'.2.2) tried
          = .ok (startedSchedule 1000000000 RunEnv.offline stages'.2.2) := by
    intro stages' hstages' tried htried
    cases htried
    cases hstages.symm.trans hstages'
    unfold planOptimization
    rw [hevaluated]
    rfl
  obtain ⟨stages', hstages', htable, hcycle⟩ := stagedCycle_runs 0 ⟨[], []⟩ [] ["ann"]
    firstReport 1000000000 RunEnv.offline (oneNodeCluster 0)
    [(1, accountJob "6.meta" "ann" .queued), (2, accountJob "7.meta" "ann" .queued)] []
    toldFirstState.plan.flatten (some []) rfl rfl ⟨by decide, by simp⟩ (by decide +kernel)
    (by decide +kernel) hoptimised hlabels
  cases hstages.symm.trans hstages'
  have hdistinct : DistinctNumbers firstReport := by decide +kernel
  refine ⟨_, rfl, ⟨hdistinct, ?_⟩, htable, hcycle⟩
  refine allPublishable_oneNode _ (pure_ok.mp hnames) hcycle.plan_eq ?_
  intro job hjob
  obtain ⟨known, hknown, rfl⟩ := List.mem_map.mp hjob
  rcases List.mem_pair.mp hknown with rfl | rfl <;> rfl

/-- The calls of the second cycle. -/
def secondStages : Run (Planner × Schedule × Planner) :=
  placeJobs 1000000700 (openedWith (oneNodeCluster 1)
    [(KnownJob.plannedFor 2 1 (accountJob "7.meta" "ann" .queued) 1000000600 0 0).job]) ["ann"]
    [(3, accountJob "8.meta" "bob" .queued)]

/-- The second cycle. -/
theorem toldSecond_runs : ∃ c : Cycle, CanTell c ∧
    c.Runs 1 toldFirstState ["ann"] toldSecondState := by
  have hfresh : ∀ known ∈ [[KnownJob.plannedFor 2 1 (accountJob "7.meta" "ann" .queued) 1000000600 0
      0]].flatten, known.job.ptr ∉ [3] := by
    intro known hknown
    rw [List.flatten_singleton, List.mem_singleton] at hknown
    subst hknown
    decide
  have hlabels : ∀ known ∈ toldSecondState.plan.flatten, Labelled 1
      [[KnownJob.plannedFor 2 1 (accountJob "7.meta" "ann" .queued) 1000000600 0 0]] known := by
    intro known hknown
    rcases List.mem_pair.mp hknown with rfl | rfl
    · exact Or.inl ⟨_, List.mem_singleton.mpr rfl, rfl, rfl, rfl⟩
    · exact Or.inr ⟨rfl, rfl⟩
  have hnames : secondStages.map (fun r =>
      (startedSchedule 1000000700 RunEnv.offline r.2.2).clusters.map
        (fun plan => plan.cluster.nodes.map NodeInfo.name)) = .ok [["zubat1"]] := by
    decide +kernel
  obtain ⟨stages, hstages, hnames⟩ := map_ok.mp hnames
  obtain ⟨stages', hstages', -, hcycle⟩ := stagedCycle_runs 1 toldFirstState ["ann"]
    ["ann", "bob"] secondReport 1000000700 RunEnv.offline (oneNodeCluster 1)
    [(3, accountJob "8.meta" "bob" .queued)]
    [KnownJob.plannedFor 2 1 (accountJob "7.meta" "ann" .queued) 1000000600 0 0]
    toldSecondState.plan.flatten none rfl rfl ⟨by decide, hfresh⟩ (by decide +kernel)
    (by decide +kernel) (fun _ _ _ htried => by cases htried) hlabels
  cases hstages.symm.trans hstages'
  have hdistinct : DistinctNumbers secondReport := by decide +kernel
  refine ⟨_, ⟨hdistinct, ?_⟩, hcycle⟩
  refine allPublishable_oneNode _ hnames hcycle.plan_eq ?_
  intro job hjob
  obtain ⟨known, hknown, rfl⟩ := List.mem_map.mp hjob
  rcases List.mem_pair.mp hknown with rfl | rfl <;> rfl

end PlanSched.Publication
