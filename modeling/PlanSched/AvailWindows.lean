/-
# Availability windows of nodes

A node may announce that it is available only before some time (`avail_before`).
`update_job` leaves out the slots of a node whose window closes before the
completion time of the job.  It tests the completion time of the previous plan, not
the one it is about to fix, so a planned job may outlast the window of its node
(`updateSched_outlasts_window`).

`updateSched_windows_iff` says when no job does.  When `update_job` comes to a job there
is a slot by which the nodes give all of its chunks (`EnoughUpTo`).  Every window must last
until the job ends that starts when that slot is free, unless the node is not ready for a
chunk by then.  The condition is exact where no slot short of available memory may start a
chunk (`RegularTurn`), since the job then starts with that slot, on all nodes that give a
chunk.
-/
import PlanSched.EarliestPlacement
import PlanSched.IdleTime

namespace PlanSched

open CheckedRun StepProfile

/-! ## The property and the condition -/

/-- The job ends before the windows of its nodes close. -/
def PlanJob.InWindows (nodes : List NodeInfo) (job : PlanJob) : Prop :=
  ∀ n, some n ∈ job.ninfoArr.take job.reqNumNodes → ∀ node, nodes[n]? = some node →
    node.availBefore ≠ 0 → job.completionTime ≤ node.availBefore

/-- No queued job that shares its nodes outlasts the window of a node it was given. -/
def WindowsRespected (nodes : List NodeInfo) (jobs : List PlanJob) : Prop :=
  ∀ job ∈ jobs, job.isQueued = true → job.jinfo.isExclusive = false → job.InWindows nodes

/-- The window of node `n` lasts for the job: the slots up to some `p` are enough for the job
and free by the time of `p`, and the node is not ready by `p`, or the job that starts then,
moved behind the limits in its way, ends before the window closes. -/
def LastsFor (conf : LimitsForClusters) (cluster : PlanCluster) (values : LimitsValues)
    (st : Planning) (job : PlanJob) (avail : List SlotAvailability) (n : ℕ) (node : NodeInfo) :
    Prop :=
  ∃ p, EnoughUpTo cluster st.slots job avail p ∧
    (∀ c, UsableBy st.slots avail p c → slotTime st.slots c ≤ slotTime st.slots p) ∧
    (ReadyBy cluster st.slots job avail p n →
      ∃ moved, adjustJobStarttimeAccordingToLimits conf cluster values st.limits
          (job.startAt (slotTime st.slots p)) = .ok moved ∧
        moved.completionTime ≤ node.availBefore)

/-- All windows last for the job that is planned in the state `st`. -/
def WindowsLast (conf : LimitsForClusters) (cluster : PlanCluster) (values : LimitsValues)
    (st : Planning) (job : PlanJob) : Prop :=
  ∀ avail, st.slots.mapM (slotAvailability cluster job (wipeFixedNodes job).2) = .ok avail →
    ∀ n node, cluster.nodes[n]? = some node → node.availBefore ≠ 0 →
      LastsFor conf cluster values st job avail n node

/-- They do whenever `update_sched` comes to a queued job that shares its nodes. -/
def TurnsLast (conf : LimitsForClusters) (time : ℤ) (values : LimitsValues) (plan : ClusterPlan) :
    Prop :=
  ∀ values' job rest st,
    updateLimitsValues conf { plan.cluster with numRunningCpus := runningCpus plan.cluster } values
      = .ok values' →
    Turn conf time values plan job rest st → job.afterMove.isQueued = true →
    job.afterMove.jinfo.isExclusive = false →
      WindowsLast conf { plan.cluster with numRunningCpus := runningCpus plan.cluster } values' st
        job.afterMove

/-- A job with a cell for each of its nodes that uses the CPUs of its chunks, where the times of
the slots are in the range of `int`, and no slot short of available memory may start a chunk. -/
structure RegularTurn (cluster : PlanCluster) (st : Planning) (job : PlanJob) : Prop where
  usage_eq : job.usage = job.reqPpn * job.reqNumNodes
  ninfo_length : job.ninfoArr.length = job.reqNumNodes
  fixed_length : job.fixedNnameArr.length = job.reqNumNodes
  times : TimesFit st.slots
  chunks : ∀ avail,
    st.slots.mapM (slotAvailability cluster job (wipeFixedNodes job).2) = .ok avail →
      ¬ MayStartShort cluster st.slots job (wipeFixedNodes job).2 avail

/-- Whether a run returns a value with a property, if it returns. -/
def decidableOfRun {α : Type} {P : α → Prop} [DecidablePred P] :
    (run : Run α) → Decidable (∀ a, run = .ok a → P a)
  | .ok a => decidable_of_iff (P a) ⟨fun h b hb => Except.ok.inj hb ▸ h, fun h => h a rfl⟩
  | .error _ => isTrue (fun _ h => by cases h)

instance (cluster : PlanCluster) (st : Planning) (job : PlanJob) :
    Decidable (RegularTurn cluster st job) :=
  have := decidableOfRun
    (P := fun avail => ¬ MayStartShort cluster st.slots job (wipeFixedNodes job).2 avail)
    (st.slots.mapM (slotAvailability cluster job (wipeFixedNodes job).2))
  decidable_of_iff (job.usage = job.reqPpn * job.reqNumNodes ∧
      job.ninfoArr.length = job.reqNumNodes ∧ job.fixedNnameArr.length = job.reqNumNodes ∧
      TimesFit st.slots ∧ ∀ avail, st.slots.mapM (slotAvailability cluster job
        (wipeFixedNodes job).2) = .ok avail →
          ¬ MayStartShort cluster st.slots job (wipeFixedNodes job).2 avail)
    ⟨fun ⟨h₁, h₂, h₃, h₄, h₅⟩ => ⟨h₁, h₂, h₃, h₄, h₅⟩,
      fun ⟨h₁, h₂, h₃, h₄, h₅⟩ => ⟨h₁, h₂, h₃, h₄, h₅⟩⟩

/-- The nodes have names of their own, and `update_sched` comes to such jobs only. -/
def RegularTurns (conf : LimitsForClusters) (time : ℤ) (values : LimitsValues)
    (plan : ClusterPlan) : Prop :=
  (plan.cluster.nodes.map NodeInfo.name).Nodup ∧ ∀ job rest st,
    Turn conf time values plan job rest st → job.afterMove.isQueued = true →
    job.afterMove.jinfo.isExclusive = false →
      RegularTurn { plan.cluster with numRunningCpus := runningCpus plan.cluster } st job.afterMove

/-! ## Jobs that start later stay later -/

/-- The jobs want the same CPUs for the same time, and the first starts no later. -/
structure PlanJob.StartsBy (job job' : PlanJob) : Prop where
  account_eq : job.accountId = job'.accountId
  cpus_eq : job.limitCpus = job'.limitCpus
  processing_eq : job.estimatedProcessing = job'.estimatedProcessing
  ends : job.completionTime = job.startTime + job.estimatedProcessing
  ends' : job'.completionTime = job'.startTime + job'.estimatedProcessing
  start_le : job.startTime ≤ job'.startTime

section limits

variable {values : LimitsValues} {foundLimit : ℕ} {limit : PlanLimit}
  {successor : Option PlanLimit} {j k j₁ k₁ : PlanJob}

/-- A job that starts no later ends no later. -/
theorem PlanJob.StartsBy.completion_le (h : j.StartsBy k) :
    j.completionTime ≤ k.completionTime := by
  have hstart := h.start_le
  rw [h.ends, h.ends', h.processing_eq]
  omega

/-- A snapshot has room for both or for none. -/
theorem PlanJob.StartsBy.overflows_iff (h : j.StartsBy k) :
    limit.Overflows values foundLimit j ↔ limit.Overflows values foundLimit k := by
  unfold PlanLimit.Overflows PlanLimit.ClassOverflows PlanLimit.AccountOverflows
  rw [h.account_eq, h.cpus_eq]

/-- One pass keeps the order. -/
theorem adjustToLimit_startsBy (h : j.StartsBy k)
    (hinc : ∀ next ∈ successor, limit.timestamp < next.timestamp)
    (hj : adjustToLimit values foundLimit limit successor j = .ok j₁)
    (hk : adjustToLimit values foundLimit limit successor k = .ok k₁) : j₁.StartsBy k₁ := by
  have hmoved : ∀ t t', t ≤ t' → (j.startAt t).StartsBy (k.startAt t') := fun t t' ht =>
    ⟨h.account_eq, h.cpus_eq, h.processing_eq, rfl, rfl, ht⟩
  have hlater : ∀ next ∈ successor, limit.concerns successor k → k.startTime < next.timestamp := by
    intro next hnext hconcerns
    rw [Option.mem_def] at hnext
    rw [hnext] at hconcerns
    exact PlanLimit.concerns_lt (hinc next hnext) hconcerns
  rcases adjustToLimit_moves hj with ⟨-, hstay⟩ | ⟨hconcerns, hover, next, hnext, hmove⟩
  · rw [hstay]
    rcases adjustToLimit_moves hk with ⟨-, hstay'⟩ | ⟨hconcerns', -, next', hnext', hmove'⟩
    · rw [hstay']
      exact h
    · rw [hmove']
      have hlt := hlater next' hnext' hconcerns'
      exact ⟨h.account_eq, h.cpus_eq, h.processing_eq, h.ends, rfl, h.start_le.trans hlt.le⟩
  · rw [hmove]
    rcases adjustToLimit_moves hk with ⟨hno, hstay'⟩ | ⟨-, -, next', hnext', hmove'⟩
    · rw [hstay']
      -- the snapshot is full for the later job too, which must start behind it
      have hfree : ¬ limit.concerns successor k := fun hboth =>
        hno ⟨hboth, h.overflows_iff.mp hover⟩
      have hstart := h.start_le
      have hend := h.completion_le
      have hbehind : next.timestamp ≤ k.startTime := by
        by_contra hbefore
        rw [not_le] at hbefore
        refine hfree ?_
        rcases le_or_gt limit.timestamp k.startTime with hle | hlt
        · exact Or.inl ⟨next, hnext, hle, hbefore⟩
        · refine Or.inr ⟨hlt, ?_⟩
          rcases hconcerns with ⟨-, -, hle, -⟩ | ⟨-, hruns⟩
          · omega
          · omega
      exact ⟨h.account_eq, h.cpus_eq, h.processing_eq, rfl, h.ends', hbehind⟩
    · rw [Option.mem_def] at hnext hnext'
      rw [hnext] at hnext'
      rw [hmove', Option.some.inj hnext']
      exact hmoved _ _ le_rfl

/-- The whole adjustment keeps the order. -/
theorem adjustToLimits_startsBy (limits : List PlanLimit) : ∀ {j k j₁ k₁ : PlanJob},
    j.StartsBy k → Increasing PlanLimit.timestamp limits →
      adjustToLimits values foundLimit limits j = .ok j₁ →
      adjustToLimits values foundLimit limits k = .ok k₁ → j₁.StartsBy k₁ := by
  induction limits with
  | nil =>
      intro j k j₁ k₁ h _ hj hk
      rw [adjustToLimits] at hj hk
      cases hj
      cases hk
      exact h
  | cons limit rest ih =>
      intro j k j₁ k₁ h hinc hj hk
      rw [adjustToLimits] at hj hk
      obtain ⟨j₂, hj₂, hj⟩ := bind_ok.mp hj
      obtain ⟨k₂, hk₂, hk⟩ := bind_ok.mp hk
      obtain ⟨hhead, htail⟩ := List.pairwise_cons.mp hinc
      refine ih (adjustToLimit_startsBy h ?_ hj₂ hk₂) htail hj hk
      intro next hnext
      exact hhead next (List.mem_of_mem_head? hnext)

/-- `adjust_job_starttime_according_to_limits` keeps the order. -/
theorem adjustJob_startsBy {conf : LimitsForClusters} {cluster : PlanCluster}
    {limits : List PlanLimit} (h : j.StartsBy k) (hinc : Increasing PlanLimit.timestamp limits)
    (hj : adjustJobStarttimeAccordingToLimits conf cluster values limits j = .ok j₁)
    (hk : adjustJobStarttimeAccordingToLimits conf cluster values limits k = .ok k₁) :
    j₁.StartsBy k₁ := by
  unfold adjustJobStarttimeAccordingToLimits at hj hk
  obtain ⟨c, hc, hj⟩ := bind_ok.mp hj
  obtain ⟨c', hc', hk⟩ := bind_ok.mp hk
  rw [← h.processing_eq, hc] at hc'
  cases hc'
  exact adjustToLimits_startsBy limits h hinc hj hk

/-- A change to a job that leaves its account, its CPUs and its times. -/
structure KeepsDemand (f : PlanJob → PlanJob) : Prop where
  accountId : ∀ job, (f job).accountId = job.accountId
  limitCpus : ∀ job, (f job).limitCpus = job.limitCpus
  processing : ∀ job, (f job).estimatedProcessing = job.estimatedProcessing
  startTime : ∀ job, (f job).startTime = job.startTime
  completionTime : ∀ job, (f job).completionTime = job.completionTime
  startAt : ∀ job t, (f job).startAt t = f (job.startAt t)

/-- One pass does not depend on what is changed. -/
theorem adjustToLimit_map {f : PlanJob → PlanJob} (hf : KeepsDemand f) (job : PlanJob) :
    adjustToLimit values foundLimit limit successor (f job)
      = f <$> adjustToLimit values foundLimit limit successor job := by
  have hconcerns : limit.concerns successor (f job) = limit.concerns successor job := by
    unfold PlanLimit.concerns
    rw [hf.startTime, hf.completionTime]
  have haccount : adjustToAccount values foundLimit limit successor (f job)
      = f <$> adjustToAccount values foundLimit limit successor job := by
    unfold adjustToAccount
    rw [hf.accountId, map_bind]
    refine congrArg _ (funext fun found => ?_)
    cases found with
    | none => rfl
    | some foundAccount =>
        simp only [hconcerns, hf.limitCpus, hf.startAt, apply_ite (Functor.map f), map_bind,
          map_pure]
  unfold adjustToLimit
  simp only [hconcerns, hf.limitCpus, hf.startAt, haccount, apply_ite (Functor.map f), map_bind,
    map_pure]

/-- Nor does the whole adjustment. -/
theorem adjustToLimits_map {f : PlanJob → PlanJob} (hf : KeepsDemand f) (limits : List PlanLimit) :
    ∀ job : PlanJob, adjustToLimits values foundLimit limits (f job)
      = f <$> adjustToLimits values foundLimit limits job := by
  induction limits with
  | nil =>
      intro job
      rfl
  | cons limit rest ih =>
      intro job
      rw [adjustToLimits, adjustToLimits, adjustToLimit_map hf, map_bind, bind_map_left]
      exact congrArg _ (funext ih)

/-- Nor does `adjust_job_starttime_according_to_limits`. -/
theorem adjustJob_map {conf : LimitsForClusters} {cluster : PlanCluster} {limits : List PlanLimit}
    {f : PlanJob → PlanJob} (hf : KeepsDemand f) (job : PlanJob) :
    adjustJobStarttimeAccordingToLimits conf cluster values limits (f job)
      = f <$> adjustJobStarttimeAccordingToLimits conf cluster values limits job := by
  unfold adjustJobStarttimeAccordingToLimits
  rw [hf.processing, map_bind]
  exact congrArg _ (funext fun foundLimit => adjustToLimits_map hf limits job)

end limits

/-! ## One call of `update_job` -/

section Step

variable {conf : LimitsForClusters} {cluster : PlanCluster} {values : LimitsValues}
  {st : Planning} {job placed : PlanJob} {slots : List FirstFreeSlot} {update : JobUpdate}

/-- The job with the places of another one. -/
def PlanJob.withPlaces (job places : PlanJob) : PlanJob :=
  { job with
    cpuIndexes := places.cpuIndexes
    ninfoArr := places.ninfoArr
    latestNcpuIndex := places.latestNcpuIndex
    fixedNnameArr := places.fixedNnameArr }

/-- Places do not matter for the limits. -/
theorem keepsDemand_withPlaces (places : PlanJob) :
    KeepsDemand (fun job => job.withPlaces places) :=
  ⟨fun _ => rfl, fun _ => rfl, fun _ => rfl, fun _ => rfl, fun _ => rfl, fun _ _ => rfl⟩

/-- But for its places, a placed job is the job that starts anew. -/
theorem placeShared_withPlaces (h : placeShared cluster job slots = .ok (some placed))
    (hlatest : job.reqNumNodes ≤ placed.latestNcpuIndex.length) :
    placed.withPlaces job = job.startAt placed.startTime := by
  have hends := (placeShared_placement h hlatest).completion
  obtain ⟨avail, sel, -, -, rfl⟩ := placeShared_ok h
  unfold PlanJob.withPlaces PlanJob.startAt
  rw [← hends]

/-- If all windows last for the job, it ends before those of its nodes close. -/
theorem updateSharedJob_inWindows (hlimits : LimitsInv st.limits)
    (h : updateSharedJob conf cluster values st.limits st.slots job = .ok (some update))
    (hlast : WindowsLast conf cluster values st job) : update.job.InWindows cluster.nodes := by
  obtain ⟨placed, hplaced, hlatest, hadjusted, hdelay, -, -⟩ :=
    updateSharedJob_parts hlimits.increasing h
  have hplacement := placeShared_placement hplaced hlatest
  have hsame : update.job.ninfoArr = placed.ninfoArr ∧
      update.job.reqNumNodes = job.reqNumNodes := by
    rw [← hplacement.reqNumNodes_eq]
    rcases hdelay with heq | ⟨t, -, heq⟩ <;> rw [heq] <;> exact ⟨rfl, rfl⟩
  obtain ⟨avail, sel, havail, -, hsel⟩ := placeShared_ok hplaced
  intro n hn node hnode hwindow
  rw [hsame.1, hsame.2] at hn
  obtain ⟨p, henough, htimes, hlasts⟩ := hlast avail havail n node hnode hwindow
  obtain ⟨hstart, hchunk⟩ := placeShared_bound havail hplaced hlatest henough htimes
  obtain ⟨moved, hmoved, hle⟩ := hlasts (hchunk n hn)
  have hby : placed.StartsBy (job.startAt (slotTime st.slots p)) := by
    refine ⟨?_, ?_, hplacement.estimatedProcessing_eq, hplacement.completion, rfl, hstart⟩
    · rw [hsel]
      rfl
    · rw [hsel]
      rfl
  exact (adjustJob_startsBy hby hlimits.increasing hadjusted hmoved).completion_le.trans hle

/-- Then a node that is ready for it gives a chunk. -/
theorem RegularTurn.givesChunkBy (h : RegularTurn cluster st job) {avail : List SlotAvailability}
    (havail : st.slots.mapM (slotAvailability cluster job (wipeFixedNodes job).2) = .ok avail)
    {p n : ℕ} (hready : ReadyBy cluster st.slots job avail p n) :
    GivesChunkBy st.slots job avail p n := by
  rcases hready with hgives | ⟨hmay | hnot, -⟩
  · exact hgives
  · exact absurd hmay (h.chunks avail havail)
  · exact absurd h.times hnot

/-- And conversely, if the job is regular. -/
theorem updateSharedJob_windowsLast (hlimits : LimitsInv st.limits)
    (hshared : job.jinfo.isExclusive = false) (hnames : (cluster.nodes.map NodeInfo.name).Nodup)
    (hregular : RegularTurn cluster st job)
    (h : updateSharedJob conf cluster values st.limits st.slots job = .ok (some update))
    (hin : update.job.InWindows cluster.nodes) : WindowsLast conf cluster values st job := by
  obtain ⟨placed, hplaced, hlatest, hadjusted, hdelay, -, -⟩ :=
    updateSharedJob_parts hlimits.increasing h
  have hsame : update.job.ninfoArr = placed.ninfoArr ∧
      update.job.reqNumNodes = job.reqNumNodes := by
    rw [← placeShared_reqNumNodes hplaced]
    rcases hdelay with heq | ⟨t, -, heq⟩ <;> rw [heq] <;> exact ⟨rfl, rfl⟩
  intro avail havail n node hnode hwindow
  obtain ⟨p, henough, hstart, hnodes⟩ := placeShared_exact hshared hregular.usage_eq
    hregular.ninfo_length hregular.fixed_length hnames hregular.times havail
    (not_startsShort_of_not_may hregular.usage_eq havail hregular.times
      (hregular.chunks avail havail)) hplaced
  refine ⟨p, Or.inl henough, fun c hc => hc.1.slotTime_le hregular.times, ?_⟩
  intro hready
  have hgives := hregular.givesChunkBy havail hready
  have hle := hin n (by rw [hsame.1, hsame.2]; exact hnodes n hgives) node hnode hwindow
  refine ⟨update.job.withPlaces job, ?_, hle⟩
  have hmap : adjustJobStarttimeAccordingToLimits conf cluster values st.limits
      (placed.withPlaces job) = (fun j => j.withPlaces job) <$>
        adjustJobStarttimeAccordingToLimits conf cluster values st.limits placed :=
    adjustJob_map (keepsDemand_withPlaces job) placed
  rw [hadjusted] at hmap
  rw [hstart, ← placeShared_withPlaces hplaced hlatest]
  exact hmap

end Step

/-! ## A run of the second loop -/

section Runs

variable {conf : LimitsForClusters} {cluster : PlanCluster} {values : LimitsValues}

/-- The jobs planned so far stay in the list. -/
theorem planJobs_done (jobs : List PlanJob) : ∀ {st st' : Planning},
    planJobs conf cluster values jobs st = .ok (.complete st') → st.done ⊆ st'.done := by
  induction jobs with
  | nil =>
      intro st st' h
      rw [planJobs] at h
      cases h
      exact List.Subset.refl _
  | cons job rest ih =>
      intro st st' h
      rw [planJobs] at h
      obtain ⟨next, hnext, h⟩ := bind_ok.mp h
      cases next with
      | none => cases pure_ok.mp h
      | some st₁ =>
          refine List.Subset.trans ?_ (ih h)
          rcases planJob_cases hnext with ⟨-, update, hplan⟩ | ⟨-, hpass⟩
          · rw [hplan.done_eq]
            exact List.subset_append_left _ _
          · rw [hpass.done_eq]
            exact List.subset_append_left _ _

/-- When a complete loop comes to a queued job, it is planned and stays in the list. -/
theorem ComesTo.planned {jobs rest : List PlanJob} {job : PlanJob} {st s st' : Planning}
    (hcomes : ComesTo conf cluster values jobs st job rest s)
    (h : planJobs conf cluster values jobs st = .ok (.complete st'))
    (hqueued : job.afterMove.isQueued = true) :
    ∃ update s', Planned conf cluster values rest s job.afterMove update s' ∧
      update.job ∈ st'.done := by
  induction hcomes with
  | here job rest st =>
      rw [planJobs] at h
      obtain ⟨next, hnext, h⟩ := bind_ok.mp h
      cases next with
      | none => cases pure_ok.mp h
      | some st₁ =>
          rcases planJob_cases hnext with ⟨-, update, hplan⟩ | ⟨hnot, -⟩
          · refine ⟨update, st₁, hplan, planJobs_done rest h ?_⟩
            rw [hplan.done_eq]
            exact List.mem_append_right _ (List.mem_singleton_self _)
          · rw [hqueued] at hnot
            cases hnot
  | behind hfirst _ ih =>
      rw [planJobs, hfirst] at h
      exact ih h hqueued

/-- The limits are in order whenever the loop comes to a job. -/
theorem ComesTo.limits {jobs rest : List PlanJob} {job : PlanJob} {st st' : Planning}
    (h : ComesTo conf cluster values jobs st job rest st') (hlimits : LimitsInv st.limits) :
    LimitsInv st'.limits := by
  refine @ComesTo.invariant _ _ _ (fun s => LimitsInv s.limits) ?_ ?_ _ _ _ _ _ h hlimits
  · intro rest s job update s' hinv hplan
    exact addJobToLimits_inv hinv hplan.limits_ok
  · intro s job s' hinv hpass
    rcases hpass.limits_ok with heq | hadd
    · rw [heq]
      exact hinv
    · exact addJobToLimits_inv hinv hadd

/-- Planning a job for which all windows last keeps the windows respected. -/
theorem Planned.windowsRespected {rest : List PlanJob} {st st' : Planning} {job : PlanJob}
    {update : JobUpdate} (h : Planned conf cluster values rest st job update st')
    (hlimits : LimitsInv st.limits) (hwindows : WindowsRespected cluster.nodes st.done)
    (hlast : job.jinfo.isExclusive = false → WindowsLast conf cluster values st job) :
    WindowsRespected cluster.nodes st'.done := by
  obtain ⟨table, hplaced⟩ := updateJob_placed hlimits h.update_ok
  intro j hj hqueued hshared
  rw [h.done_eq] at hj
  rcases List.mem_append.mp hj with hj | hj
  · exact hwindows j hj hqueued hshared
  · rw [List.mem_singleton.mp hj] at hshared ⊢
    rw [hplaced.jinfo_eq] at hshared
    have hupdate := h.update_ok
    rw [updateJob_shared hshared] at hupdate
    exact updateSharedJob_inWindows hlimits hupdate (hlast hshared)

/-- So does passing a job that is not queued. -/
theorem Passed.windowsRespected {nodes : List NodeInfo} {st st' : Planning} {job : PlanJob}
    (h : Passed conf cluster st job st') (hwindows : WindowsRespected nodes st.done)
    (hnot : job.isQueued = false) : WindowsRespected nodes st'.done := by
  intro j hj hqueued hshared
  rw [h.done_eq] at hj
  rcases List.mem_append.mp hj with hj | hj
  · exact hwindows j hj hqueued hshared
  · rw [List.mem_singleton.mp hj, hnot] at hqueued
    cases hqueued

end Runs

/-! ## A call of `update_sched` -/

/-- **Windows of planned jobs**: after `update_sched` returned 0, no job outlasts the window of
its node if at every turn all windows last for the job; and, where the turns are regular, only
then. -/
theorem updateSched_windows_iff {conf : LimitsForClusters} {time : ℤ} {values : LimitsValues}
    {plan : ClusterPlan} {result : SchedUpdate}
    (h : updateSched conf time values plan = .ok result) (hcode : result.code = 0) :
    (TurnsLast conf time values plan → WindowsRespected plan.cluster.nodes result.plan.jobs) ∧
      (RegularTurns conf time values plan →
        (WindowsRespected plan.cluster.nodes result.plan.jobs ↔
          TurnsLast conf time values plan)) := by
  obtain ⟨slots, values', jobs, st, hrun⟩ := updateSched_run h hcode
  have hturn : ∀ {job rest s}, ComesTo conf
      { plan.cluster with numRunningCpus := runningCpus plan.cluster } values' jobs
      ⟨[], slots, [], [], time, 0⟩ job rest s → Turn conf time values plan job rest s :=
    fun hcomes => ⟨slots, values', jobs, hrun.slots_ok, hrun.values_ok, hrun.moved_ok, hcomes⟩
  have henough : TurnsLast conf time values plan →
      WindowsRespected plan.cluster.nodes result.plan.jobs := by
    intro hlast
    rw [hrun.jobs_eq]
    refine (@planJobs_invariant_along _ _ _ (fun s => LimitsInv s.limits ∧
      WindowsRespected plan.cluster.nodes s.done) jobs _ _ ?_ ?_ ?_ hrun.planned_ok).2
    · intro job rest s update s' _ hcomes hqueued hinv hplan
      refine ⟨addJobToLimits_inv hinv.1 hplan.limits_ok, ?_⟩
      exact hplan.windowsRespected hinv.1 hinv.2
        (hlast values' job rest s hrun.values_ok (hturn hcomes) hqueued)
    · intro job s s' _ hnot hinv hpass
      refine ⟨?_, hpass.windowsRespected hinv.2 hnot⟩
      rcases hpass.limits_ok with heq | hadd
      · rw [heq]
        exact hinv.1
      · exact addJobToLimits_inv hinv.1 hadd
    · exact ⟨limitsInv_nil, by simp [WindowsRespected]⟩
  refine ⟨henough, ?_⟩
  rintro ⟨hnames, hregular⟩
  refine ⟨?_, henough⟩
  intro hwindows values'' job rest s hvalues hcomes hqueued hshared
  have hreg := hregular job rest s hcomes hqueued hshared
  obtain ⟨slots', values₁, jobs', hslots, hvalues₁, hmoved, hcomes⟩ := hcomes
  rw [hrun.slots_ok] at hslots
  rw [hrun.values_ok] at hvalues hvalues₁
  rw [hrun.moved_ok] at hmoved
  obtain rfl := Except.ok.inj hslots
  obtain rfl := Except.ok.inj hvalues
  obtain rfl := Except.ok.inj hvalues₁
  obtain rfl := Except.ok.inj hmoved
  have hlimits := hcomes.limits limitsInv_nil
  obtain ⟨update, s', hplan, hdone⟩ := hcomes.planned hrun.planned_ok hqueued
  obtain ⟨table, hplaced⟩ := updateJob_placed hlimits hplan.update_ok
  have hupdate := hplan.update_ok
  rw [updateJob_shared hshared] at hupdate
  refine updateSharedJob_windowsLast hlimits hshared hnames hreg hupdate ?_
  rw [hrun.jobs_eq] at hwindows
  refine hwindows update.job hdone ?_ ?_
  · unfold PlanJob.isQueued at hqueued ⊢
    rw [hplaced.jinfo_eq]
    exact hqueued
  · rw [hplaced.jinfo_eq]
    exact hshared

/-- Two nodes with windows, the second one down. -/
def twoWindows : PlanCluster :=
  ⟨"zubat", [{ plainNode "zubat1" 2 8 with availBefore := 2000 },
    { plainNode "zubat2" 1 8 with availBefore := 1500, isDown := true }], 3, 0, 0⟩

/-- Two jobs of 600 seconds run side by side on the first node and end at 1600.  Behind each
other they would not, and the window of the node that is down closes before. -/
theorem updateSched_windows_two :
    ∃ result, updateSched oneClass 1000 ⟨[], []⟩ ⟨twoWindows,
        [queuedJob 1 1 1 (by decide) 4 600, queuedJob 2 1 1 (by decide) 4 600], [], []⟩
        = .ok result ∧ result.code = 0 ∧
      result.plan.jobs.map (fun job => (job.ninfoArr.take job.reqNumNodes, job.completionTime))
        = [([some 0], 1600), ([some 0], 1600)] ∧
      TurnsLast oneClass 1000 ⟨[], []⟩ ⟨twoWindows,
        [queuedJob 1 1 1 (by decide) 4 600, queuedJob 2 1 1 (by decide) 4 600], [], []⟩ ∧
      WindowsRespected twoWindows.nodes result.plan.jobs := by
  have hrun : (updateSched oneClass 1000 ⟨[], []⟩ ⟨twoWindows,
      [queuedJob 1 1 1 (by decide) 4 600, queuedJob 2 1 1 (by decide) 4 600], [], []⟩ >>=
        fun r => pure (r.code, r.plan.jobs.map (fun job =>
          (job.ninfoArr.take job.reqNumNodes, job.completionTime))))
      = .ok (0, [([some 0], 1600), ([some 0], 1600)]) := by
    decide +kernel
  have htest : testTurns oneClass 1000 ⟨[], []⟩ ⟨twoWindows,
      [queuedJob 1 1 1 (by decide) 4 600, queuedJob 2 1 1 (by decide) 4 600], [], []⟩
      (fun st job => decide (RegularTurn
        { twoWindows with numRunningCpus := runningCpus twoWindows } st job.afterMove))
      = .ok true := by
    decide +kernel
  obtain ⟨result, hresult, hcode⟩ := bind_ok.mp hrun
  rw [pure_ok, Prod.mk.injEq] at hcode
  have hwindows : WindowsRespected twoWindows.nodes result.plan.jobs := by
    intro job hjob _ _ n hn node hnode _
    have hmem := List.mem_map_of_mem
      (f := fun job => (job.ninfoArr.take job.reqNumNodes, job.completionTime)) hjob
    rw [hcode.2] at hmem
    have hplace : job.ninfoArr.take job.reqNumNodes = [some 0] ∧ job.completionTime = 1600 := by
      simpa using hmem
    rw [hplace.1, List.mem_singleton, Option.some.injEq] at hn
    subst hn
    obtain rfl := Option.some.inj hnode
    rw [hplace.2]
    decide
  refine ⟨result, hresult, hcode.1, hcode.2, ?_, hwindows⟩
  refine ((updateSched_windows_iff hresult hcode.1).2 ⟨by decide, ?_⟩).mp hwindows
  intro job rest st hturn _ _
  exact of_decide_eq_true (hturn.tested htest)

/-- A node with one CPU that is available until 2000. -/
def nodeUntil2000 : NodeInfo := { plainNode "zubat1" 1 8 with availBefore := 2000 }

/-- With a fourth job the plan goes beyond the window: the test compares the window
with the completion times before the call, which are not set yet. -/
theorem updateSched_outlasts_window :
    ∃ result, updateSched oneClass 1000 ⟨[], []⟩ ⟨⟨"zubat", [nodeUntil2000], 1, 0, 0⟩,
        [queuedJob 1 1 1 (by decide) 4 300, queuedJob 2 1 1 (by decide) 4 300,
          queuedJob 3 1 1 (by decide) 4 300, queuedJob 4 1 1 (by decide) 4 300], [], []⟩
        = .ok result ∧ result.code = 0 ∧ ¬ WindowsRespected [nodeUntil2000] result.plan.jobs := by
  have hrun : (updateSched oneClass 1000 ⟨[], []⟩ ⟨⟨"zubat", [nodeUntil2000], 1, 0, 0⟩,
      [queuedJob 1 1 1 (by decide) 4 300, queuedJob 2 1 1 (by decide) 4 300,
        queuedJob 3 1 1 (by decide) 4 300, queuedJob 4 1 1 (by decide) 4 300], [], []⟩
        >>= fun r => pure (r.code, r.plan.jobs.any (fun job => job.isQueued &&
          !job.jinfo.isExclusive && (job.ninfoArr.take job.reqNumNodes).contains (some 0) &&
          decide (2000 < job.completionTime)))) = .ok (0, true) := by
    decide +kernel
  obtain ⟨result, hresult, hcode⟩ := bind_ok.mp hrun
  rw [pure_ok, Prod.mk.injEq, List.any_eq_true] at hcode
  obtain ⟨hcode, job, hjob, hlate⟩ := hcode
  refine ⟨result, hresult, hcode, ?_⟩
  intro hwindows
  simp only [Bool.and_eq_true, Bool.not_eq_true', decide_eq_true_eq, List.contains_iff_mem]
    at hlate
  have hle := hwindows job hjob hlate.1.1.1 hlate.1.1.2 0 hlate.1.2 nodeUntil2000 rfl (by decide)
  have : nodeUntil2000.availBefore = 2000 := rfl
  omega

end PlanSched
