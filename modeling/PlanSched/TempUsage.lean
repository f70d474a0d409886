/-
# The temporary usage after `update_fairshare`

`update_fairshare` charges the jobs that were running to their groups, copies the usage of the
groups it has records of to their temporary usage, and then decays the usage of every group.
The copy comes before the decay and reaches only the groups with a record, while jobs are ordered
by the temporary usage.

* `updateFairshare_groups` says what a cycle makes of each group;
* `temp_usage_synced_iff` says when every group has its usage as temporary usage afterwards.
-/
import PlanSched.DecayRuns

namespace PlanSched.Fairshare

/-! ## The groups of all trees -/

/-- The groups of all live trees. -/
def World.groups (world : World) : List GroupInfo :=
  world.trees.flatMap (fun entry => entry.2.root.toList)

/-- No two groups are at one address. -/
def World.Placed (world : World) : Prop := (world.groups.map GroupInfo.addr).Nodup

instance (world : World) : Decidable world.Placed :=
  inferInstanceAs (Decidable (List.Nodup _))

/-- Changing the usages of every node changes those of every group. -/
theorem flatMap_mapUsage (f : GroupInfo → ℤ × ℤ) (trees : List (String × FairshareTree)) :
    (trees.map (fun entry => (entry.1, entry.2.mapUsage f))).flatMap
        (fun entry => entry.2.root.toList)
      = (trees.flatMap (fun entry => entry.2.root.toList)).map
          (fun ginfo => { ginfo with usage := (f ginfo).1, tempUsage := (f ginfo).2 }) := by
  induction trees with
  | nil => rfl
  | cons entry trees ih =>
      rw [List.map_cons, List.flatMap_cons, List.flatMap_cons, List.map_append, ih,
        FairshareTree.mapUsage, SiblingTree.toList_map]

/-- What writing through an address does to the groups. -/
theorem setUsageAt_groups {world world' : World} {addr : ℕ} {f : GroupInfo → ℤ × ℤ}
    (h : world.setUsageAt addr f = .ok world') :
    world'.groups = world.groups.map (fun ginfo =>
        if ginfo.addr = addr then { ginfo with usage := (f ginfo).1, tempUsage := (f ginfo).2 }
        else ginfo) ∧
      world'.lastRunning = world.lastRunning := by
  unfold World.setUsageAt at h
  split at h
  · cases h
    refine ⟨(flatMap_mapUsage _ world.trees).trans (List.map_congr_left fun ginfo _ => ?_), rfl⟩
    by_cases haddr : ginfo.addr = addr
    · rw [if_pos haddr, if_pos haddr]
    · rw [if_neg haddr, if_neg haddr]
  · cases h

/-! ## Charging the records -/

/-- The job a record is charged for. -/
def chargedJob (jobs : List CycleJob) (record : PrevJobInfo) : Option CycleJob :=
  jobs.find? (fun job => (job.state = .completed || job.state = .exiting || job.state = .running)
    && job.jobId = record.name)

/-- The usage of its group after a record has been charged. -/
def recordCharge (jobs : List CycleJob) (record : PrevJobInfo) (usage : ℤ) : ℤ :=
  match chargedJob jobs record with
  | none => usage
  | some job =>
      match addedUsage job record usage with
      | .ok charged => charged
      | .error _ => usage

/-- The usage of a group with what the records add to it. -/
def chargedUsage (jobs : List CycleJob) (records : List PrevJobInfo) (ginfo : GroupInfo) : ℤ :=
  records.foldl (fun usage record =>
    if record.ginfo = ginfo.addr then recordCharge jobs record usage else usage) ginfo.usage

/-- Groups at different addresses are found by their addresses. -/
theorem eq_of_find_addr {groups : List GroupInfo} (h : (groups.map GroupInfo.addr).Nodup)
    {addr : ℕ} {found ginfo : GroupInfo}
    (hfind : groups.find? (fun ginfo => ginfo.addr = addr) = some found)
    (hmem : ginfo ∈ groups) (haddr : ginfo.addr = addr) : ginfo = found := by
  have hfound : found.addr = addr := by simpa using List.find?_some hfind
  exact List.inj_on_of_nodup_map h hmem (List.mem_of_find?_eq_some hfind) (haddr.trans hfound.symm)

/-- One record is charged to the group it points to. -/
theorem chargeJob_groups {jobs : List CycleJob} {world world' : World} {record : PrevJobInfo}
    (hplaced : world.Placed) (h : chargeJob jobs world record = .ok world') :
    world'.groups = world.groups.map (fun ginfo => { ginfo with
        usage := if record.ginfo = ginfo.addr then recordCharge jobs record ginfo.usage
          else ginfo.usage }) ∧
      world'.lastRunning = world.lastRunning := by
  unfold chargeJob at h
  dsimp only at h
  -- a record whose job is gone charges nothing
  cases hjob : chargedJob jobs record with
  | none =>
      rw [show jobs.find? _ = none from hjob] at h
      cases h
      refine ⟨?_, rfl⟩
      rw [List.map_congr_left (g := id), List.map_id]
      intro ginfo _
      simp [recordCharge, hjob]
  | some job =>
      rw [show jobs.find? _ = some job from hjob] at h
      dsimp only at h
      cases hfind : world.groups.find? (fun ginfo => ginfo.addr = record.ginfo) with
      | none =>
          rw [show List.find? _ (world.trees.flatMap _) = none from hfind] at h
          cases h
      | some found =>
          rw [show List.find? _ (world.trees.flatMap _) = some found from hfind] at h
          dsimp only at h
          cases hadded : addedUsage job record found.usage with
          | error failure =>
              rw [hadded] at h
              cases h
          | ok usage =>
              rw [hadded] at h
              obtain ⟨hgroups, hlast⟩ := setUsageAt_groups h
              refine ⟨hgroups.trans (List.map_congr_left fun ginfo hginfo => ?_), hlast⟩
              by_cases haddr : ginfo.addr = record.ginfo
              · rw [if_pos haddr, if_pos haddr.symm, eq_of_find_addr hplaced hfind hginfo haddr,
                  recordCharge, hjob]
                simp only [hadded]
              · rw [if_neg haddr, if_neg (Ne.symm haddr)]

/-- All records are charged to the groups they point to. -/
theorem chargeJobs_groups {jobs : List CycleJob} (records : List PrevJobInfo) :
    ∀ {world world' : World}, world.Placed → records.foldlM (chargeJob jobs) world = .ok world' →
      world'.groups = world.groups.map (fun ginfo =>
          { ginfo with usage := chargedUsage jobs records ginfo }) ∧
        world'.lastRunning = world.lastRunning := by
  induction records with
  | nil =>
      intro world world' _ h
      cases h
      exact ⟨(List.map_id _).symm, rfl⟩
  | cons record records ih =>
      intro world world' hplaced h
      rw [List.foldlM_cons] at h
      cases hnext : chargeJob jobs world record with
      | error failure =>
          rw [hnext] at h
          cases h
      | ok next =>
          rw [hnext] at h
          obtain ⟨hgroups, hlast⟩ := chargeJob_groups hplaced hnext
          have hplaced' : next.Placed := by
            unfold World.Placed
            rw [hgroups, List.map_map]
            exact hplaced
          obtain ⟨hgroups', hlast'⟩ := ih hplaced' h
          refine ⟨?_, hlast'.trans hlast⟩
          rw [hgroups', hgroups, List.map_map]
          rfl

/-! ## The copy and the decay -/

/-- The groups with a record. -/
def HasRecord (records : List PrevJobInfo) (ginfo : GroupInfo) : Prop :=
  ginfo.addr ∈ records.map PrevJobInfo.ginfo

instance (records : List PrevJobInfo) (ginfo : GroupInfo) : Decidable (HasRecord records ginfo) :=
  inferInstanceAs (Decidable (_ ∈ _))

/-- The copy reaches the groups with a record. -/
theorem assign_groups (records : List PrevJobInfo) :
    ∀ {world world' : World},
      records.foldlM (fun world previous =>
        world.setUsageAt previous.ginfo (fun ginfo => (ginfo.usage, ginfo.usage))) world
          = .ok world' →
      world'.groups = world.groups.map (fun ginfo => { ginfo with
        tempUsage := if HasRecord records ginfo then ginfo.usage else ginfo.tempUsage }) := by
  induction records with
  | nil =>
      intro world world' h
      cases h
      exact (List.map_id _).symm
  | cons record records ih =>
      intro world world' h
      rw [List.foldlM_cons] at h
      cases hnext : world.setUsageAt record.ginfo (fun ginfo => (ginfo.usage, ginfo.usage)) with
      | error failure =>
          rw [hnext] at h
          cases h
      | ok next =>
          rw [hnext] at h
          rw [ih h, (setUsageAt_groups hnext).1, List.map_map]
          refine List.map_congr_left fun ginfo _ => ?_
          have hcons : HasRecord (record :: records) ginfo
              ↔ ginfo.addr = record.ginfo ∨ HasRecord records ginfo := List.mem_cons
          by_cases haddr : ginfo.addr = record.ginfo
          · simp [haddr, hcons]
          · simp [haddr, hcons]

/-- The decay of one usage. -/
def halve (usage : ℤ) : ℤ := if usage.tdiv 2 = 0 then 1 else usage.tdiv 2

/-- The decays reach every group. -/
theorem decayTrees_groups (n : ℕ) : ∀ world : World,
    (World.decayTrees^[n] world).groups
      = world.groups.map (fun ginfo => { ginfo with usage := halve^[n] ginfo.usage }) := by
  induction n with
  | zero => exact fun world => (List.map_id _).symm
  | succ n ih =>
      intro world
      have hone : world.decayTrees.groups
          = world.groups.map (fun ginfo => { ginfo with usage := halve ginfo.usage }) :=
        flatMap_mapUsage _ world.trees
      rw [Function.iterate_succ_apply, ih, hone, List.map_map]
      rfl

/-- What a cycle makes of each group: it is charged, its usage is copied if it has a record, and
then decays once for each half life passed. -/
theorem updateFairshare_groups {conf : CycleConf} {jobs : List CycleJob} {world world' : World}
    (hplaced : world.Placed) (hfair : conf.fairShare = true)
    (h : updateFairshare conf jobs world = .ok world') :
    ∃ n, DecayLoop conf.halfLife (world.lastDecay.getD 0) conf.now n ∧
      world'.groups = world.groups.map (fun ginfo => { ginfo with
        usage := halve^[n] (chargedUsage jobs world.lastRunning ginfo)
        tempUsage := if HasRecord world.lastRunning ginfo then
            chargedUsage jobs world.lastRunning ginfo
          else ginfo.tempUsage }) := by
  obtain ⟨first, charged, n, hcharge, hassign, hloop, htrees, -⟩ := updateFairshare_runs hfair h
  obtain ⟨hfirst, hlast⟩ := chargeJobs_groups world.lastRunning hplaced hcharge
  refine ⟨n, hloop, ?_⟩
  have hgroups : world'.groups = (World.decayTrees^[n] charged).groups := by
    unfold World.groups
    rw [htrees]
  rw [hgroups, decayTrees_groups, assign_groups _ hassign, hlast, hfirst, List.map_map,
    List.map_map]
  rfl

/-! ## When the two usages agree -/

/-- A usage that is not zero does not become zero, or greater. -/
theorem halve_le {usage : ℤ} (h : usage ≠ 0) :
    halve usage ≠ 0 ∧ (halve usage).natAbs ≤ usage.natAbs := by
  have habs : (usage.tdiv 2).natAbs = usage.natAbs / 2 := Int.natAbs_tdiv usage 2
  unfold halve
  split
  · omega
  · next hne => exact ⟨hne, by omega⟩

/-- Nor after several rounds. -/
theorem iterate_halve_le (n : ℕ) : ∀ {usage : ℤ}, usage ≠ 0 →
    halve^[n] usage ≠ 0 ∧ (halve^[n] usage).natAbs ≤ usage.natAbs := by
  induction n with
  | zero => exact fun h => ⟨h, le_refl _⟩
  | succ n ih =>
      intro usage h
      rw [Function.iterate_succ_apply]
      obtain ⟨hne, hle⟩ := halve_le h
      obtain ⟨hne', hle'⟩ := ih hne
      exact ⟨hne', hle'.trans hle⟩

/-- One stays one. -/
theorem iterate_halve_one (n : ℕ) : halve^[n] 1 = 1 := by
  induction n with
  | zero => rfl
  | succ n ih =>
      rw [Function.iterate_succ_apply]
      exact ih

/-- Only a usage of one is left alone by the decay. -/
theorem iterate_halve_eq_iff {n : ℕ} (hn : n ≠ 0) (usage : ℤ) :
    usage = halve^[n] usage ↔ usage = 1 := by
  obtain ⟨n, rfl⟩ := Nat.exists_eq_succ_of_ne_zero hn
  constructor
  · intro h
    rw [Function.iterate_succ_apply] at h
    by_contra hne
    by_cases hsmall : usage = 0 ∨ usage = -1
    · -- both decay to one and stay there
      have hone : halve usage = 1 := by
        rcases hsmall with rfl | rfl
        · rfl
        · rfl
      rw [hone, iterate_halve_one] at h
      exact hne h
    · have hless : (halve usage).natAbs < usage.natAbs := by
        have habs : (usage.tdiv 2).natAbs = usage.natAbs / 2 := Int.natAbs_tdiv usage 2
        unfold halve
        split
        · omega
        · omega
      have hkept : halve usage ≠ 0 := (halve_le (by omega)).1
      have := (iterate_halve_le n hkept).2
      rw [← h] at this
      omega
  · rintro rfl
    exact (iterate_halve_one _).symm

/-- The half lives the loop finds passed. -/
def halfLivesPassed (conf : CycleConf) (world : World) : ℕ :=
  ((conf.now - world.lastDecay.getD 0 - 1) / conf.halfLife).toNat

/-- What a cycle needs of a group to leave its two usages equal.  With no decay due, a group
without a record has them equal.  With decays due, a group without a record has as temporary usage
what the decays make of its usage, and one with a record is charged up to a usage of one. -/
def Syncs (conf : CycleConf) (jobs : List CycleJob) (world : World) (ginfo : GroupInfo) : Prop :=
  if conf.now - world.lastDecay.getD 0 ≤ conf.halfLife then
    HasRecord world.lastRunning ginfo ∨ ginfo.tempUsage = ginfo.usage
  else if HasRecord world.lastRunning ginfo then
    chargedUsage jobs world.lastRunning ginfo = 1
  else ginfo.tempUsage = halve^[halfLivesPassed conf world] ginfo.usage

instance (conf : CycleConf) (jobs : List CycleJob) (world : World) (ginfo : GroupInfo) :
    Decidable (Syncs conf jobs world ginfo) := by
  unfold Syncs
  infer_instance

/-- A group without a record is not charged. -/
theorem chargedUsage_of_not {jobs : List CycleJob} {records : List PrevJobInfo}
    {ginfo : GroupInfo} (h : ¬ HasRecord records ginfo) :
    chargedUsage jobs records ginfo = ginfo.usage := by
  unfold chargedUsage
  generalize ginfo.usage = usage
  induction records with
  | nil => rfl
  | cons record records ih =>
      have hne : record.ginfo ≠ ginfo.addr := fun haddr => h (by simp [HasRecord, haddr])
      rw [List.foldl_cons, if_neg hne]
      exact ih (fun hrecord => h (List.mem_cons_of_mem _ hrecord))

/-- After `update_fairshare` every group has its usage as temporary usage exactly when the cycle
found every group so that it syncs. -/
theorem temp_usage_synced_iff {conf : CycleConf} {jobs : List CycleJob} {world world' : World}
    (hplaced : world.Placed) (hfair : conf.fairShare = true)
    (h : updateFairshare conf jobs world = .ok world') :
    (∀ ginfo ∈ world'.groups, ginfo.tempUsage = ginfo.usage)
      ↔ ∀ ginfo ∈ world.groups, Syncs conf jobs world ginfo := by
  obtain ⟨n, hloop, hgroups⟩ := updateFairshare_groups hplaced hfair h
  rw [hgroups, List.forall_mem_map]
  refine forall₂_congr fun ginfo _ => ?_
  unfold Syncs
  by_cases hdue : conf.now - world.lastDecay.getD 0 ≤ conf.halfLife
  · -- no round: only the copy counts
    have hzero : n = 0 := hloop.unique (.stop hdue)
    rw [if_pos hdue, hzero]
    by_cases hrecord : HasRecord world.lastRunning ginfo
    · simp [hrecord]
    · simp [hrecord, chargedUsage_of_not hrecord]
  · rw [if_neg hdue]
    have hrounds : n ≠ 0 := by
      rintro rfl
      cases hloop with
      | stop hstop => exact hdue hstop
    have hlife : 0 < conf.halfLife := by
      by_contra hneg
      exact hrounds (hloop.of_nonpos (not_lt.mp hneg)).1
    have hcount : n = halfLivesPassed conf world := hloop.count hlife
    by_cases hrecord : HasRecord world.lastRunning ginfo
    · simp only [if_pos hrecord]
      exact iterate_halve_eq_iff hrounds _
    · simp only [if_neg hrecord]
      rw [chargedUsage_of_not hrecord, hcount]

/-- A tree with one group under the root, which has used 100. -/
def usedTree : FairshareTree where
  root := .node ⟨0, "root", -1, some 1, 1, 1⟩ .null
    (.node ⟨1, "unknown", 10, some (1 / 4), 1, 1⟩
      (.node ⟨2, "anna", 30, some (3 / 4), 100, 100⟩ .null .null) .null)
  hasUnknown := rfl

/-- Trees, records and times that differ in nothing else. -/
def usedWorld (lastDecay : ℤ) : World where
  unknownShares := 10
  trees := [("default", usedTree)]
  lastRunning := []
  next := 3
  files := fun _ => savedFiles
  lastDecay := some lastDecay
  lastSync := 0

/-- A job of the group that has run for ten minutes on two processors. -/
def annaJob : CycleJob where
  jobId := "1.server"
  state := .running
  fairshareTree := "default"
  account := "anna"
  resused := 600
  calculatedFairshare := 0
  procs := some 2

/-- Its record, from the cycle that has started it and has raised the temporary usage. -/
def startedWorld : World :=
  { usedWorld 0 with
    trees := [("default", usedTree.mapUsage (fun ginfo =>
      if ginfo.name = "anna" then (100, 7300) else (ginfo.usage, ginfo.tempUsage)))]
    lastRunning := [{ name := "1.server", account := "anna", ginfo := 2, resused := 0 }] }

/-- Without a decay the job is charged, and the temporary usage follows. -/
theorem temp_usage_synced_iff_used :
    ∃ world', updateFairshare dayConf [annaJob] startedWorld = .ok world' ∧
      (∃ ginfo ∈ world'.groups, ginfo.name = "anna" ∧ ginfo.usage = 1900) ∧
      ∀ ginfo ∈ world'.groups, ginfo.tempUsage = ginfo.usage := by
  have hcharged : ∃ world', updateFairshare dayConf [annaJob] startedWorld = .ok world' ∧
      ∃ ginfo ∈ world'.groups, ginfo.name = "anna" ∧ ginfo.usage = 1900 :=
    ⟨_, rfl, ⟨2, "anna", 30, some (3 / 4), 1900, 1900⟩, by decide +kernel, rfl, rfl⟩
  obtain ⟨world', h, hanna⟩ := hcharged
  refine ⟨world', h, hanna, (temp_usage_synced_iff ?_ rfl h).mpr ?_⟩
  · decide +kernel
  · decide +kernel

/-- With one decay due the usage of the group is halved and its temporary usage is not. -/
theorem decay_leaves_temp_usage :
    ∃ world', (usedWorld (-86400)).Placed ∧
      updateFairshare dayConf [] (usedWorld (-86400)) = .ok world' ∧
      ∃ ginfo ∈ world'.groups, ginfo.usage = 50 ∧ ginfo.tempUsage = 100 := by
  refine ⟨_, by decide +kernel, rfl, ⟨2, "anna", 30, some (3 / 4), 50, 100⟩, ?_, rfl, rfl⟩
  decide +kernel

end PlanSched.Fairshare
