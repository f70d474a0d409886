/-
# What a job is charged over many cycles

`update_fairshare` and `update_last_running` (`SchedulerRealm.cpp`) share out the use of
the jobs: each cycle remembers what its running jobs have used, and the next one charges
their groups for what was added, with five minutes on top.  Over many cycles this is a
meter on each job (`Session`): it is read when the job is first seen to run and again in
every cycle up to its end, and what the job costs is the difference of its last and
first reading and the five minutes for each further reading.

`usage_is_metered`: between two decays the usage of a group is what it was when the group
was first seen, and the cost of all sessions of its jobs; nothing is charged twice and
nothing is lost, up to the fractions that are cut off.
-/
import PlanSched.GroupAddresses

namespace PlanSched.Fairshare

open CheckedRun

/-! ## Meters -/

/-- The job of the snapshot that a record of this name is charged for. -/
def reading (jobs : List CycleJob) (name : String) : Option CycleJob :=
  jobs.find? (fun job => (job.state = .completed || job.state = .exiting || job.state = .running)
    && job.jobId = name)

/-- A meter: its first and last reading and the number of readings after the first. -/
structure Session where
  name : String
  first : ℤ
  last : ℤ
  charges : ℕ

/-- The meter of a job that is seen to run. -/
def Session.start (job : CycleJob) : Session := ⟨job.jobId, job.resused, job.resused, 0⟩

/-- Read the meter once more, if the job is still there. -/
def Session.read (jobs : List CycleJob) (session : Session) : Session :=
  match reading jobs session.name with
  | none => session
  | some job => { session with last := job.resused, charges := session.charges + 1 }

/-- All meters: those of running jobs, and those that are not read any more. -/
structure Meters where
  current : List Session
  closed : List Session

/-- The meter was read and its job runs on. -/
def Session.goesOn (jobs running : List CycleJob) (session : Session) : Bool :=
  (reading jobs session.name).isSome && (running.map CycleJob.jobId).contains session.name

/-- The meters after a cycle that saw `jobs` and left the jobs `running`. -/
def Meters.observe (jobs running : List CycleJob) (meters : Meters) : Meters where
  current := (meters.current.filter (Session.goesOn jobs running)).map (Session.read jobs) ++
    (running.filter (fun job => !((meters.current.filter (Session.goesOn jobs running)).map
      Session.name).contains job.jobId)).map Session.start
  closed := meters.closed ++ (meters.current.filter
    (fun session => !session.goesOn jobs running)).map (Session.read jobs)

section Amounts

variable (group : String → ℕ) (rate : String → ℚ)

/-- What a session costs. -/
def Session.amount (session : Session) : ℚ :=
  rate session.name * (session.last - session.first + 300 * session.charges)

/-- How often a fraction was cut off. -/
def Session.cuts (session : Session) : ℕ :=
  if (rate session.name).den = 1 then 0 else session.charges

/-- The sessions of the jobs of a group. -/
def Meters.of (addr : ℕ) (meters : Meters) : List Session :=
  (meters.current ++ meters.closed).filter (fun session => group session.name = addr)

/-- What the jobs of a group cost. -/
def Meters.amount (addr : ℕ) (meters : Meters) : ℚ :=
  ((meters.of group addr).map (Session.amount rate)).sum

/-- How many fractions were cut off. -/
def Meters.cuts (addr : ℕ) (meters : Meters) : ℕ :=
  ((meters.of group addr).map (Session.cuts rate)).sum

end Amounts

/-! ## Runs -/

/-- The cost of a job, as `update_fairshare` takes it. -/
def CycleJob.cost (job : CycleJob) : Option ℚ :=
  if job.calculatedFairshare ≠ 0 then some job.calculatedFairshare
  else job.procs.map (fun procs : ℤ => (procs : ℚ))

/-- The jobs that were fetched, with the addresses of their groups, the latest first. -/
inductive Fetched (world : World) : List (CycleJob × ℕ) → World → Prop
  | start : Fetched world [] world
  | fetch {jobs : List (CycleJob × ℕ)} {σ σ' : World} {job : CycleJob} {ginfo : GroupInfo}
      (hfetched : Fetched world jobs σ)
      (hlookup : σ.lookupGinfo job.fairshareTree job.account = .ok (ginfo, σ')) :
      Fetched world ((job, ginfo.addr) :: jobs) σ'

/-- The jobs that are started: `update_usage_on_run` for each. -/
inductive Started (world : World) : World → Prop
  | none : Started world world
  | start {σ σ' : World} {addr : ℕ} (added : ℤ) (hstarted : Started world σ)
      (hset : σ.setUsageAt addr (fun ginfo => (ginfo.usage, ginfo.tempUsage + added)) = .ok σ') :
      Started world σ'

/-- What is asked of a cycle: no decay is due, no two jobs have one number, and each job has the
group and the cost that go with its number. -/
structure Meets (group : String → ℕ) (rate : String → ℚ) (conf : CycleConf) (world : World)
    (jobs running : List (CycleJob × ℕ)) : Prop where
  fairShare : conf.fairShare = true
  noDecay : conf.now - world.lastDecay.getD 0 ≤ conf.halfLife
  names : (jobs.map (fun entry => entry.1.jobId)).Nodup
  groups : ∀ entry ∈ jobs, entry.2 = group entry.1.jobId
  rates : ∀ entry ∈ jobs, entry.1.cost = some (rate entry.1.jobId)
  fetched : ∀ entry ∈ running, entry ∈ jobs
  runningNames : (running.map (fun entry => entry.1.jobId)).Nodup

/-- The usage of the group at the address. -/
def World.usageAt (world : World) (addr : ℕ) : ℤ :=
  ((world.groups.find? (fun ginfo => ginfo.addr = addr)).map GroupInfo.usage).getD 0

/-- Cycles from the start of the scheduler: the usage each group had when it was first seen, the
world, and the meters. -/
inductive FairRun (group : String → ℕ) (rate : String → ℚ) : (ℕ → ℤ) → World → Meters → Prop
  | start (world : World) (htrees : world.trees = []) (hlast : world.lastRunning = []) :
      FairRun group rate (fun _ => 0) world ⟨[], []⟩
  | cycle {seen : ℕ → ℤ} {world σ σ₁ σ₂ : World} {meters : Meters} {conf : CycleConf}
      {jobs running : List (CycleJob × ℕ)} (hrun : FairRun group rate seen world meters)
      (hmeets : Meets group rate conf world jobs running) (hfetched : Fetched world jobs σ)
      (hupdate : updateFairshare conf (jobs.reverse.map Prod.fst) σ = .ok σ₁)
      (hstarted : Started σ₁ σ₂) :
      FairRun group rate (fun addr => if addr < world.next then seen addr else σ.usageAt addr)
        (updateLastRunning running σ₂)
        (meters.observe (jobs.reverse.map Prod.fst) (running.map Prod.fst))

/-! ## One charge -/

/-- Cutting off a fraction. -/
theorem truncate_near (x : ℚ) : |(truncate x : ℚ) - x| ≤ 1 := by
  unfold truncate
  split
  · have h₁ := Int.floor_le x
    have h₂ := Int.lt_floor_add_one x
    rw [abs_le]
    constructor <;> linarith
  · have h₁ := Int.le_ceil x
    have h₂ := Int.ceil_lt_add_one x
    rw [abs_le]
    constructor <;> linarith

/-- There is none to cut off. -/
theorem truncate_int (n : ℤ) : truncate n = n := by
  unfold truncate
  split
  · exact Int.floor_intCast n
  · exact Int.ceil_intCast n

section Charges

variable {group : String → ℕ} {rate : String → ℚ} {jobs : List CycleJob}

/-- What a meter with this last reading is charged. -/
def chargeFor (rate : String → ℚ) (jobs : List CycleJob) (name : String) (last : ℤ) : ℚ :=
  match reading jobs name with
  | none => 0
  | some job => rate name * (job.resused - last + 300)

/-- A fraction may be cut off. -/
def cutFor (rate : String → ℚ) (jobs : List CycleJob) (name : String) : ℕ :=
  if (reading jobs name).isSome ∧ (rate name).den ≠ 1 then 1 else 0

/-- The session costs so much more when it is read. -/
theorem Session.amount_read (session : Session) :
    (session.read jobs).amount rate
      = session.amount rate + chargeFor rate jobs session.name session.last := by
  unfold Session.read chargeFor
  cases reading jobs session.name with
  | none => simp
  | some job =>
      unfold Session.amount
      push_cast
      ring

/-- And so many more fractions are cut off. -/
theorem Session.cuts_read (session : Session) :
    (session.read jobs).cuts rate = session.cuts rate + cutFor rate jobs session.name := by
  unfold Session.read cutFor
  cases reading jobs session.name with
  | none => simp
  | some job =>
      unfold Session.cuts
      by_cases hden : (rate session.name).den = 1
      · simp [hden]
      · simp [hden]

/-- A reading is of the job with the name. -/
theorem reading_spec {name : String} {job : CycleJob} (h : reading jobs name = some job) :
    job ∈ jobs ∧ job.jobId = name := by
  refine ⟨List.mem_of_find?_eq_some h, ?_⟩
  have := List.find?_some h
  simp only [Bool.and_eq_true, decide_eq_true_eq] at this
  exact this.2

/-- A record is charged at the rate of its job, up to a fraction. -/
theorem recordCharge_near (hrates : ∀ job ∈ jobs, job.cost = some (rate job.jobId))
    (record : PrevJobInfo) (usage : ℤ) :
    |(recordCharge jobs record usage : ℚ) - (usage + chargeFor rate jobs record.name
      record.resused)| ≤ cutFor rate jobs record.name := by
  unfold recordCharge chargeFor cutFor
  rw [show chargedJob jobs record = reading jobs record.name from rfl]
  cases hreading : reading jobs record.name with
  | none => simp
  | some job =>
      obtain ⟨hmem, hname⟩ := reading_spec hreading
      have hcost := hrates job hmem
      rw [hname] at hcost
      unfold CycleJob.cost at hcost
      dsimp only
      unfold addedUsage
      dsimp only
      by_cases hcalculated : job.calculatedFairshare ≠ 0
      · rw [if_pos hcalculated, Option.some.injEq] at hcost
        rw [if_pos hcalculated, hcost]
        dsimp only
        have hsame : (usage : ℚ) + rate record.name * (job.resused - record.resused + 300)
            = usage + ((job.resused - record.resused + 5 * 60 : ℤ) : ℚ) * rate record.name := by
          push_cast
          ring
        rw [hsame]
        by_cases hden : (rate record.name).den = 1
        · -- a whole number is not changed
          have hint : ((rate record.name).num : ℚ) = rate record.name :=
            Rat.coe_int_num_of_den_eq_one hden
          rw [if_neg (fun h => h.2 hden), ← hint]
          have hwhole : (usage : ℚ) + ((job.resused - record.resused + 5 * 60 : ℤ) : ℚ)
              * ((rate record.name).num : ℚ)
              = ((usage + (job.resused - record.resused + 5 * 60) * (rate record.name).num : ℤ)
                : ℚ) := by
            push_cast
            ring
          rw [hwhole, truncate_int]
          simp
        · rw [if_pos ⟨rfl, hden⟩]
          simpa using truncate_near _
      · rw [if_neg hcalculated] at hcost ⊢
        obtain ⟨procs, hprocs, hrate⟩ := Option.map_eq_some_iff.mp hcost
        rw [hprocs, ← hrate]
        dsimp only
        have hwhole : ((usage + (job.resused - record.resused + 5 * 60) * procs : ℤ) : ℚ)
            = usage + (procs : ℚ) * (job.resused - record.resused + 300) := by
          push_cast
          ring
        rw [hwhole, sub_self, abs_zero]
        positivity

/-- All records of a group. -/
theorem chargedUsage_near (hrates : ∀ job ∈ jobs, job.cost = some (rate job.jobId))
    (records : List PrevJobInfo) (addr : ℕ) : ∀ usage : ℤ,
    |((records.foldl (fun usage record =>
        if record.ginfo = addr then recordCharge jobs record usage else usage) usage : ℤ) : ℚ)
      - (usage + ((records.filter (fun record => record.ginfo = addr)).map
        (fun record => chargeFor rate jobs record.name record.resused)).sum)|
      ≤ (((records.filter (fun record => record.ginfo = addr)).map
        (fun record => cutFor rate jobs record.name)).sum : ℕ) := by
  induction records with
  | nil => intro usage; simp
  | cons record records ih =>
      intro usage
      rw [List.foldl_cons]
      by_cases haddr : record.ginfo = addr
      · rw [if_pos haddr, List.filter_cons_of_pos (by simpa using haddr), List.map_cons,
          List.map_cons, List.sum_cons, List.sum_cons]
        -- the record is charged first, and then the others
        have hone := recordCharge_near hrates record usage
        have hrest := ih (recordCharge jobs record usage)
        rw [abs_le] at hone hrest ⊢
        push_cast at hone hrest ⊢
        constructor <;> linarith
      · rw [if_neg haddr, List.filter_cons_of_neg (by simpa using haddr)]
        exact ih usage

end Charges

/-! ## The invariant -/

section Invariant

variable {group : String → ℕ} {rate : String → ℚ} {seen : ℕ → ℤ} {world : World}
variable {meters : Meters}

/-- What holds after every cycle. -/
structure MeterInv (group : String → ℕ) (rate : String → ℚ) (seen : ℕ → ℤ) (world : World)
    (meters : Meters) : Prop where
  sound : world.Sound
  matched : (meters.current.map (fun session => (session.name, session.last))).Perm
    (world.lastRunning.map (fun record => (record.name, record.resused)))
  names : (meters.current.map Session.name).Nodup
  pointed : ∀ record ∈ world.lastRunning, record.ginfo = group record.name
  known : ∀ session ∈ meters.current ++ meters.closed, group session.name < world.next
  metered : ∀ ginfo ∈ world.groups,
    |(ginfo.usage : ℚ) - (seen ginfo.addr + meters.amount group rate ginfo.addr)|
      ≤ meters.cuts group rate ginfo.addr

/-- The jobs that were fetched have their groups in the world. -/
theorem Fetched.spec {jobs : List (CycleJob × ℕ)} {σ : World} (hsound : world.Sound)
    (h : Fetched world jobs σ) : world.GrowsTo σ ∧
      ∀ entry ∈ jobs, ∃ ginfo ∈ σ.groups, ginfo.addr = entry.2 := by
  induction h with
  | start => exact ⟨World.GrowsTo.refl world, by simp⟩
  | @fetch jobs σ σ' job ginfo hfetched hlookup ih =>
      obtain ⟨hgrows, hjobs⟩ := ih
      obtain ⟨hgrows', hmem⟩ := lookupGinfo_grows (hsound.grown hgrows) hlookup
      refine ⟨hgrows.trans hgrows', ?_⟩
      intro entry hentry
      rcases List.mem_cons.mp hentry with rfl | hentry
      · exact ⟨ginfo, hmem, rfl⟩
      · obtain ⟨old, hold, haddr⟩ := hjobs entry hentry
        obtain ⟨later, hlater, hcore⟩ := hgrows'.kept hold
        exact ⟨later, hlater, (addr_of_core hcore).trans haddr⟩

/-- Starting jobs changes no usage. -/
theorem Started.spec {σ : World} (h : Started world σ) : world.SameGroups σ ∧
    ∀ ginfo ∈ σ.groups, ∃ old ∈ world.groups, old.addr = ginfo.addr ∧
      old.usage = ginfo.usage := by
  induction h with
  | none => exact ⟨⟨rfl, rfl, rfl⟩, fun ginfo hginfo => ⟨ginfo, hginfo, rfl, rfl⟩⟩
  | start added _ hset ih =>
      obtain ⟨hsame, hold⟩ := ih
      refine ⟨hsame.trans (setUsageAt_sameGroups hset), ?_⟩
      intro ginfo hginfo
      rw [(setUsageAt_groups hset).1] at hginfo
      obtain ⟨old, hmem, rfl⟩ := List.mem_map.mp hginfo
      obtain ⟨first, hfirst, haddr, husage⟩ := hold old hmem
      refine ⟨first, hfirst, ?_, ?_⟩
      · rw [haddr]
        split <;> rfl
      · rw [husage]
        split <;> rfl

/-- A group at an address is the one whose usage is read there. -/
theorem World.Sound.usageAt_eq (h : world.Sound) {ginfo : GroupInfo}
    (hmem : ginfo ∈ world.groups) : world.usageAt ginfo.addr = ginfo.usage := by
  unfold World.usageAt
  cases hfind : world.groups.find? (fun other => other.addr = ginfo.addr) with
  | none =>
      have := List.find?_eq_none.mp hfind ginfo hmem
      simp at this
  | some found =>
      rw [eq_of_find_addr h.placed hfind hmem rfl]
      rfl

/-! ### What a cycle adds -/

/-- A reading keeps the name. -/
theorem Session.name_read (jobs : List CycleJob) (session : Session) :
    (session.read jobs).name = session.name := by
  unfold Session.read
  cases reading jobs session.name with
  | none => rfl
  | some job => rfl

/-- A quantity that starts at zero and grows by `added` at a reading grows by that of the
current sessions. -/
theorem observe_sum {M : Type} [AddCommMonoid M] {quantity added : Session → M}
    {jobs running : List CycleJob}
    (hread : ∀ session, quantity (session.read jobs) = quantity session + added session)
    (hstart : ∀ job, quantity (Session.start job) = 0) (addr : ℕ) :
    (((meters.observe jobs running).of group addr).map quantity).sum
      = ((meters.of group addr).map quantity).sum +
        ((meters.current.filter (fun session => group session.name = addr)).map added).sum := by
  have hfilter : ∀ sessions : List Session,
      (((sessions.map (Session.read jobs)).filter
        (fun session => group session.name = addr)).map quantity).sum
      = ((sessions.filter (fun session => group session.name = addr)).map quantity).sum
        + ((sessions.filter (fun session => group session.name = addr)).map added).sum := by
    intro sessions
    rw [List.filter_map, List.map_map]
    have hsame : ((fun session : Session => decide (group session.name = addr)) ∘
        Session.read jobs) = fun session => decide (group session.name = addr) := by
      funext session
      rw [Function.comp_apply, Session.name_read]
    rw [hsame, ← List.sum_map_add]
    exact congrArg List.sum (List.map_congr_left fun session _ => hread session)
  have hnew : ∀ jobs' : List CycleJob, (((jobs'.map Session.start).filter
      (fun session => group session.name = addr)).map quantity).sum = 0 := by
    intro jobs'
    refine List.sum_eq_zero ?_
    intro x hx
    obtain ⟨session, hsession, rfl⟩ := List.mem_map.mp hx
    obtain ⟨job, -, rfl⟩ := List.mem_map.mp (List.mem_of_mem_filter hsession)
    exact hstart job
  -- the current sessions go on or are closed
  have hsplit := fun g : Session → M => ((((meters.current.filter_append_perm
    (Session.goesOn jobs running)).filter
      (fun session => group session.name = addr)).map g).sum_eq).symm
  unfold Meters.of Meters.observe
  simp only [List.filter_append, List.map_append, List.sum_append, hfilter, hnew, add_zero]
    at hsplit ⊢
  rw [hsplit quantity, hsplit added]
  abel

/-- What a group costs grows by what the meters of its jobs have gone on. -/
theorem amount_observe (jobs running : List CycleJob) (addr : ℕ) :
    (meters.observe jobs running).amount group rate addr = meters.amount group rate addr +
      ((meters.current.filter (fun session => group session.name = addr)).map
        (fun session => chargeFor rate jobs session.name session.last)).sum := by
  refine observe_sum (fun session => session.amount_read) ?_ addr
  intro job
  simp [Session.amount, Session.start]

/-- And so do the fractions that are cut off. -/
theorem cuts_observe (jobs running : List CycleJob) (addr : ℕ) :
    (meters.observe jobs running).cuts group rate addr = meters.cuts group rate addr +
      ((meters.current.filter (fun session => group session.name = addr)).map
        (fun session => cutFor rate jobs session.name)).sum := by
  refine observe_sum (fun session => session.cuts_read) ?_ addr
  intro job
  unfold Session.cuts
  split <;> rfl

/-- The sessions after a cycle were there before, or are of running jobs. -/
theorem observe_names {jobs running : List CycleJob} {session : Session}
    (h : session ∈ (meters.observe jobs running).current ++
      (meters.observe jobs running).closed) :
    (∃ old ∈ meters.current ++ meters.closed, old.name = session.name) ∨
      ∃ job ∈ running, job.jobId = session.name := by
  unfold Meters.observe at h
  simp only [List.mem_append, List.mem_map, List.mem_filter] at h
  rcases h with (⟨old, ⟨hold, -⟩, rfl⟩ | ⟨job, ⟨hjob, -⟩, rfl⟩) | (hold | ⟨old, ⟨hold, -⟩, rfl⟩)
  · exact Or.inl ⟨old, List.mem_append_left _ hold, (Session.name_read _ _).symm⟩
  · exact Or.inr ⟨job, hjob, rfl⟩
  · exact Or.inl ⟨session, List.mem_append_right _ hold, rfl⟩
  · exact Or.inl ⟨old, List.mem_append_left _ hold, (Session.name_read _ _).symm⟩

/-- The current sessions after a cycle are those of the running jobs, with the readings of these. -/
theorem observe_matched {jobs running : List CycleJob}
    (hnames : (meters.current.map Session.name).Nodup)
    (hjobs : (jobs.map CycleJob.jobId).Nodup) (hrunning : (running.map CycleJob.jobId).Nodup)
    (hsub : ∀ job ∈ running, job ∈ jobs) :
    ((meters.observe jobs running).current.map (fun session => (session.name, session.last))).Perm
      (running.map (fun job => (job.jobId, job.resused))) := by
  have hread : ∀ session : Session, session.goesOn jobs running = true →
      ∃ job ∈ running, job.jobId = session.name ∧ (session.read jobs).last = job.resused := by
    intro session hon
    unfold Session.goesOn at hon
    rw [Bool.and_eq_true, Option.isSome_iff_exists, List.contains_iff_mem] at hon
    obtain ⟨⟨job, hreading⟩, hmem⟩ := hon
    obtain ⟨other, hother, hname⟩ := List.mem_map.mp hmem
    obtain ⟨hjob, hname'⟩ := reading_spec hreading
    -- the number belongs to one job of the snapshot
    have hsame : other = job :=
      List.inj_on_of_nodup_map hjobs (hsub other hother) hjob (hname.trans hname'.symm)
    refine ⟨other, hother, hname, ?_⟩
    unfold Session.read
    rw [hreading, hsame]
  have hkeys : ((meters.observe jobs running).current.map Session.name).Nodup := by
    unfold Meters.observe
    dsimp only
    have hsame : Session.name ∘ Session.read jobs = Session.name :=
      funext (Session.name_read jobs)
    rw [List.map_append, List.map_map, List.map_map, hsame]
    refine List.Nodup.append ?_ ?_ ?_
    · exact hnames.sublist (List.filter_sublist.map Session.name)
    · exact hrunning.sublist (List.filter_sublist.map CycleJob.jobId)
    · intro name hon hnew
      obtain ⟨job, hjob, rfl⟩ := List.mem_map.mp hnew
      have hnot := (List.mem_filter.mp hjob).2
      rw [Bool.not_eq_true', ← Bool.not_eq_true, List.contains_iff_mem] at hnot
      exact hnot hon
  refine (List.perm_ext_iff_of_nodup ?_ ?_).mpr ?_
  · exact List.Nodup.of_map Prod.fst (by rw [List.map_map]; exact hkeys)
  · exact List.Nodup.of_map Prod.fst (by rw [List.map_map]; exact hrunning)
  rintro ⟨name, last⟩
  unfold Meters.observe
  simp only [List.map_append, List.map_map, List.mem_append, List.mem_map, List.mem_filter,
    Function.comp_apply, Prod.mk.injEq]
  constructor
  · rintro (⟨session, ⟨-, hon⟩, hname, hlast⟩ | ⟨job, ⟨hjob, -⟩, hname, hlast⟩)
    · obtain ⟨job, hjob, hid, hresused⟩ := hread session hon
      exact ⟨job, hjob, hid.trans ((Session.name_read _ _).symm.trans hname),
        hresused.symm.trans hlast⟩
    · exact ⟨job, hjob, hname, hlast⟩
  · rintro ⟨job, hjob, rfl, rfl⟩
    by_cases hon : job.jobId ∈
        (meters.current.filter (Session.goesOn jobs running)).map Session.name
    · obtain ⟨session, hsession, hname⟩ := List.mem_map.mp hon
      obtain ⟨hmem, hgoes⟩ := List.mem_filter.mp hsession
      obtain ⟨other, hother, hid, hresused⟩ := hread session hgoes
      have hsame : other = job :=
        List.inj_on_of_nodup_map hrunning hother hjob (hid.trans hname)
      refine Or.inl ⟨session, ⟨hmem, hgoes⟩, (Session.name_read _ _).trans hname, ?_⟩
      rw [hresused, hsame]
    · refine Or.inr ⟨job, ⟨hjob, ?_⟩, rfl, rfl⟩
      rw [Bool.not_eq_true', ← Bool.not_eq_true, List.contains_iff_mem]
      exact hon

/-- The invariant holds at the start. -/
theorem meterInv_start (htrees : world.trees = []) (hlast : world.lastRunning = []) :
    MeterInv group rate (fun _ => 0) world ⟨[], []⟩ := by
  have hgroups : world.groups = [] := by
    unfold World.groups
    rw [htrees]
    rfl
  refine ⟨⟨?_, ?_, ?_⟩, ?_, List.nodup_nil, ?_, by simp, ?_⟩
  · rw [htrees]
    exact List.nodup_nil
  · unfold World.Placed
    rw [hgroups]
    exact List.nodup_nil
  · rw [hgroups]
    simp
  · rw [hlast]
    exact List.Perm.refl _
  · rw [hlast]
    simp
  · rw [hgroups]
    simp

/-- What the records of a group add up to, its current sessions do. -/
theorem MeterInv.records_sum {M : Type} [AddCommMonoid M]
    (hinv : MeterInv group rate seen world meters) (f : String → ℤ → M) {addr : ℕ} :
    ((world.lastRunning.filter (fun record => record.ginfo = addr)).map
        (fun record => f record.name record.resused)).sum
      = ((meters.current.filter (fun session => group session.name = addr)).map
        (fun session => f session.name session.last)).sum := by
  have hpointed : world.lastRunning.filter (fun record => record.ginfo = addr)
      = world.lastRunning.filter (fun record => group record.name = addr) := by
    refine List.filter_congr fun record hrecord => ?_
    rw [hinv.pointed record hrecord]
  have hperm := ((hinv.matched.filter (fun pair => group pair.1 = addr)).map
    (fun pair => f pair.1 pair.2)).sum_eq
  rw [List.filter_map, List.filter_map, List.map_map, List.map_map] at hperm
  rw [hpointed]
  exact hperm.symm

/-- Before a group is charged, its usage is as the meters say; one that has just been seen has no
sessions. -/
theorem MeterInv.before {σ : World} (hinv : MeterInv group rate seen world meters)
    (hsound : σ.Sound) (hgrows : world.GrowsTo σ) {ginfo : GroupInfo} (hmem : ginfo ∈ σ.groups) :
    |(ginfo.usage : ℚ) - (((if ginfo.addr < world.next then seen ginfo.addr
        else σ.usageAt ginfo.addr : ℤ) : ℚ) + meters.amount group rate ginfo.addr)|
      ≤ meters.cuts group rate ginfo.addr := by
  rcases hgrows.came hmem with ⟨hle, -⟩ | ⟨old, hold, hcore⟩
  · have hempty : meters.of group ginfo.addr = [] := by
      unfold Meters.of
      rw [List.filter_eq_nil_iff]
      intro session hsession
      have := hinv.known session hsession
      simp only [decide_eq_true_eq]
      omega
    rw [if_neg (not_lt.mpr hle), hsound.usageAt_eq hmem]
    unfold Meters.amount Meters.cuts
    rw [hempty]
    simp
  · rw [← addr_of_core hcore, ← usage_of_core hcore, if_pos (hinv.sound.below old hold)]
    exact hinv.metered old hold

/-- A cycle keeps the invariant. -/
theorem MeterInv.cycle {σ σ₁ σ₂ : World} {conf : CycleConf} {jobs running : List (CycleJob × ℕ)}
    (hinv : MeterInv group rate seen world meters)
    (hmeets : Meets group rate conf world jobs running) (hfetched : Fetched world jobs σ)
    (hupdate : updateFairshare conf (jobs.reverse.map Prod.fst) σ = .ok σ₁)
    (hstarted : Started σ₁ σ₂) :
    MeterInv group rate (fun addr => if addr < world.next then seen addr else σ.usageAt addr)
      (updateLastRunning running σ₂)
      (meters.observe (jobs.reverse.map Prod.fst) (running.map Prod.fst)) := by
  obtain ⟨hgrows, hjobs⟩ := hfetched.spec hinv.sound
  have hsound := hinv.sound.grown hgrows
  have hsame := updateFairshare_sameGroups hupdate
  obtain ⟨hsame', holdUsage⟩ := hstarted.spec
  have hnext : σ₂.next = σ.next := hsame'.next_eq.trans hsame.next_eq
  have hsound₂ : (updateLastRunning running σ₂).Sound :=
    let h := (hsound.same hsame).same hsame'
    ⟨h.names, h.placed, h.below⟩
  have hids : ((jobs.reverse.map Prod.fst).map CycleJob.jobId).Nodup := by
    rw [List.map_map, List.map_reverse, List.nodup_reverse]
    exact hmeets.names
  have hrunningIds : ((running.map Prod.fst).map CycleJob.jobId).Nodup := by
    rw [List.map_map]
    exact hmeets.runningNames
  have hsub : ∀ job ∈ running.map Prod.fst, job ∈ jobs.reverse.map Prod.fst := by
    intro job hjob
    obtain ⟨entry, hentry, rfl⟩ := List.mem_map.mp hjob
    exact List.mem_map_of_mem (List.mem_reverse.mpr (hmeets.fetched entry hentry))
  have hmatched := observe_matched hinv.names hids hrunningIds hsub
  constructor
  case sound => exact hsound₂
  case matched =>
    unfold updateLastRunning
    dsimp only
    rw [List.map_map] at hmatched ⊢
    exact hmatched
  case names =>
    have hnodup := (hmatched.map Prod.fst).nodup_iff
    rw [List.map_map, List.map_map] at hnodup
    exact hnodup.mpr hrunningIds
  case pointed =>
    intro record hrecord
    obtain ⟨entry, hentry, rfl⟩ := List.mem_map.mp hrecord
    exact hmeets.groups entry (hmeets.fetched entry hentry)
  case known =>
    intro session hsession
    show group session.name < σ₂.next
    rw [hnext]
    rcases observe_names hsession with ⟨old, hold, hname⟩ | ⟨job, hjob, hname⟩
    · rw [← hname]
      exact (hinv.known old hold).trans_le hgrows.next_le
    · obtain ⟨entry, hentry, rfl⟩ := List.mem_map.mp hjob
      have hfetchedEntry := hmeets.fetched entry hentry
      obtain ⟨ginfo, hginfo, haddr⟩ := hjobs entry hfetchedEntry
      rw [← hname, ← hmeets.groups entry hfetchedEntry, ← haddr]
      exact hsound.below ginfo hginfo
  case metered =>
    intro ginfo hginfo
    obtain ⟨charged, hcharged, haddr, husage⟩ := holdUsage ginfo hginfo
    obtain ⟨n, hloop, hgroups⟩ := updateFairshare_groups hsound.placed hmeets.fairShare hupdate
    -- no decay is due
    have hnone : n = 0 := by
      rw [hgrows.lastDecay] at hloop
      cases hloop with
      | stop _ => rfl
      | round hdue _ => exact absurd hmeets.noDecay (not_le.mpr hdue)
    subst hnone
    rw [hgroups] at hcharged
    obtain ⟨old, hold, rfl⟩ := List.mem_map.mp hcharged
    dsimp only [Function.iterate_zero, id_eq] at haddr husage
    rw [← haddr, ← husage, hgrows.lastRunning]
    have hrates : ∀ job ∈ jobs.reverse.map Prod.fst, job.cost = some (rate job.jobId) := by
      intro job hjob
      obtain ⟨entry, hentry, rfl⟩ := List.mem_map.mp hjob
      exact hmeets.rates entry (List.mem_reverse.mp hentry)
    have hnear := chargedUsage_near hrates world.lastRunning old.addr old.usage
    rw [hinv.records_sum (chargeFor rate (jobs.reverse.map Prod.fst)),
      hinv.records_sum (fun name _ => cutFor rate (jobs.reverse.map Prod.fst) name)] at hnear
    have hbefore := hinv.before hsound hgrows hold
    rw [amount_observe, cuts_observe]
    unfold chargedUsage
    rw [abs_le] at hnear hbefore ⊢
    push_cast at hnear hbefore ⊢
    constructor <;> linarith

/-- And so every run does. -/
theorem FairRun.inv (hrun : FairRun group rate seen world meters) :
    MeterInv group rate seen world meters := by
  induction hrun with
  | start world htrees hlast => exact meterInv_start htrees hlast
  | cycle _ hmeets hfetched hupdate hstarted ih =>
      exact ih.cycle hmeets hfetched hupdate hstarted

/-- **The use of the jobs is charged as their meters say**: in every run between two decays, the
usage of a group is the one it was first seen with and the cost of the sessions of its jobs, up
to one for each fraction that was cut off. -/
theorem usage_is_metered (hrun : FairRun group rate seen world meters) {ginfo : GroupInfo}
    (hmem : ginfo ∈ world.groups) :
    |(ginfo.usage : ℚ) - (seen ginfo.addr + meters.amount group rate ginfo.addr)|
      ≤ meters.cuts group rate ginfo.addr :=
  hrun.inv.metered ginfo hmem

end Invariant

/-! ## A job of two cycles -/

/-- A job of the account that has run for so long. -/
def aliceJob (used : ℤ) : CycleJob where
  jobId := "1.server"
  state := .running
  fairshareTree := "default"
  account := "alice"
  resused := used
  calculatedFairshare := 0
  procs := some 2

/-- The scheduler before it has seen a job. -/
def startWorld : World := { savedWorld with trees := [], next := 0 }

/-- And after it has seen that one, with this usage of the account. -/
def aliceWorld (used usage : ℤ) : World :=
  { savedWorld with
    trees := [("default", savedTree.mapUsage (fun ginfo =>
      if ginfo.addr = 2 then (usage, usage) else (ginfo.usage, ginfo.tempUsage)))]
    lastRunning := [{ name := "1.server", account := "alice", ginfo := 2, resused := used }] }

/-- Snapshots with the one job. -/
theorem meets_alice (world : World) (used : ℤ) (hdecay : world.lastDecay = some 0) :
    Meets (fun _ => 2) (fun _ => 2) dayConf world [(aliceJob used, 2)] [(aliceJob used, 2)] where
  fairShare := rfl
  noDecay := by
    rw [hdecay]
    decide
  names := List.nodup_singleton _
  groups := by
    intro entry hentry
    rw [List.mem_singleton.mp hentry]
  rates := by
    intro entry hentry
    rw [List.mem_singleton.mp hentry]
    rfl
  fetched := fun entry hentry => hentry
  runningNames := List.nodup_singleton _

/-- The first cycle that sees it. -/
theorem fairRun_alice_first : FairRun (fun _ => 2) (fun _ => 2)
    (fun addr => if addr < 0 then 0 else savedWorld.usageAt addr) (aliceWorld 100 1000)
    ⟨[⟨"1.server", 100, 100, 0⟩], []⟩ := by
  obtain ⟨ginfo, hlookup, haddr⟩ : ∃ ginfo,
      startWorld.lookupGinfo (aliceJob 100).fairshareTree (aliceJob 100).account
        = .ok (ginfo, savedWorld) ∧ ginfo.addr = 2 := ⟨_, rfl, rfl⟩
  have hfetched : Fetched startWorld [(aliceJob 100, 2)] savedWorld :=
    haddr ▸ Fetched.start.fetch hlookup
  have hupdate : updateFairshare dayConf [aliceJob 100] savedWorld = .ok savedWorld := rfl
  exact (FairRun.start startWorld rfl rfl).cycle (meets_alice startWorld 100 rfl) hfetched hupdate
    Started.none

/-- The usage that the groups had when they were first seen, after two cycles. -/
def aliceSeen (addr : ℕ) : ℤ :=
  if addr < 3 then (if addr < 0 then 0 else savedWorld.usageAt addr)
  else (aliceWorld 100 1000).usageAt addr

/-- The meter of the job then. -/
def aliceMeters : Meters := ⟨[⟨"1.server", 100, 700, 1⟩], []⟩

/-- The account then. -/
def aliceGinfo : GroupInfo := ⟨2, "alice", 1, some 1, 2800, 2800⟩

/-- The second one, ten minutes later. -/
theorem fairRun_alice_second : FairRun (fun _ => 2) (fun _ => 2) aliceSeen (aliceWorld 700 2800)
    aliceMeters := by
  obtain ⟨ginfo, hlookup, haddr⟩ : ∃ ginfo,
      (aliceWorld 100 1000).lookupGinfo (aliceJob 700).fairshareTree (aliceJob 700).account
        = .ok (ginfo, aliceWorld 100 1000) ∧ ginfo.addr = 2 := ⟨_, rfl, rfl⟩
  have hfetched : Fetched (aliceWorld 100 1000) [(aliceJob 700, 2)] (aliceWorld 100 1000) :=
    haddr ▸ Fetched.start.fetch hlookup
  have hupdate : updateFairshare dayConf [aliceJob 700] (aliceWorld 100 1000)
      = .ok (aliceWorld 100 2800) := rfl
  exact fairRun_alice_first.cycle (meets_alice (aliceWorld 100 1000) 700 rfl) hfetched hupdate
    Started.none

/-- Its account is charged for the ten minutes between them, and for five more, twice: it has two
processors. -/
theorem usage_is_metered_alice : aliceSeen aliceGinfo.addr = 1000 ∧ aliceGinfo.usage = 2800 ∧
    |(aliceGinfo.usage : ℚ) - (aliceSeen aliceGinfo.addr +
        aliceMeters.amount (fun _ => 2) (fun _ => 2) aliceGinfo.addr)|
      ≤ aliceMeters.cuts (fun _ => 2) (fun _ => 2) aliceGinfo.addr := by
  have hmem : aliceGinfo ∈ (aliceWorld 700 2800).groups := by decide +kernel
  have hseen : aliceSeen aliceGinfo.addr = 1000 := by decide +kernel
  exact ⟨hseen, rfl, usage_is_metered fairRun_alice_second hmem⟩

end PlanSched.Fairshare
