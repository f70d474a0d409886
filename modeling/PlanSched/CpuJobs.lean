/-
# The jobs on the processors

Models the part of `query_server` (`server_info.cpp`) that fills `jobs_on_cpu` of a node from
the entries `c/jobid` the server reports, with `parse_head_number`, `parse_name_job_on_cpu`,
`find_job_name` and `assign_jobs_on_cpu`.

The search for a job goes on until it meets a `NULL` that the vector of jobs does not have, and
the slot written is the number of the entry, whatever the size of the node.

* `queryJobsOnCpu`: the table of a node, with every access checked;
* `jobs_mapped_iff`: the entries and jobs for which the table is right and no access is
  outside.
-/
import PlanSched.JobIdentity
import PlanSched.NodespecBuffers

namespace PlanSched

open CheckedRun CText NodespecText TextSearch

/-! ## The code -/

/-- `parse_name_job_on_cpu`: the text behind the first slash. -/
def parseNameJobOnCpu (jobOnCpu : List Char) : Run (List Char) :=
  match strchr '/' jobOnCpu with
  | some (_, behind) => .ok (behind.drop 1)
  | none => .error .badIndex

/-- The loop of `find_job_name` from the job `i`; the vector has no `NULL` at its end. -/
def searchJobName (jobName : List Char) : List JobInfo → Run (Option JobInfo)
  | [] => .error .badIndex
  | job :: rest =>
      if job.jobId.toList = jobName then .ok (some job) else searchJobName jobName rest

/-- `find_job_name`. -/
def findJobName (possibleJobs : List JobInfo) (jobName : List Char) : Run (Option JobInfo) :=
  if possibleJobs.isEmpty then .ok none else searchJobName jobName possibleJobs

/-- `assign_jobs_on_cpu`. -/
def assignJobsOnCpu (possibleJobs : List JobInfo) (jobsOnCpu : List (Option JobInfo))
    (jobOnCpu : List Char) : Run (List (Option JobInfo)) := do
  let jobName ← parseNameJobOnCpu jobOnCpu
  let job ← findJobName possibleJobs jobName
  let cpu := parseHeadNumber (String.ofList jobOnCpu)
  if cpu < 0 then .error .badIndex else setAt jobsOnCpu cpu.toNat job

/-- What `query_server` makes of the entries of a node; `none` is the null pointer of a node
without any. -/
def queryJobsOnCpu (coresTotal : ℕ) (jobs : List (List Char)) (scheduled : List JobInfo) :
    Run (Option (List (Option JobInfo))) :=
  if jobs.isEmpty then .ok none
  else (jobs.foldlM (assignJobsOnCpu scheduled) (List.replicate coresTotal none)).map some

/-! ## What the server reports -/

/-- An entry `c/jobid`, with the blanks in front of it. -/
structure CpuEntry where
  blanks : ℕ
  cpu : ℕ
  jobId : List Char
  deriving DecidableEq, Repr

/-- The text of an entry. -/
def CpuEntry.text (entry : CpuEntry) : List Char :=
  List.replicate entry.blanks ' ' ++ (Nat.toDigits 10 entry.cpu ++ '/' :: entry.jobId)

/-- The job of that id. -/
def jobNamed (jobs : List JobInfo) (jobId : List Char) : Option JobInfo :=
  jobs.find? (fun job => job.jobId.toList = jobId)

/-- The job a node lists for the slot `c`. -/
def listedOn (table : Option (List (Option JobInfo))) (c : ℕ) : Option JobInfo :=
  (table.bind (fun slots => slots[c]?)).join

/-- No access is outside, the table has a slot for every core, the slots of the entries have
their jobs and the others have none. -/
def JobsMapped (coresTotal : ℕ) (entries : List CpuEntry) (jobs : List JobInfo) : Prop :=
  ∃ table, queryJobsOnCpu coresTotal (entries.map CpuEntry.text) jobs = .ok table ∧
    (∀ slots ∈ table, slots.length = coresTotal) ∧
    (∀ entry ∈ entries, entry.cpu < coresTotal →
      listedOn table entry.cpu = jobNamed jobs entry.jobId) ∧
    (∀ c, (∀ entry ∈ entries, entry.cpu ≠ c) → listedOn table c = none)

/-- The slot that is written for an entry: its number, as far as an `int` reaches. -/
def CpuEntry.slot (entry : CpuEntry) : ℤ := toInt entry.cpu

/-- No entry behind this one is written into the same slot. -/
def LastForSlot (entries : List CpuEntry) (last : CpuEntry) : Prop :=
  ∃ front rest, entries = front ++ last :: rest ∧ ∀ entry ∈ rest, entry.slot ≠ last.slot

/-- Every entry is for a slot of the node, and there are no jobs at all, or every entry names a
job and the last one for a slot the same as all entries with the number of the slot, of which
there is one. -/
def EntriesFit (coresTotal : ℕ) (entries : List CpuEntry) (jobs : List JobInfo) : Prop :=
  (∀ entry ∈ entries, 0 ≤ entry.slot ∧ entry.slot < coresTotal) ∧
  (jobs = [] ∨
    (∀ entry ∈ entries, ∃ job ∈ jobs, job.jobId.toList = entry.jobId) ∧
    ∀ last, LastForSlot entries last →
      (∃ entry ∈ entries, (entry.cpu : ℤ) = last.slot) ∧
      ∀ entry ∈ entries, (entry.cpu : ℤ) = last.slot → entry.jobId = last.jobId)

/-! ## One entry -/

/-- The number of an entry is read. -/
theorem parseHeadNumber_text (entry : CpuEntry) :
    parseHeadNumber (String.ofList entry.text) = entry.slot := by
  have hdigits : ∀ c ∈ Nat.toDigits 10 entry.cpu, c.isDigit = true :=
    fun c hc => Nat.isDigit_of_mem_toDigits (by omega) (by omega) hc
  have hne : Nat.toDigits 10 entry.cpu ≠ [] := List.ne_nil_of_length_pos Nat.length_toDigits_pos
  have hfirst : (Nat.toDigits 10 entry.cpu).head? ≠ some ' ' := by
    intro hhead
    have hblank := hdigits ' ' (List.mem_of_mem_head? hhead)
    cases hblank
  have hall : ∀ c ∈ Nat.toDigits 10 entry.cpu, (c.isDigit || c == '-') = true := by
    intro c hc
    rw [hdigits c hc]
    rfl
  have hzero : (0 : ℤ) = toInt ((0 : ℕ) : ℤ) := rfl
  change (((String.ofList entry.text).toList.dropWhile (· == ' ')).takeWhile _).foldl headStep 0 = _
  rw [String.toList_ofList, CpuEntry.text, List.dropWhile_append_of_pos (by simp),
    headText '/' hne hfirst hall (by decide), hzero, foldl_headStep _ 0 hdigits]
  have hvalue := digitsValue_toDigits entry.cpu
  unfold digitsValue at hvalue
  rw [hvalue]
  rfl

/-- The name of an entry is read. -/
theorem parseNameJobOnCpu_text (entry : CpuEntry) :
    parseNameJobOnCpu entry.text = .ok entry.jobId := by
  have hslash : '/' ∉ List.replicate entry.blanks ' ' ++ Nat.toDigits 10 entry.cpu := by
    intro hmem
    rcases List.mem_append.mp hmem with hmem | hmem
    · have hblank := List.eq_of_mem_replicate hmem
      cases hblank
    · have hdigit := Nat.isDigit_of_mem_toDigits (by omega) (by omega) hmem
      cases hdigit
  unfold parseNameJobOnCpu CpuEntry.text
  rw [← List.append_assoc, strchr_append hslash]
  rfl

/-- The search ends well if the job is there. -/
theorem searchJobName_ok (jobName : List Char) (jobs : List JobInfo) {found : Option JobInfo} :
    searchJobName jobName jobs = .ok found ↔
      (∃ job ∈ jobs, job.jobId.toList = jobName) ∧ found = jobNamed jobs jobName := by
  induction jobs with
  | nil => simp [searchJobName]
  | cons job jobs ih =>
      unfold searchJobName jobNamed
      rw [List.find?_cons]
      by_cases hname : job.jobId.toList = jobName
      · simp only [hname, if_true, Except.ok.injEq, decide_true]
        constructor
        · intro h
          exact ⟨⟨job, List.mem_cons_self, hname⟩, h.symm⟩
        · intro h
          exact h.2.symm
      · simp only [hname, if_false, decide_false]
        rw [ih]
        simp [hname, jobNamed]

/-- Without jobs every search ends, with none. -/
theorem findJobName_ok (jobName : List Char) (jobs : List JobInfo) {found : Option JobInfo} :
    findJobName jobs jobName = .ok found ↔
      (jobs = [] ∨ ∃ job ∈ jobs, job.jobId.toList = jobName) ∧ found = jobNamed jobs jobName := by
  unfold findJobName
  by_cases hjobs : jobs = []
  · subst hjobs
    simp [jobNamed, eq_comm]
  · have hempty : ¬ jobs.isEmpty = true := by simpa using hjobs
    rw [if_neg hempty, searchJobName_ok]
    simp [hjobs]

/-- An entry writes its job into its slot. -/
theorem assignJobsOnCpu_ok {jobs : List JobInfo} {slots slots' : List (Option JobInfo)}
    {entry : CpuEntry} :
    assignJobsOnCpu jobs slots entry.text = .ok slots' ↔
      (0 ≤ entry.slot ∧ entry.slot < slots.length) ∧
      (jobs = [] ∨ ∃ job ∈ jobs, job.jobId.toList = entry.jobId) ∧
      slots' = slots.set entry.slot.toNat (jobNamed jobs entry.jobId) := by
  unfold assignJobsOnCpu
  rw [parseNameJobOnCpu_text, parseHeadNumber_text]
  simp only [bind_ok, Except.ok.injEq, exists_eq_left', findJobName_ok]
  by_cases hneg : entry.slot < 0
  · simp only [if_pos hneg]
    constructor
    · rintro ⟨found, -, hcontra⟩
      cases hcontra
    · intro h
      omega
  · simp only [if_neg hneg]
    constructor
    · rintro ⟨found, ⟨hfound, rfl⟩, hset⟩
      obtain ⟨hlt, rfl⟩ := setAt_ok.mp hset
      exact ⟨⟨by omega, by omega⟩, hfound, rfl⟩
    · rintro ⟨⟨hpos, hlt⟩, hfound, rfl⟩
      exact ⟨_, ⟨hfound, rfl⟩, setAt_ok.mpr ⟨by omega, rfl⟩⟩

/-! ## All entries -/

/-- The slots after the entries, one write each. -/
def written (jobs : List JobInfo) (entries : List CpuEntry) (slots : List (Option JobInfo)) :
    List (Option JobInfo) :=
  entries.foldl (fun slots entry => slots.set entry.slot.toNat (jobNamed jobs entry.jobId)) slots

/-- The writes keep the size. -/
theorem written_length (jobs : List JobInfo) (entries : List CpuEntry) :
    ∀ slots, (written jobs entries slots).length = slots.length := by
  induction entries with
  | nil =>
      intro slots
      rfl
  | cons entry entries ih =>
      intro slots
      show (written jobs entries _).length = _
      rw [ih, List.length_set]

/-- The loop over the entries returns exactly when every entry is for a slot and its job is
found. -/
theorem foldlM_assign_ok {jobs : List JobInfo} (entries : List CpuEntry) :
    ∀ {slots slots' : List (Option JobInfo)},
      (entries.map CpuEntry.text).foldlM (assignJobsOnCpu jobs) slots = .ok slots' ↔
        (∀ entry ∈ entries, (0 ≤ entry.slot ∧ entry.slot < slots.length) ∧
          (jobs = [] ∨ ∃ job ∈ jobs, job.jobId.toList = entry.jobId)) ∧
        slots' = written jobs entries slots := by
  induction entries with
  | nil =>
      intro slots slots'
      simp [written, pure, Except.pure, eq_comm]
  | cons entry entries ih =>
      intro slots slots'
      rw [List.map_cons, List.foldlM_cons, bind_ok]
      constructor
      · rintro ⟨slots₁, hstep, hrest⟩
        obtain ⟨hslot, hfound, rfl⟩ := assignJobsOnCpu_ok.mp hstep
        obtain ⟨hall, rfl⟩ := ih.mp hrest
        refine ⟨?_, rfl⟩
        intro e he
        rcases List.mem_cons.mp he with rfl | he
        · exact ⟨hslot, hfound⟩
        · simpa only [List.length_set] using hall e he
      · rintro ⟨hall, rfl⟩
        obtain ⟨hslot, hfound⟩ := hall entry List.mem_cons_self
        refine ⟨_, assignJobsOnCpu_ok.mpr ⟨hslot, hfound, rfl⟩, ih.mpr ⟨?_, rfl⟩⟩
        intro e he
        rw [List.length_set]
        exact hall e (List.mem_cons_of_mem entry he)

section Written

variable {jobs : List JobInfo} {entries : List CpuEntry} {slots : List (Option JobInfo)}

/-- A slot that no entry is for keeps its content. -/
theorem written_other {c : ℕ} (entries : List CpuEntry) :
    ∀ slots, (∀ entry ∈ entries, 0 ≤ entry.slot ∧ entry.slot ≠ c) →
      (written jobs entries slots)[c]? = slots[c]? := by
  induction entries with
  | nil =>
      intro slots _
      rfl
  | cons entry entries ih =>
      intro slots hother
      obtain ⟨hpos, hne⟩ := hother entry List.mem_cons_self
      show (written jobs entries _)[c]? = _
      rw [ih _ (fun e he => hother e (List.mem_cons_of_mem entry he)),
        List.getElem?_set_ne (by omega)]

/-- The last entry for a slot decides. -/
theorem written_last (hslots : ∀ entry ∈ entries, 0 ≤ entry.slot ∧ entry.slot < slots.length)
    {last : CpuEntry} (hlast : LastForSlot entries last) :
    (written jobs entries slots)[last.slot.toNat]? = some (jobNamed jobs last.jobId) := by
  obtain ⟨front, rest, rfl, hrest⟩ := hlast
  obtain ⟨hpos, hlt⟩ := hslots last (by simp)
  have hsplit : written jobs (front ++ last :: rest) slots =
      written jobs rest ((written jobs front slots).set last.slot.toNat
        (jobNamed jobs last.jobId)) := by
    unfold written
    rw [List.foldl_append, List.foldl_cons]
  rw [hsplit, written_other rest _ ?_]
  · rw [List.getElem?_set_self (by rw [written_length]; omega)]
  · intro entry hentry
    have hentrypos := (hslots entry (by simp [hentry])).1
    have hne := hrest entry hentry
    exact ⟨hentrypos, by omega⟩

/-- A slot that an entry is for has a last one. -/
theorem exists_lastForSlot {c : ℤ} (entries : List CpuEntry) :
    (∃ entry ∈ entries, entry.slot = c) → ∃ last, LastForSlot entries last ∧ last.slot = c := by
  induction entries with
  | nil =>
      rintro ⟨entry, hmem, -⟩
      cases hmem
  | cons e entries ih =>
      rintro ⟨entry, hmem, hslot⟩
      by_cases hbehind : ∃ e' ∈ entries, e'.slot = c
      · obtain ⟨last, ⟨front, rest, hsplit, hrest⟩, hlast⟩ := ih hbehind
        exact ⟨last, ⟨e :: front, rest, by rw [hsplit, List.cons_append], hrest⟩, hlast⟩
      · have hfirst : e = entry := by
          rcases List.mem_cons.mp hmem with rfl | hmem
          · rfl
          · exact absurd ⟨entry, hmem, hslot⟩ hbehind
        subst hfirst
        refine ⟨e, ⟨[], entries, rfl, ?_⟩, hslot⟩
        intro e' he' heq
        exact hbehind ⟨e', he', heq.trans hslot⟩

/-- Without jobs nothing is written. -/
theorem written_nil (entries : List CpuEntry) :
    ∀ slots : List (Option JobInfo), (∀ job ∈ slots, job = none) →
      ∀ job ∈ written [] entries slots, job = none := by
  induction entries with
  | nil =>
      intro slots hnone
      exact hnone
  | cons entry entries ih =>
      intro slots hnone
      refine ih _ ?_
      intro job hjob
      rcases List.mem_or_eq_of_mem_set hjob with hjob | rfl
      · exact hnone job hjob
      · rfl

end Written

/-- A job that is there is found under its id. -/
theorem jobNamed_eq_some {jobs : List JobInfo} {jobId : List Char}
    (h : ∃ job ∈ jobs, job.jobId.toList = jobId) :
    ∃ job, jobNamed jobs jobId = some job ∧ job.jobId.toList = jobId := by
  obtain ⟨job, hjob, hid⟩ := h
  cases hfind : jobNamed jobs jobId with
  | none =>
      have hnone := List.find?_eq_none.mp hfind job hjob
      exact absurd hid (by simpa using hnone)
  | some found => exact ⟨found, rfl, by simpa using List.find?_some hfind⟩

/-- What a node with entries lists for a slot. -/
theorem listedOn_some (slots : List (Option JobInfo)) (c : ℕ) :
    listedOn (some slots) c = slots[c]?.join := rfl

/-- The number of a slot of the node is its `int`. -/
theorem CpuEntry.slot_of_lt {entry : CpuEntry} {n : ℕ} (hn : n < 2 ^ 31)
    (h : entry.cpu < n) : entry.slot = entry.cpu := by
  unfold CpuEntry.slot toInt
  refine Int.bmod_eq_of_le ?_ ?_
  · omega
  · norm_num
    omega

/-- The last entry for a slot is an entry. -/
theorem LastForSlot.mem {entries : List CpuEntry} {last : CpuEntry}
    (h : LastForSlot entries last) : last ∈ entries := by
  obtain ⟨front, rest, rfl, -⟩ := h
  simp

/-- A node with entries goes through all of them. -/
theorem queryJobsOnCpu_entries {coresTotal : ℕ} {entries : List CpuEntry} (jobs : List JobInfo)
    {table : Option (List (Option JobInfo))} (hentries : entries ≠ []) :
    queryJobsOnCpu coresTotal (entries.map CpuEntry.text) jobs = .ok table ↔
      (∀ entry ∈ entries, (0 ≤ entry.slot ∧ entry.slot < coresTotal) ∧
        (jobs = [] ∨ ∃ job ∈ jobs, job.jobId.toList = entry.jobId)) ∧
      some (written jobs entries (List.replicate coresTotal none)) = table := by
  have hempty : ¬ (entries.map CpuEntry.text).isEmpty = true := by simpa using hentries
  unfold queryJobsOnCpu
  rw [if_neg hempty]
  constructor
  · intro hrun
    obtain ⟨slots, hloop, rfl⟩ := map_ok.mp hrun
    obtain ⟨hall, rfl⟩ := (foldlM_assign_ok entries).mp hloop
    rw [List.length_replicate] at hall
    exact ⟨hall, rfl⟩
  · rintro ⟨hall, rfl⟩
    refine map_ok.mpr ⟨_, (foldlM_assign_ok entries).mpr ⟨?_, rfl⟩, rfl⟩
    rw [List.length_replicate]
    exact hall

/-- Where the jobs are mapped exactly, the entries fit. -/
theorem entriesFit_of_mapped {coresTotal : ℕ} {entries : List CpuEntry} {jobs : List JobInfo}
    (hentries : entries ≠ []) (h : JobsMapped coresTotal entries jobs) :
    EntriesFit coresTotal entries jobs := by
  obtain ⟨table, hrun, -, hright, hnone⟩ := h
  obtain ⟨hall, rfl⟩ := (queryJobsOnCpu_entries jobs hentries).mp hrun
  refine ⟨fun entry hentry => (hall entry hentry).1, ?_⟩
  by_cases hjobs : jobs = []
  · exact Or.inl hjobs
  have hfound : ∀ entry ∈ entries, ∃ job ∈ jobs, job.jobId.toList = entry.jobId :=
    fun entry hentry => ((hall entry hentry).2).resolve_left hjobs
  refine Or.inr ⟨hfound, ?_⟩
  intro last hlast
  obtain ⟨hpos, hlt⟩ := (hall last hlast.mem).1
  -- the slot holds the job of the last entry for it
  obtain ⟨job, hjob, hid⟩ := jobNamed_eq_some (hfound last hlast.mem)
  have hcell : listedOn (some (written jobs entries (List.replicate coresTotal none)))
      last.slot.toNat = some job := by
    rw [listedOn_some, written_last (by
      rw [List.length_replicate]
      exact fun e he => (hall e he).1) hlast, hjob]
    rfl
  refine ⟨?_, ?_⟩
  · by_contra hno
    have hcontra := hnone last.slot.toNat (fun entry hentry heq =>
      hno ⟨entry, hentry, by omega⟩)
    rw [hcell] at hcontra
    cases hcontra
  · intro entry hentry heq
    have hsame := hright entry hentry (by omega)
    rw [show entry.cpu = last.slot.toNat by omega, hcell] at hsame
    obtain ⟨job', hjob', hid'⟩ := jobNamed_eq_some (hfound entry hentry)
    rw [hjob'] at hsame
    cases hsame
    rw [← hid, hid']

/-- Without jobs no slot gets one. -/
theorem listedOn_written_nil (coresTotal : ℕ) (entries : List CpuEntry) (c : ℕ) :
    listedOn (some (written [] entries (List.replicate coresTotal none))) c = none := by
  rw [listedOn_some]
  cases hcell : (written [] entries (List.replicate coresTotal none))[c]? with
  | none => rfl
  | some job =>
      have hjob := written_nil entries (List.replicate coresTotal none)
        (fun job hjob => List.eq_of_mem_replicate hjob) job (List.mem_of_getElem? hcell)
      rw [hjob]
      rfl

/-- Where the entries fit, the jobs are mapped exactly. -/
theorem mapped_of_entriesFit {coresTotal : ℕ} (hcores : coresTotal < 2 ^ 31)
    {entries : List CpuEntry} {jobs : List JobInfo} (hentries : entries ≠ [])
    (h : EntriesFit coresTotal entries jobs) : JobsMapped coresTotal entries jobs := by
  obtain ⟨hrange, hfits⟩ := h
  have hnamed : ∀ entry ∈ entries, jobs = [] ∨ ∃ job ∈ jobs, job.jobId.toList = entry.jobId := by
    intro entry hentry
    rcases hfits with hjobs | ⟨hfound, -⟩
    · exact Or.inl hjobs
    · exact Or.inr (hfound entry hentry)
  refine ⟨_, (queryJobsOnCpu_entries jobs hentries).mpr
    ⟨fun entry hentry => ⟨hrange entry hentry, hnamed entry hentry⟩, rfl⟩, ?_, ?_⟩
  · intro slots hslots
    cases hslots
    rw [written_length, List.length_replicate]
  rcases hfits with rfl | ⟨hfound, hlast⟩
  · -- nothing is ever written
    exact ⟨fun entry _ _ => listedOn_written_nil coresTotal entries entry.cpu,
      fun c _ => listedOn_written_nil coresTotal entries c⟩
  · have hslot : ∀ entry ∈ entries, 0 ≤ entry.slot ∧
        entry.slot < (List.replicate coresTotal (none : Option JobInfo)).length := by
      rw [List.length_replicate]
      exact hrange
    refine ⟨?_, ?_⟩
    · intro entry hentry hlt
      obtain ⟨last, hlastFor, heq⟩ := exists_lastForSlot entries ⟨entry, hentry, rfl⟩
      have hcpu := CpuEntry.slot_of_lt hcores hlt
      have hid := (hlast last hlastFor).2 entry hentry (by omega)
      rw [show entry.cpu = last.slot.toNat by omega, listedOn_some,
        written_last hslot hlastFor, hid]
      rfl
    · intro c hother
      by_cases hwritten : ∃ entry ∈ entries, entry.slot = c
      · obtain ⟨last, hlastFor, heq⟩ := exists_lastForSlot entries hwritten
        obtain ⟨entry, hentry, hcpu⟩ := (hlast last hlastFor).1
        exact absurd (by omega) (hother entry hentry)
      · rw [listedOn_some, written_other entries _ (fun entry hentry =>
          ⟨(hslot entry hentry).1, fun heq => hwritten ⟨entry, hentry, heq⟩⟩),
          List.getElem?_replicate]
        split
        · rfl
        · rfl

/-- The jobs reported on the processors of a node are mapped exactly, without an access
outside, if and only if the entries fit. -/
theorem jobs_mapped_iff {coresTotal : ℕ} (hcores : coresTotal < 2 ^ 31)
    (entries : List CpuEntry) (jobs : List JobInfo) :
    JobsMapped coresTotal entries jobs ↔ EntriesFit coresTotal entries jobs := by
  by_cases hentries : entries = []
  · -- without entries there is no table
    subst hentries
    refine iff_of_true ⟨none, rfl, by simp, by simp, fun _ _ => rfl⟩
      ⟨by simp, Or.inr ⟨by simp, ?_⟩⟩
    intro last hlast
    cases hlast.mem
  · exact ⟨entriesFit_of_mapped hentries, mapped_of_entriesFit hcores hentries⟩

/-- A job of that id. -/
def jobOfId (jobId : String) : JobInfo := { (default : JobInfo) with jobId := jobId }

/-- A node of two cores with a scheduled job on the second one. -/
theorem jobs_mapped_second_core :
    JobsMapped 2 [⟨0, 1, "7.server".toList⟩] [jobOfId "7.server"] := by
  refine (jobs_mapped_iff (by norm_num) _ _).mpr ⟨?_, Or.inr ⟨?_, ?_⟩⟩
  · intro entry hentry
    rw [List.mem_singleton] at hentry
    subst hentry
    decide
  · intro entry hentry
    rw [List.mem_singleton] at hentry
    subst hentry
    exact ⟨_, List.mem_singleton_self _, rfl⟩
  · rintro last ⟨front, rest, hsplit, -⟩
    have hlast : last ∈ [(⟨0, 1, "7.server".toList⟩ : CpuEntry)] := by rw [hsplit]; simp
    rw [List.mem_singleton] at hlast
    subst hlast
    refine ⟨⟨_, List.mem_singleton_self _, rfl⟩, ?_⟩
    intro entry hentry _
    rw [List.mem_singleton] at hentry
    rw [hentry]

/-- The search for a job that is not scheduled runs past the jobs, and the entry of a core that
the node does not have is written past the slots. -/
theorem jobs_not_mapped :
    ¬ JobsMapped 1 [⟨0, 0, "7.server".toList⟩] [jobOfId "8.server"] ∧
    ¬ JobsMapped 1 [⟨0, 1, "7.server".toList⟩] [jobOfId "7.server"] := by
  have hmiss : queryJobsOnCpu 1 [CpuEntry.text ⟨0, 0, "7.server".toList⟩] [jobOfId "8.server"] =
      .error .badIndex := by decide +kernel
  have houtside : queryJobsOnCpu 1 [CpuEntry.text ⟨0, 1, "7.server".toList⟩]
      [jobOfId "7.server"] = .error .badIndex := by decide +kernel
  refine ⟨?_, ?_⟩
  · rintro ⟨table, hrun, -⟩
    rw [List.map_singleton, hmiss] at hrun
    cases hrun
  · rintro ⟨table, hrun, -⟩
    rw [List.map_singleton, houtside] at hrun
    cases hrun

end PlanSched
