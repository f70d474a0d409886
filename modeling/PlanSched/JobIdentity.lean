/-
# The number of a job as its identity

The plan knows a job by the number `parse_head_number` reads from its id: the digits of
the job number and of the array index one after the other, without the server, in an
`int`.  Jobs of one server, of an array and of other servers come together in one
snapshot.

* `parseHeadNumber_eq`: what is read from an id `N.server` or `N-M.server`;
* `identities_kept_iff`: the plan never takes one job for another exactly if the numbers
  of different ids, read that way, differ modulo `2 ^ 32`.
-/
import PlanSched.KnownJobs
import PlanSched.CText

namespace PlanSched

open CheckedRun CText

/-! ## What is read from an id -/

/-- A decimal number: one or more digits. -/
def IsDecimal (digits : List Char) : Prop := digits ≠ [] ∧ ∀ c ∈ digits, c.isDigit = true

/-- The id is `N.server` or `N-M.server`; the number is that of the digits of `N` and `M`
one after the other. -/
inductive NumberedId (id : String) : ℕ → Prop
  | single (head : List Char) (server : String) (hhead : IsDecimal head)
      (htext : id.toList = head ++ '.' :: server.toList) : NumberedId id (digitsValue 10 head)
  | array (head index : List Char) (server : String) (hhead : IsDecimal head)
      (hindex : IsDecimal index)
      (htext : id.toList = head ++ '-' :: (index ++ '.' :: server.toList)) :
      NumberedId id (digitsValue 10 head * 10 ^ index.length + digitsValue 10 index)

/-- Reading digits on from a number. -/
theorem foldl_digits (base : ℕ) (digits : List Char) :
    ∀ n : ℕ, digits.foldl (fun n c => n * base + digitValue c) n
      = n * base ^ digits.length + digitsValue base digits := by
  unfold digitsValue
  induction digits with
  | nil =>
      intro n
      simp
  | cons c digits ih =>
      intro n
      rw [List.foldl_cons, List.foldl_cons, ih, ih (0 * base + digitValue c), List.length_cons]
      ring

/-- One step of `parse_head_number`. -/
def headStep (cpu : ℤ) (c : Char) : ℤ :=
  if c == '-' then cpu else toInt (toInt (cpu * 10) + ((c.toNat : ℤ) - 48))

/-- A digit is appended, as far as an `int` reaches. -/
theorem headStep_digit {c : Char} (hc : c.isDigit = true) (x : ℤ) :
    headStep (toInt x) c = toInt (x * 10 + digitValue c) := by
  have hdash : (c == '-') = false := by
    rw [beq_eq_false_iff_ne]
    rintro rfl
    cases hc
  have hvalue : ((c.toNat : ℤ) - 48) = (digitValue c : ℤ) := by
    have hlow : 48 ≤ c.toNat := by
      rw [Char.isDigit_iff_toNat] at hc
      exact hc.1
    unfold digitValue
    rw [if_pos hc, Nat.cast_sub hlow]
    rfl
  unfold headStep
  rw [hdash, hvalue]
  simp only [Bool.false_eq_true, if_false]
  unfold toInt
  rw [Int.bmod_add_bmod, ← Int.bmod_add_bmod, Int.bmod_mul_bmod, Int.bmod_add_bmod]

/-- Digits are read into an `int`. -/
theorem foldl_headStep (digits : List Char) :
    ∀ n : ℕ, (∀ c ∈ digits, c.isDigit = true) →
      digits.foldl headStep (toInt n)
        = toInt (digits.foldl (fun n c => n * 10 + digitValue c) n : ℕ) := by
  induction digits with
  | nil =>
      intro n _
      rw [List.foldl_nil, List.foldl_nil]
  | cons c digits ih =>
      intro n hdigits
      have hstep : headStep (toInt n) c = toInt ((n * 10 + digitValue c : ℕ) : ℤ) := by
        rw [headStep_digit (hdigits c List.mem_cons_self)]
        push_cast
        rfl
      rw [List.foldl_cons, List.foldl_cons, hstep]
      exact ih _ (fun d hd => hdigits d (List.mem_cons_of_mem _ hd))

/-- What is taken from a text are the characters up to one that is no digit and no dash. -/
theorem headText {text rest : List Char} (stop : Char) (hne : text ≠ [])
    (hfirst : text.head? ≠ some ' ') (hall : ∀ c ∈ text, (c.isDigit || c == '-') = true)
    (hstop : ¬ (stop.isDigit || stop == '-') = true) :
    ((text ++ stop :: rest).dropWhile (· == ' ')).takeWhile (fun c => c.isDigit || c == '-')
      = text := by
  have hdrop : (text ++ stop :: rest).dropWhile (· == ' ') = text ++ stop :: rest := by
    cases text with
    | nil => exact absurd rfl hne
    | cons c text =>
        rw [List.cons_append, List.dropWhile_cons, if_neg]
        intro hc
        exact hfirst (by rw [List.head?_cons, eq_of_beq hc])
  rw [hdrop, List.takeWhile_append_of_pos hall, List.takeWhile_cons, if_neg hstop,
    List.append_nil]

/-- `parse_head_number` of an id of either form. -/
theorem parseHeadNumber_eq {id : String} {n : ℕ} (h : NumberedId id n) :
    parseHeadNumber id = toInt n := by
  have hdigit : ∀ {digits : List Char}, IsDecimal digits →
      ∀ c ∈ digits, (c.isDigit || c == '-') = true := by
    intro digits hdigits c hc
    rw [hdigits.2 c hc]
    rfl
  have hblank : ∀ (digits more : List Char), IsDecimal digits →
      (digits ++ more).head? ≠ some ' ' := by
    intro digits more hdigits
    cases digits with
    | nil => exact absurd rfl hdigits.1
    | cons c digits =>
        rw [List.cons_append, List.head?_cons]
        intro heq
        cases heq
        cases hdigits.2 _ List.mem_cons_self
  have hzero : (0 : ℤ) = toInt ((0 : ℕ) : ℤ) := rfl
  change ((id.toList.dropWhile (· == ' ')).takeWhile _).foldl headStep 0 = _
  cases h with
  | single head server hhead htext =>
      have hfirst := hblank head [] hhead
      rw [List.append_nil] at hfirst
      rw [htext, headText '.' hhead.1 hfirst (hdigit hhead) (by decide), hzero,
        foldl_headStep head 0 hhead.2]
      rfl
  | array head index server hhead hindex htext =>
      have htext' : id.toList = (head ++ '-' :: index) ++ '.' :: server.toList := by
        rw [htext, List.append_assoc, List.cons_append]
      have hall : ∀ c ∈ head ++ '-' :: index, (c.isDigit || c == '-') = true := by
        intro c hc
        rcases List.mem_append.mp hc with hc | hc
        · exact hdigit hhead c hc
        · rcases List.mem_cons.mp hc with rfl | hc
          · rfl
          · exact hdigit hindex c hc
      rw [htext', headText '.' (by simp) (hblank head _ hhead) hall (by decide),
        List.foldl_append, List.foldl_cons, hzero, foldl_headStep head 0 hhead.2]
      -- the dash is passed over, and the digits on both sides are read as one number
      have hdash : ∀ x : ℤ, headStep x '-' = x := fun x => rfl
      rw [hdash, foldl_headStep index _ hindex.2, foldl_digits 10 index]
      rfl

/-- Two numbers in an `int` are the same exactly if they agree modulo `2 ^ 32`. -/
theorem toInt_eq_iff (m n : ℕ) : toInt m = toInt n ↔ m % 2 ^ 32 = n % 2 ^ 32 := by
  unfold toInt
  constructor
  · intro h
    have hmod := congrArg (· % ((2 ^ 32 : ℕ) : ℤ)) h
    simp only [Int.bmod_emod] at hmod
    exact_mod_cast hmod
  · intro h
    rw [← Int.emod_bmod (m : ℤ), ← Int.emod_bmod (n : ℤ)]
    congr 1
    exact_mod_cast h

/-! ## Identities -/

/-- The ids in play: those the jobs of the plan were made for, and those reported. -/
def idsOf (plan : List (List KnownJob)) (jobs : List JobInfo) : List String :=
  plan.flatten.map KnownJob.createdFor ++ jobs.map JobInfo.jobId

/-- The plan never takes one job for another. -/
structure IdentitiesKept (plan : List (List KnownJob)) (jobs : List JobInfo) : Prop where
  /-- different ids have different numbers -/
  numbers : ∀ a ∈ idsOf plan jobs, ∀ b ∈ idsOf plan jobs, a ≠ b →
    parseHeadNumber a ≠ parseHeadNumber b
  /-- a job is bound to none but the job it was made for -/
  bound : ∀ (conf : JobsConf) (cycle : ℕ) (timeNow : ℤ) (state : KnownState),
    (∀ known ∈ plan.flatten, known.cycle ≠ cycle) →
    planKnownJobsUpdate conf cycle timeNow jobs plan = .ok state →
    ∀ known ∈ state.plan.flatten, known.cycle = cycle →
      known.job.jinfo.jobId = known.createdFor
  /-- a job passes for known only if the plan has a job made for it -/
  known : ∀ (conf : JobsConf) (cycle : ℕ) (timeNow : ℤ) (past future : List JobInfo)
    (jinfo : JobInfo) (state : KnownState) (plan' : List (List KnownJob)),
    jobs = past ++ jinfo :: future →
    planKnownJobsUpdate conf cycle timeNow past plan = .ok state →
    rebindInPlan cycle timeNow jinfo state.plan = .ok (some plan') →
    ∃ k ∈ plan.flatten, k.createdFor = jinfo.jobId

/-- The numbers of different ids differ modulo `2 ^ 32`. -/
def NumbersDiffer (ids : List String) : Prop :=
  ∀ a ∈ ids, ∀ b ∈ ids, a ≠ b → ∀ m n, NumberedId a m → NumberedId b n →
    m % 2 ^ 32 ≠ n % 2 ^ 32

/-- The search brings in no job. -/
theorem SearchedPlan.origin {cycle : ℕ} {timeNow : ℤ} {jinfo : JobInfo}
    {jobs jobs' : List KnownJob} {isFound : Bool}
    (h : SearchedPlan cycle timeNow jinfo jobs jobs' isFound) :
    ∀ known ∈ jobs', ∃ k ∈ jobs, k.createdFor = known.createdFor := by
  intro known hknown
  cases h with
  | missing _ => exact ⟨known, hknown, rfl⟩
  | found before after k rest hsplit _ _ hrest =>
      rcases List.mem_append.mp hknown with hknown | hknown
      · rcases List.mem_append.mp hknown with hknown | hknown
        · exact ⟨known, by simp [hsplit, hknown], rfl⟩
        · rcases hrest with rfl | ⟨k', hrebind, rfl⟩
          · cases hknown
          · rw [List.mem_singleton.mp hknown]
            exact ⟨k, by simp [hsplit], (KnownJob.rebind_spec hrebind).2.1.symm⟩
      · exact ⟨known, by simp [hsplit, hknown], rfl⟩

/-- Nor does `plan_known_jobs_update`. -/
theorem planKnownJobsUpdate_origin {conf : JobsConf} {cycle : ℕ} {timeNow : ℤ}
    {jobs : List JobInfo} {plan : List (List KnownJob)} {state : KnownState}
    (h : planKnownJobsUpdate conf cycle timeNow jobs plan = .ok state) :
    ∀ known ∈ state.plan.flatten, ∃ k ∈ plan.flatten, k.createdFor = known.createdFor := by
  refine foldlM_invariant (fun st : KnownState => ∀ known ∈ st.plan.flatten,
    ∃ k ∈ plan.flatten, k.createdFor = known.createdFor) _ jobs _ _ ?_ ?_ h
  · intro st jinfo st' _ hinv hstep known hknown
    obtain ⟨isFound, hsearch⟩ := updateKnownJob_searched hstep
    obtain ⟨k, hk, heq⟩ := hsearch.origin known hknown
    obtain ⟨k₀, hk₀, heq₀⟩ := hinv k hk
    exact ⟨k₀, hk₀, heq₀.trans heq⟩
  · intro known hknown
    exact ⟨known, hknown, rfl⟩

/-- The job found for a reported job, where no other job has its number. -/
theorem SearchedPlan.own {cycle : ℕ} {timeNow : ℤ} {jinfo : JobInfo}
    {jobs jobs' : List KnownJob} {isFound : Bool}
    (hnumber : ∀ k ∈ jobs, parseHeadNumber k.createdFor = jinfo.number →
      k.createdFor = jinfo.jobId)
    (h : SearchedPlan cycle timeNow jinfo jobs jobs' isFound) :
    (isFound = true → ∃ k ∈ jobs, k.createdFor = jinfo.jobId) ∧
      ((∀ k ∈ jobs, k.cycle = cycle → k.job.jinfo.jobId = k.createdFor) →
        ∀ k ∈ jobs', k.cycle = cycle → k.job.jinfo.jobId = k.createdFor) := by
  cases h with
  | missing _ => exact ⟨fun hfound => absurd hfound (by decide), fun hinv => hinv⟩
  | found before after known rest hsplit hbefore hid hrest =>
      have hknown : known ∈ jobs := by
        rw [hsplit]
        simp
      have hown : known.createdFor = jinfo.jobId := by
        refine hnumber known hknown ?_
        rw [← known.jobId_eq]
        exact hid
      refine ⟨fun _ => ⟨known, hknown, hown⟩, ?_⟩
      intro hinv k hk
      rcases List.mem_append.mp hk with hk | hk
      · rcases List.mem_append.mp hk with hk | hk
        · exact hinv k (by simp [hsplit, hk])
        · rcases hrest with rfl | ⟨known', hrebind, rfl⟩
          · cases hk
          · obtain ⟨-, hcreated, -, hjob⟩ := KnownJob.rebind_spec hrebind
            rw [List.mem_singleton.mp hk, hcreated, hjob]
            exact fun _ => hown.symm
      · exact hinv k (by simp [hsplit, hk])

/-- Where numbers identify jobs, so does the plan. -/
theorem identitiesKept_of_numbers {plan : List (List KnownJob)} {jobs : List JobInfo}
    (hnumbers : ∀ a ∈ idsOf plan jobs, ∀ b ∈ idsOf plan jobs, a ≠ b →
      parseHeadNumber a ≠ parseHeadNumber b) : IdentitiesKept plan jobs := by
  -- in every state on the way, a job of the reported job's number was made for it
  have hown : ∀ (conf : JobsConf) (cycle : ℕ) (timeNow : ℤ) (past : List JobInfo)
      (state : KnownState), planKnownJobsUpdate conf cycle timeNow past plan = .ok state →
      ∀ jinfo ∈ jobs, ∀ k ∈ state.plan.flatten, parseHeadNumber k.createdFor = jinfo.number →
        k.createdFor = jinfo.jobId := by
    intro conf cycle timeNow past state h jinfo hjinfo k hk heq
    by_contra hne
    obtain ⟨k₀, hk₀, hcreated⟩ := planKnownJobsUpdate_origin h k hk
    have hmem : jinfo.jobId ∈ jobs.map JobInfo.jobId := List.mem_map_of_mem hjinfo
    have hmem₀ : k.createdFor ∈ plan.flatten.map KnownJob.createdFor :=
      hcreated ▸ List.mem_map_of_mem hk₀
    exact hnumbers _ (List.mem_append_left _ hmem₀) _ (List.mem_append_right _ hmem) hne heq
  refine ⟨hnumbers, ?_, ?_⟩
  · intro conf cycle timeNow state hcycle h
    have hrun : ∀ past future, jobs = past ++ future → ∀ st,
        planKnownJobsUpdate conf cycle timeNow past plan = .ok st →
        ∀ k ∈ st.plan.flatten, k.cycle = cycle → k.job.jinfo.jobId = k.createdFor := by
      intro past
      induction past using List.reverseRecOn with
      | nil =>
          intro future _ st hst k hk heq
          cases hst
          exact absurd heq (hcycle k hk)
      | append_singleton past jinfo ih =>
          intro future hsplit st hst
          rw [List.append_assoc, List.singleton_append] at hsplit
          unfold planKnownJobsUpdate at hst
          rw [List.foldlM_append] at hst
          obtain ⟨st₀, hst₀, hst⟩ := bind_ok.mp hst
          rw [List.foldlM_cons] at hst
          obtain ⟨st₁, hst₁, hst⟩ := bind_ok.mp hst
          rw [List.foldlM_nil] at hst
          rw [← pure_ok.mp hst]
          obtain ⟨isFound, hsearch⟩ := updateKnownJob_searched hst₁
          have hmem : jinfo ∈ jobs := by
            rw [hsplit]
            simp
          exact (hsearch.own (hown conf cycle timeNow past st₀ hst₀ jinfo hmem)).2
            (ih _ hsplit st₀ hst₀)
    exact hrun jobs [] (List.append_nil jobs).symm state h
  · intro conf cycle timeNow past future jinfo state plan' hsplit h hfound
    have hmem : jinfo ∈ jobs := by
      rw [hsplit]
      simp
    have hsearch := rebindInPlan_searched state.plan hfound
    obtain ⟨k, hk, heq⟩ := (hsearch.own (hown conf cycle timeNow past state h jinfo hmem)).1 rfl
    obtain ⟨k₀, hk₀, hcreated⟩ := planKnownJobsUpdate_origin h k hk
    exact ⟨k₀, hk₀, hcreated.trans heq⟩

/-- For every plan and every snapshot with ids of the two forms: the plan never takes one
job for another exactly if the numbers of different ids differ modulo `2 ^ 32`. -/
theorem identities_kept_iff (plan : List (List KnownJob)) (jobs : List JobInfo)
    (hforms : ∀ id ∈ idsOf plan jobs, ∃ n, NumberedId id n) :
    IdentitiesKept plan jobs ↔ NumbersDiffer (idsOf plan jobs) := by
  constructor
  · intro hkept a ha b hb hne m n hm hn heq
    refine hkept.numbers a ha b hb hne ?_
    rw [parseHeadNumber_eq hm, parseHeadNumber_eq hn, toInt_eq_iff]
    exact heq
  · intro hdiffer
    refine identitiesKept_of_numbers ?_
    intro a ha b hb hne heq
    obtain ⟨m, hm⟩ := hforms a ha
    obtain ⟨n, hn⟩ := hforms b hb
    refine hdiffer a ha b hb hne m n hm hn ?_
    rw [parseHeadNumber_eq hm, parseHeadNumber_eq hn, toInt_eq_iff] at heq
    exact heq

/-- A planned job that is reported again, and a job of an array of another server. -/
theorem identities_kept_two : IdentitiesKept [[KnownJob.madeFor 0 (reportedJob "7.meta")]]
    [reportedJob "7.meta", reportedJob "8-1.elixir"] := by
  have hids : idsOf [[KnownJob.madeFor 0 (reportedJob "7.meta")]]
      [reportedJob "7.meta", reportedJob "8-1.elixir"] = ["7.meta", "7.meta", "8-1.elixir"] := rfl
  have hdigit : ∀ c : Char, c.isDigit = true → IsDecimal [c] := by
    intro c hc
    refine ⟨by simp, ?_⟩
    intro d hd
    rw [List.mem_singleton.mp hd]
    exact hc
  have hseven : NumberedId "7.meta" 7 := .single ['7'] "meta" (hdigit _ rfl) (by decide)
  have height : NumberedId "8-1.elixir" 81 :=
    .array ['8'] ['1'] "elixir" (hdigit _ rfl) (hdigit _ rfl) (by decide)
  refine (identities_kept_iff _ _ ?_).mpr ?_
  · rw [hids]
    intro id hid
    simp only [List.mem_cons, List.not_mem_nil, or_false, or_self_left] at hid
    rcases hid with rfl | rfl
    · exact ⟨7, hseven⟩
    · exact ⟨81, height⟩
  · have hnumbers : ∀ a ∈ ["7.meta", "7.meta", "8-1.elixir"],
        ∀ b ∈ ["7.meta", "7.meta", "8-1.elixir"], a ≠ b →
          parseHeadNumber a ≠ parseHeadNumber b := by decide +kernel
    rw [hids]
    intro a ha b hb hne m n hm hn
    rw [Ne, ← toInt_eq_iff, ← parseHeadNumber_eq hm, ← parseHeadNumber_eq hn]
    exact hnumbers a ha b hb hne

/-- The job planned for the second job of array 1 is bound to job 12. -/
theorem identities_confused : ¬ IdentitiesKept
    [[KnownJob.madeFor 0 (reportedJob "1-2.meta")]] [reportedJob "12.meta"] := by
  have hrun : (planKnownJobsUpdate smallConf 1 1100 [reportedJob "12.meta"]
      [[KnownJob.madeFor 0 (reportedJob "1-2.meta")]] >>= fun state =>
        pure (state.plan.flatten.map (fun k => (k.cycle, k.job.jinfo.jobId, k.createdFor))))
      = .ok [(1, "12.meta", "1-2.meta")] := by
    decide +kernel
  obtain ⟨state, hstate, hplan⟩ := bind_ok.mp hrun
  have hmem : (1, "12.meta", "1-2.meta") ∈
      state.plan.flatten.map (fun k => (k.cycle, k.job.jinfo.jobId, k.createdFor)) := by
    rw [pure_ok.mp hplan]
    exact List.mem_singleton.mpr rfl
  obtain ⟨k, hk, heq⟩ := List.mem_map.mp hmem
  obtain ⟨hcycle, hjob, hcreated⟩ : k.cycle = 1 ∧ k.job.jinfo.jobId = "12.meta" ∧
      k.createdFor = "1-2.meta" := by
    simpa using heq
  intro hkept
  have hown := hkept.bound smallConf 1 1100 state (by simp [KnownJob.madeFor]) hstate k hk hcycle
  rw [hjob, hcreated] at hown
  exact absurd hown (by decide)

end PlanSched
