/-
# The configured job order

`sort.cpp`: the table of sorts with their comparators, `multi_sort`, which goes through the keys of
the configuration, and `cmp_sort`, which `init_scheduling_cycle` hands to `std::sort`.  `multi_sort`
is itself an entry of the table, so it can be one of its own keys and call itself; `callCmp` counts
the depth of the calls.

The percentage of a group is a `float` and can be no number (a group of siblings without shares
divides zero by zero), and then it is neither more nor less than any other.

* `multiSort_returns`: the loop is the lexicographic order of the keys in front of the first
  `no_sort`, and `callCmp_multiSort`: it does not end on a job and itself if `multi_sort` is one;
* `keyLess_strictWeakOn` and `fairShare_partialKey`: each key on its own;
* `job_order_iff`: when the comparator ends and is a strict weak order.
-/
import PlanSched.KeyLines
import PlanSched.WeakOrders

namespace PlanSched

open CheckedRun CText WeakOrders

/-! ## The table of sorts -/

/-- `enum sort_type`. -/
inductive SortType : Type where
  | noSort
  | shortestJobFirst
  | longestJobFirst
  | smallestMemFirst
  | largestMemFirst
  | highPriorityFirst
  | lowPriorityFirst
  | largeWalltimeFirst
  | shortWalltimeFirst
  | fairShare
  | multiSort
  deriving DecidableEq, Repr

/-- The `sort_type`s of `sorting_info`. -/
def sortTypes : List SortType :=
  [.noSort, .shortestJobFirst, .longestJobFirst, .smallestMemFirst, .largestMemFirst,
    .highPriorityFirst, .lowPriorityFirst, .largeWalltimeFirst, .shortWalltimeFirst, .fairShare,
    .multiSort]

/-- The sort of an entry of a sort array. -/
def entrySort (entry : Option ℕ) : SortType := (entry.bind (fun i => sortTypes[i]?)).getD .noSort

/-- `sort_by[0].sort`. -/
def firstSort (sortBy : List (Option ℕ)) : SortType := entrySort (sortBy.headD none)

/-- `sort_by[1].sort` to `sort_by[num_sorts].sort`. -/
def keySorts (sortBy : List (Option ℕ)) : List SortType :=
  ((sortBy.drop 1).take numSorts).map entrySort

/-! ## The comparators -/

/-- A job with the percentage of its `ginfo`. -/
structure SortedJob where
  jinfo : JobInfo
  percentage : CFloat

/-- `cmp_generic_asc`. -/
def cmpGenericAsc : Option ResourceReq → Option ResourceReq → Bool
  | none, some _ => false
  | some _, none => true
  | some req1, some req2 => req1.amount < req2.amount
  | none, none => false

/-- `cmp_generic_desc`. -/
def cmpGenericDesc : Option ResourceReq → Option ResourceReq → Bool
  | none, some _ => true
  | some _, none => false
  | some req1, some req2 => req1.amount > req2.amount
  | none, none => false

/-- `cmp_job_walltime_asc`. -/
def cmpJobWalltimeAsc (j1 j2 : SortedJob) : Bool :=
  cmpGenericAsc (findResourceReq j1.jinfo.resreq "walltime")
    (findResourceReq j2.jinfo.resreq "walltime")

/-- `cmp_job_walltime_dsc`. -/
def cmpJobWalltimeDsc (j1 j2 : SortedJob) : Bool :=
  cmpGenericDesc (findResourceReq j1.jinfo.resreq "walltime")
    (findResourceReq j2.jinfo.resreq "walltime")

/-- `cmp_job_cput_asc`. -/
def cmpJobCputAsc (j1 j2 : SortedJob) : Bool :=
  cmpGenericAsc (findResourceReq j1.jinfo.resreq "cput") (findResourceReq j2.jinfo.resreq "cput")

/-- `cmp_job_cput_dsc`. -/
def cmpJobCputDsc (j1 j2 : SortedJob) : Bool :=
  cmpGenericDesc (findResourceReq j1.jinfo.resreq "cput") (findResourceReq j2.jinfo.resreq "cput")

/-- `cmp_job_mem_asc`. -/
def cmpJobMemAsc (j1 j2 : SortedJob) : Bool :=
  cmpGenericAsc (findResourceReq j1.jinfo.resreq "mem") (findResourceReq j2.jinfo.resreq "mem")

/-- `cmp_job_mem_dsc`. -/
def cmpJobMemDsc (j1 j2 : SortedJob) : Bool :=
  cmpGenericDesc (findResourceReq j1.jinfo.resreq "mem") (findResourceReq j2.jinfo.resreq "mem")

/-- `cmp_job_prio_asc`. -/
def cmpJobPrioAsc (j1 j2 : SortedJob) : Bool := j1.jinfo.priority < j2.jinfo.priority

/-- `cmp_job_prio_dsc`. -/
def cmpJobPrioDsc (j1 j2 : SortedJob) : Bool := j1.jinfo.priority > j2.jinfo.priority

/-- `>` on floating-point numbers. -/
def floatGt : CFloat → CFloat → Bool
  | .finite x, .finite y => x > y
  | .finite _, .infinite negative => negative
  | .infinite negative, .finite _ => !negative
  | .infinite negative, .infinite negative' => !negative && negative'
  | .nan, _ => false
  | _, .nan => false

/-- `cmp_fair_share`. -/
def cmpFairShare (j1 j2 : SortedJob) : Bool := floatGt j1.percentage j2.percentage

/-- The comparators of `sorting_info`; `no_sort` has none, and `multi_sort` follows below. -/
def sortingCmp : SortType → SortedJob → SortedJob → Bool
  | .noSort => fun _ _ => false
  | .shortestJobFirst => cmpJobCputAsc
  | .longestJobFirst => cmpJobCputDsc
  | .smallestMemFirst => cmpJobMemAsc
  | .largestMemFirst => cmpJobMemDsc
  | .highPriorityFirst => cmpJobPrioDsc
  | .lowPriorityFirst => cmpJobPrioAsc
  | .largeWalltimeFirst => cmpJobWalltimeDsc
  | .shortWalltimeFirst => cmpJobWalltimeAsc
  | .fairShare => cmpFairShare
  | .multiSort => fun _ _ => false

/-- `multi_sort` from a key on, with what calling a comparator gives. -/
def multiSort (cmp : SortType → SortedJob → SortedJob → Run Bool) :
    List SortType → SortedJob → SortedJob → Run Bool
  | [], _, _ => .ok false
  | sort :: sorts, j1, j2 =>
      if sort = .noSort then .ok false
      else do
        let less ← cmp sort j1 j2
        if less then cmp sort j1 j2
        else do
          let greater ← cmp sort j2 j1
          if greater then cmp sort j1 j2 else multiSort cmp sorts j1 j2

/-- Calling the comparator of a sort, with a bound on the depth of the calls; the comparator of
`no_sort` is `NULL`. -/
def callCmp (sorts : List SortType) : ℕ → SortType → SortedJob → SortedJob → Run Bool
  | 0, _, _, _ => .error .outOfSteps
  | depth + 1, sort, j1, j2 =>
      if sort = .noSort then .error .nullPointer
      else if sort = .multiSort then multiSort (callCmp sorts depth) sorts j1 j2
      else .ok (sortingCmp sort j1 j2)

/-- `cmp_sort`. -/
def cmpSort (depth : ℕ) (sortBy : List (Option ℕ)) (j1 j2 : SortedJob) : Run Bool :=
  callCmp (keySorts sortBy) depth (firstSort sortBy) j1 j2

/-! ## What the order should be -/

/-- The sorts in front of the first `no_sort`. -/
def untilNoSort (sorts : List SortType) : List SortType :=
  sorts.takeWhile (fun sort => sort ≠ .noSort)

/-- The keys of `multi_sort`. -/
def keysInForce (sortBy : List (Option ℕ)) : List SortType := untilNoSort (keySorts sortBy)

/-- One job before another by one key. -/
def keyLess (sort : SortType) (j1 j2 : SortedJob) : Prop := sortingCmp sort j1 j2 = true

/-- The lexicographic order of keys. -/
def keyOrder (sorts : List SortType) : SortedJob → SortedJob → Prop :=
  lexOrder (sorts.map keyLess)

/-- What `cmp_sort` says when it returns. -/
def CmpSortLess (sortBy : List (Option ℕ)) (j1 j2 : SortedJob) : Prop :=
  ∃ depth, cmpSort depth sortBy j1 j2 = .ok true

/-- `cmp_sort` ends on all these jobs, is a strict weak order on them, and with `multi_sort` the
lexicographic order of the keys. -/
structure SortsJobs (sortBy : List (Option ℕ)) (jobs : Set SortedJob) : Prop where
  ends : ∀ j₁ ∈ jobs, ∀ j₂ ∈ jobs, ∃ depth less, cmpSort depth sortBy j₁ j₂ = .ok less
  order : StrictWeakOn jobs (CmpSortLess sortBy)
  lexicographic : firstSort sortBy = .multiSort → ∀ j₁ ∈ jobs, ∀ j₂ ∈ jobs,
    CmpSortLess sortBy j₁ j₂ ↔ keyOrder (keysInForce sortBy) j₁ j₂

/-- The sorts `cmp_sort` compares by. -/
def sortsInForce (sortBy : List (Option ℕ)) : List SortType :=
  if firstSort sortBy = .multiSort then keysInForce sortBy else [firstSort sortBy]

/-- The sorts in force before `fair_share`. -/
def sortsBefore (sortBy : List (Option ℕ)) : List SortType :=
  (sortsInForce sortBy).takeWhile (fun sort => sort ≠ .fairShare)

/-- The sorts in force behind `fair_share`. -/
def sortsBehind (sortBy : List (Option ℕ)) : List SortType :=
  ((sortsInForce sortBy).dropWhile (fun sort => sort ≠ .fairShare)).tail

/-- No job whose percentage is no number stands, by the sorts behind `fair_share`, between two jobs
of different percentages in the other order, the three of them tied by the sorts before it. -/
def NoNumberBetween (sortBy : List (Option ℕ)) (jobs : Set SortedJob) : Prop :=
  ∀ a ∈ jobs, ∀ b ∈ jobs, ∀ c ∈ jobs, b.percentage = .nan → cmpFairShare a c = true →
    Tied (keyOrder (sortsBefore sortBy)) a b → Tied (keyOrder (sortsBefore sortBy)) b c →
    keyOrder (sortsBehind sortBy) a b ∨ keyOrder (sortsBehind sortBy) b c

/-! ## Each key on its own -/

variable {sortBy : List (Option ℕ)} {jobs : Set SortedJob}

/-- The amount of a request, where no request is more than any. -/
def requestRank (req : Option ResourceReq) : WithTop ℤ := req.map ResourceReq.amount

/-- Ascending amounts. -/
theorem cmpGenericAsc_iff (req1 req2 : Option ResourceReq) :
    cmpGenericAsc req1 req2 = true ↔ requestRank req1 < requestRank req2 := by
  cases req1 with
  | none =>
      refine ⟨?_, fun h => absurd h (not_top_lt)⟩
      cases req2 with
      | none => exact fun h => absurd h Bool.false_ne_true
      | some req2 => exact fun h => absurd h Bool.false_ne_true
  | some req1 =>
      cases req2 with
      | none => exact ⟨fun _ => WithTop.coe_lt_top _, fun _ => rfl⟩
      | some req2 => exact decide_eq_true_iff.trans WithTop.coe_lt_coe.symm

/-- Descending amounts. -/
theorem cmpGenericDesc_iff (req1 req2 : Option ResourceReq) :
    cmpGenericDesc req1 req2 = true ↔ requestRank req2 < requestRank req1 := by
  cases req2 with
  | none =>
      refine ⟨?_, fun h => absurd h (not_top_lt)⟩
      cases req1 with
      | none => exact fun h => absurd h Bool.false_ne_true
      | some req1 => exact fun h => absurd h Bool.false_ne_true
  | some req2 =>
      cases req1 with
      | none => exact ⟨fun _ => WithTop.coe_lt_top _, fun _ => rfl⟩
      | some req1 => exact decide_eq_true_iff.trans WithTop.coe_lt_coe.symm

/-- A key that compares requests upwards. -/
theorem strictWeakOn_asc {sort : SortType} {name : String} (h : ∀ j1 j2, sortingCmp sort j1 j2
    = cmpGenericAsc (findResourceReq j1.jinfo.resreq name)
        (findResourceReq j2.jinfo.resreq name)) : StrictWeakOn jobs (keyLess sort) :=
  .ofRank (fun j => requestRank (findResourceReq j.jinfo.resreq name)) (fun j1 _ j2 _ => by
    rw [keyLess, h, cmpGenericAsc_iff])

/-- A key that compares requests downwards. -/
theorem strictWeakOn_desc {sort : SortType} {name : String} (h : ∀ j1 j2, sortingCmp sort j1 j2
    = cmpGenericDesc (findResourceReq j1.jinfo.resreq name)
        (findResourceReq j2.jinfo.resreq name)) : StrictWeakOn jobs (keyLess sort) :=
  .ofRank (fun j => OrderDual.toDual (requestRank (findResourceReq j.jinfo.resreq name)))
    (fun j1 _ j2 _ => by
      rw [keyLess, h, cmpGenericDesc_iff]
      exact OrderDual.toDual_lt_toDual.symm)

/-- A sort without comparator decides nothing. -/
theorem strictWeakOn_false {sort : SortType} (h : ∀ j1 j2, sortingCmp sort j1 j2 = false) :
    StrictWeakOn jobs (keyLess sort) :=
  .ofRank (fun _ => (0 : ℕ)) (fun j1 _ j2 _ => by
    rw [keyLess, h]
    exact ⟨fun hfalse => absurd hfalse Bool.false_ne_true, fun hlt => absurd hlt (lt_irrefl 0)⟩)

/-- Every key but `fair_share` is a strict weak order on all jobs. -/
theorem keyLess_strictWeakOn {sort : SortType} (h : sort ≠ .fairShare) :
    StrictWeakOn jobs (keyLess sort) := by
  cases sort with
  | noSort => exact strictWeakOn_false (fun _ _ => rfl)
  | shortestJobFirst => exact strictWeakOn_asc (fun _ _ => rfl)
  | longestJobFirst => exact strictWeakOn_desc (fun _ _ => rfl)
  | smallestMemFirst => exact strictWeakOn_asc (fun _ _ => rfl)
  | largestMemFirst => exact strictWeakOn_desc (fun _ _ => rfl)
  | highPriorityFirst =>
      exact .ofRank (fun j => OrderDual.toDual j.jinfo.priority)
        (fun _ _ _ _ => decide_eq_true_iff.trans OrderDual.toDual_lt_toDual.symm)
  | lowPriorityFirst =>
      exact .ofRank (fun j => j.jinfo.priority) (fun _ _ _ _ => decide_eq_true_iff)
  | largeWalltimeFirst => exact strictWeakOn_desc (fun _ _ => rfl)
  | shortWalltimeFirst => exact strictWeakOn_asc (fun _ _ => rfl)
  | fairShare => exact absurd rfl h
  | multiSort => exact strictWeakOn_false (fun _ _ => rfl)

/-- Where a number stands among the others. -/
def floatRank : CFloat → WithBot (WithTop ℚ)
  | .finite x => ((x : WithTop ℚ) : WithBot (WithTop ℚ))
  | .infinite negative => if negative then ⊥ else ((⊤ : WithTop ℚ) : WithBot (WithTop ℚ))
  | .nan => ⊥

/-- Two values that are numbers. -/
theorem floatGt_iff {x y : CFloat} (hx : x ≠ .nan) (hy : y ≠ .nan) :
    floatGt x y = true ↔ floatRank y < floatRank x := by
  cases x with
  | finite x =>
      cases y with
      | finite y =>
          exact decide_eq_true_iff.trans (WithTop.coe_lt_coe.symm.trans WithBot.coe_lt_coe.symm)
      | infinite negative => cases negative <;> simp [floatGt, floatRank]
      | nan => exact absurd rfl hy
  | infinite negative =>
      cases y with
      | finite y =>
          cases negative with
          | true => simp [floatGt, floatRank]
          | false =>
              exact iff_of_true rfl (WithBot.coe_lt_coe.mpr (WithTop.coe_lt_top _))
      | infinite negative' => cases negative <;> cases negative' <;> simp [floatGt, floatRank]
      | nan => exact absurd rfl hy
  | nan => exact absurd rfl hx

/-- `fair_share` is a key that jobs whose percentage is no number do not have. -/
theorem fairShare_partialKey :
    PartialKey jobs (fun j => j.percentage ≠ .nan) (keyLess .fairShare) where
  order := .ofRank (fun j => OrderDual.toDual (floatRank j.percentage)) (fun j1 h1 j2 h2 =>
    (floatGt_iff h1.2 h2.2).trans OrderDual.toDual_lt_toDual.symm)
  left j1 j2 h := by
    intro hnan
    unfold keyLess at h
    rw [show sortingCmp .fairShare j1 j2 = floatGt j1.percentage j2.percentage from rfl, hnan] at h
    exact absurd h Bool.false_ne_true
  right j1 j2 h := by
    intro hnan
    unfold keyLess at h
    rw [show sortingCmp .fairShare j1 j2 = floatGt j1.percentage j2.percentage from rfl, hnan] at h
    cases hp : j1.percentage with
    | finite x => rw [hp] at h; exact absurd h Bool.false_ne_true
    | infinite negative => rw [hp] at h; exact absurd h Bool.false_ne_true
    | nan => rw [hp] at h; exact absurd h Bool.false_ne_true

/-- No job is before itself by any key. -/
theorem sortingCmp_self (sort : SortType) (j : SortedJob) : sortingCmp sort j j = false := by
  by_cases hfair : sort = .fairShare
  · rw [hfair]
    show floatGt j.percentage j.percentage = false
    cases j.percentage with
    | finite x => exact decide_eq_false (lt_irrefl x)
    | infinite negative => cases negative <;> rfl
    | nan => rfl
  · have horder : StrictWeakOn Set.univ (keyLess sort) := keyLess_strictWeakOn hfair
    exact Bool.not_eq_true _ ▸ horder.irrefl j (Set.mem_univ j)

/-! ## The loop -/

/-- A sort that is kept. -/
theorem untilNoSort_cons {sort : SortType} {sorts : List SortType} (h : sort ≠ .noSort) :
    untilNoSort (sort :: sorts) = sort :: untilNoSort sorts :=
  List.takeWhile_cons_of_pos (decide_eq_true h)

/-- With comparators that return, the loop is the lexicographic order of the keys in front of the
first `no_sort`. -/
theorem multiSort_returns {cmp : SortType → SortedJob → SortedJob → Run Bool} (j1 j2 : SortedJob)
    {sorts : List SortType}
    (h : ∀ sort ∈ untilNoSort sorts, ∀ j1 j2,
      cmp sort j1 j2 = .ok (sortingCmp sort j1 j2)) :
    ∃ less, multiSort cmp sorts j1 j2 = .ok less ∧
      (less = true ↔ keyOrder (untilNoSort sorts) j1 j2) := by
  induction sorts with
  | nil => exact ⟨false, rfl, ⟨fun hfalse => absurd hfalse Bool.false_ne_true, False.elim⟩⟩
  | cons sort sorts ih =>
      rw [multiSort]
      by_cases hnone : sort = .noSort
      · rw [if_pos hnone, hnone]
        exact ⟨false, rfl, ⟨fun hfalse => absurd hfalse Bool.false_ne_true, False.elim⟩⟩
      · rw [untilNoSort_cons hnone] at h ⊢
        rw [List.forall_mem_cons] at h
        rw [if_neg hnone, h.1, h.1]
        show ∃ less, (if sortingCmp sort j1 j2 then Except.ok (sortingCmp sort j1 j2)
          else if sortingCmp sort j2 j1 then Except.ok (sortingCmp sort j1 j2)
          else multiSort cmp sorts j1 j2) = Except.ok less ∧ (less = true ↔ thenBy (keyLess sort)
            (keyOrder (untilNoSort sorts)) j1 j2)
        by_cases hless : sortingCmp sort j1 j2 = true
        · rw [if_pos hless]
          exact ⟨_, rfl, iff_of_true hless (Or.inl hless)⟩
        · rw [if_neg hless]
          by_cases hgreater : sortingCmp sort j2 j1 = true
          · rw [if_pos hgreater]
            exact ⟨_, rfl, iff_of_false hless (fun hor => hor.elim hless (fun h => h.1 hgreater))⟩
          · have htied : Tied (keyLess sort) j1 j2 := ⟨hless, hgreater⟩
            rw [if_neg hgreater, thenBy_of_tied htied]
            exact ih h.2

/-- A comparator that runs out of steps on a job and itself stops the loop there. -/
theorem multiSort_stops {cmp : SortType → SortedJob → SortedJob → Run Bool} (j : SortedJob)
    {sorts : List SortType} (hmulti : .multiSort ∈ untilNoSort sorts)
    (hstop : cmp .multiSort j j = .error .outOfSteps)
    (h : ∀ sort, sort ≠ .noSort → cmp sort j j = .ok false ∨ cmp sort j j = .error .outOfSteps) :
    multiSort cmp sorts j j = .error .outOfSteps := by
  induction sorts with
  | nil => exact absurd hmulti List.not_mem_nil
  | cons sort sorts ih =>
      rw [multiSort]
      by_cases hnone : sort = .noSort
      · rw [hnone] at hmulti
        exact absurd hmulti List.not_mem_nil
      · rw [untilNoSort_cons hnone] at hmulti
        rw [if_neg hnone]
        rcases h sort hnone with hfalse | herror
        · rw [hfalse]
          rcases List.mem_cons.mp hmulti with rfl | hlater
          · rw [hstop] at hfalse
            cases hfalse
          · exact ih hlater
        · rw [herror]
          rfl

/-- With `multi_sort` among its own keys it does not end on a job and itself. -/
theorem callCmp_multiSort {sorts : List SortType}
    (hmulti : .multiSort ∈ untilNoSort sorts) (j : SortedJob)
    (depth : ℕ) : callCmp sorts depth .multiSort j j = .error .outOfSteps := by
  induction depth with
  | zero => rfl
  | succ depth ih =>
      refine multiSort_stops j hmulti ih (fun sort hnone => ?_)
      by_cases hsort : sort = .multiSort
      · rw [hsort]
        exact Or.inr ih
      · cases depth with
        | zero => exact Or.inr rfl
        | succ depth =>
            rw [callCmp, if_neg hnone, if_neg hsort, sortingCmp_self]
            exact Or.inl rfl

/-- Comparators that answer more often leave the answers of the loop. -/
theorem multiSort_mono {cmp cmp' : SortType → SortedJob → SortedJob → Run Bool}
    (h : ∀ sort j1 j2 less, cmp sort j1 j2 = .ok less → cmp' sort j1 j2 = .ok less)
    {sorts : List SortType} {j1 j2 : SortedJob} {less : Bool}
    (hret : multiSort cmp sorts j1 j2 = .ok less) : multiSort cmp' sorts j1 j2 = .ok less := by
  induction sorts with
  | nil => exact hret
  | cons sort sorts ih =>
      rw [multiSort] at hret ⊢
      by_cases hnone : sort = .noSort
      · rw [if_pos hnone] at hret ⊢
        exact hret
      · rw [if_neg hnone] at hret ⊢
        obtain ⟨less₁, hless, hret⟩ := bind_ok.mp hret
        refine bind_ok.mpr ⟨less₁, h sort j1 j2 less₁ hless, ?_⟩
        by_cases hless₁ : less₁ = true
        · rw [if_pos hless₁] at hret ⊢
          exact h sort j1 j2 less hret
        · rw [if_neg hless₁] at hret ⊢
          obtain ⟨greater, hgreater, hret⟩ := bind_ok.mp hret
          refine bind_ok.mpr ⟨greater, h sort j2 j1 greater hgreater, ?_⟩
          by_cases hgreater₁ : greater = true
          · rw [if_pos hgreater₁] at hret ⊢
            exact h sort j1 j2 less hret
          · rw [if_neg hgreater₁] at hret ⊢
            exact ih hret

/-- More depth leaves an answer. -/
theorem callCmp_mono {sorts : List SortType} {depth : ℕ} {sort : SortType} {j1 j2 : SortedJob}
    {less : Bool} (h : callCmp sorts depth sort j1 j2 = .ok less) :
    callCmp sorts (depth + 1) sort j1 j2 = .ok less := by
  induction depth generalizing sort j1 j2 less with
  | zero => cases h
  | succ depth ih =>
      rw [callCmp] at h ⊢
      by_cases hnone : sort = .noSort
      · rw [if_pos hnone] at h
        cases h
      · rw [if_neg hnone] at h ⊢
        by_cases hsort : sort = .multiSort
        · rw [if_pos hsort] at h ⊢
          exact multiSort_mono (fun _ _ _ _ => ih) h
        · rw [if_neg hsort] at h ⊢
          exact h

/-- Otherwise two calls are enough. -/
theorem cmpSort_returns (hfirst : firstSort sortBy ≠ .noSort)
    (hmulti : .multiSort ∉ sortsInForce sortBy) (j1 j2 : SortedJob) (depth : ℕ) :
    ∃ less, cmpSort (depth + 2) sortBy j1 j2 = .ok less ∧
      (less = true ↔ keyOrder (sortsInForce sortBy) j1 j2) := by
  unfold sortsInForce at hmulti ⊢
  unfold cmpSort
  rw [callCmp, if_neg hfirst]
  by_cases hsort : firstSort sortBy = .multiSort
  · rw [if_pos hsort] at hmulti ⊢
    rw [if_pos hsort]
    refine multiSort_returns j1 j2 (fun sort hmem j1 j2 => ?_)
    have hnone : sort ≠ .noSort := by simpa using List.mem_takeWhile_imp hmem
    have hother : sort ≠ .multiSort := fun heq => hmulti (heq ▸ hmem)
    rw [callCmp, if_neg hnone, if_neg hother]
  · rw [if_neg hsort, if_neg hsort]
    refine ⟨_, rfl, ?_⟩
    show sortingCmp (firstSort sortBy) j1 j2 = true
      ↔ thenBy (keyLess (firstSort sortBy)) (fun _ _ => False) j1 j2
    exact ⟨Or.inl, fun hor => hor.resolve_right (fun h => h.2)⟩

/-! ## The order -/

/-- Without `multi_sort` among the sorts in force the comparator sorts if the order of these sorts
is a strict weak order. -/
theorem sortsJobs_iff_order (hfirst : firstSort sortBy ≠ .noSort)
    (hmulti : .multiSort ∉ sortsInForce sortBy) :
    SortsJobs sortBy jobs ↔ StrictWeakOn jobs (keyOrder (sortsInForce sortBy)) := by
  have hless : ∀ j1 j2, CmpSortLess sortBy j1 j2 ↔ keyOrder (sortsInForce sortBy) j1 j2 := by
    intro j1 j2
    constructor
    · rintro ⟨depth, hret⟩
      obtain ⟨less, hret', hiff⟩ := cmpSort_returns hfirst hmulti j1 j2 depth
      have hdeeper : cmpSort (depth + 2) sortBy j1 j2 = .ok true := callCmp_mono (callCmp_mono hret)
      rw [hdeeper] at hret'
      exact hiff.mp (Except.ok.inj hret').symm
    · intro h
      obtain ⟨less, hret, hiff⟩ := cmpSort_returns hfirst hmulti j1 j2 0
      exact ⟨2, by rw [hret, hiff.mpr h]⟩
  rw [← StrictWeakOn.congr (fun j1 _ j2 _ => hless j1 j2)]
  constructor
  · exact SortsJobs.order
  · intro horder
    refine ⟨fun j1 _ j2 _ => ?_, horder, fun hsort j1 _ j2 _ => ?_⟩
    · obtain ⟨less, hret, _⟩ := cmpSort_returns hfirst hmulti j1 j2 0
      exact ⟨2, less, hret⟩
    · rw [hless, sortsInForce, if_pos hsort]

/-- The keys in force around the first `fair_share`. -/
theorem sortsInForce_split (h : .fairShare ∈ sortsInForce sortBy) :
    sortsInForce sortBy = sortsBefore sortBy ++ .fairShare :: sortsBehind sortBy := by
  unfold sortsBefore sortsBehind
  have hne : (sortsInForce sortBy).dropWhile (fun sort => sort ≠ .fairShare) ≠ [] := by
    rw [Ne, List.dropWhile_eq_nil_iff]
    intro hall
    exact absurd rfl (of_decide_eq_true (hall _ h))
  have hhead : ((sortsInForce sortBy).dropWhile (fun sort => sort ≠ .fairShare)).head hne
      = .fairShare := by
    have hnot := List.head_dropWhile_not (fun sort => decide (sort ≠ SortType.fairShare)) hne
    simpa using hnot
  have hcons := List.cons_head_tail hne
  rw [hhead] at hcons
  rw [hcons, List.takeWhile_append_dropWhile]

/-- The order of the sorts in force is a strict weak order exactly if no job without a number for
its percentage stands between two that `fair_share` puts in the other order. -/
theorem keyOrder_strictWeakOn_iff : StrictWeakOn jobs (keyOrder (sortsInForce sortBy)) ↔
    (.fairShare ∈ sortsInForce sortBy → NoNumberBetween sortBy jobs) := by
  have hkeys : ∀ sorts : List SortType, .fairShare ∉ sorts →
      StrictWeakOn jobs (keyOrder sorts) := by
    intro sorts hnot
    refine lexOrder_strictWeakOn (fun lt hlt => ?_)
    obtain ⟨sort, hsort, rfl⟩ := List.mem_map.mp hlt
    exact keyLess_strictWeakOn (fun heq => hnot (heq ▸ hsort))
  by_cases hfair : .fairShare ∈ sortsInForce sortBy
  · rw [imp_iff_right hfair]
    have hbefore : .fairShare ∉ sortsBefore sortBy :=
      fun hmem => absurd (List.mem_takeWhile_imp hmem) (by decide)
    -- `fair_share` may come again behind the first one, where it decides nothing more
    have hbehind : ∀ a b, Tied (keyLess .fairShare) a b →
        (keyOrder ((sortsBehind sortBy).filter (fun sort => sort ≠ .fairShare)) a b
          ↔ keyOrder (sortsBehind sortBy) a b) := by
      intro a b htied
      refine lexOrder_filter (fun sort _ hsort => ?_)
      rw [decide_eq_true_iff, not_not] at hsort
      rw [hsort]
      exact htied
    have horder : ∀ a ∈ jobs, ∀ b ∈ jobs, (keyOrder (sortsInForce sortBy) a b ↔
        thenBy (keyOrder (sortsBefore sortBy)) (thenBy (keyLess .fairShare)
          (keyOrder ((sortsBehind sortBy).filter (fun sort => sort ≠ .fairShare)))) a b) := by
      intro a _ b _
      rw [sortsInForce_split hfair, keyOrder, List.map_append, lexOrder_append, List.map_cons]
      exact thenBy_congr (fun _ => thenBy_congr (fun htied => (hbehind a b htied).symm))
    rw [StrictWeakOn.congr horder, thenBy_partial_iff (hkeys _ hbefore) fairShare_partialKey
      (hkeys _ (by simp))]
    have hnumber : PartialKey jobs (fun j => j.percentage ≠ .nan) (keyLess .fairShare) :=
      fairShare_partialKey
    refine forall₂_congr (fun a _ => forall₂_congr (fun b _ => forall₂_congr (fun c _ => ?_)))
    rw [not_not]
    refine imp_congr_right (fun hnan => ?_)
    rw [hbehind a b ⟨fun h => hnumber.right a b h hnan, fun h => hnumber.left b a h hnan⟩,
      hbehind b c ⟨fun h => hnumber.left b c h hnan, fun h => hnumber.right c b h hnan⟩]
    exact Iff.rfl
  · exact iff_of_true (hkeys _ hfair) (fun h => absurd h hfair)

/-- The comparator that `init_scheduling_cycle` sorts with ends, is a strict weak order and with
`multi_sort` the lexicographic order of the keys, exactly if there are no jobs, or `multi_sort` is
no key in force and no percentage that is no number stands in the way of `fair_share`. -/
theorem job_order_iff (sortBy : List (Option ℕ)) (jobs : Set SortedJob) :
    (firstSort sortBy ≠ .noSort → SortsJobs sortBy jobs) ↔
      (firstSort sortBy = .noSort ∨ jobs = ∅ ∨
        (.multiSort ∉ sortsInForce sortBy ∧
          (.fairShare ∈ sortsInForce sortBy → NoNumberBetween sortBy jobs))) := by
  by_cases hfirst : firstSort sortBy = .noSort
  · exact iff_of_true (fun h => absurd hfirst h) (Or.inl hfirst)
  · rw [imp_iff_right hfirst, or_iff_right hfirst]
    by_cases hmulti : .multiSort ∈ sortsInForce sortBy
    · rw [or_iff_left (fun h => h.1 hmulti)]
      constructor
      · intro h
        have hsort : firstSort sortBy = .multiSort := by
          by_contra hsort
          rw [sortsInForce, if_neg hsort, List.mem_singleton] at hmulti
          exact hsort hmulti.symm
        rw [sortsInForce, if_pos hsort] at hmulti
        rw [Set.eq_empty_iff_forall_notMem]
        intro j hj
        obtain ⟨depth, less, hret⟩ := h.ends j hj j hj
        rw [cmpSort, hsort, callCmp_multiSort hmulti] at hret
        cases hret
      · rintro rfl
        exact ⟨fun j hj => absurd hj (Set.notMem_empty j),
          ⟨fun j hj => absurd hj (Set.notMem_empty j), fun j hj => absurd hj (Set.notMem_empty j),
            fun j hj => absurd hj (Set.notMem_empty j)⟩,
          fun _ j hj => absurd hj (Set.notMem_empty j)⟩
    · rw [sortsJobs_iff_order hfirst hmulti, keyOrder_strictWeakOn_iff]
      constructor
      · exact fun h => Or.inr ⟨hmulti, h⟩
      · rintro (hempty | h)
        · intro _ a ha
          rw [hempty] at ha
          exact absurd ha (Set.notMem_empty a)
        · exact h.2

/-- A job of a group with this percentage. -/
def jobOfGroup (percentage : CFloat) : SortedJob where
  jinfo := ⟨"1", "", "", 0, .queued, 0, 0, false, 0, []⟩
  percentage := percentage

/-- A configuration with `multi_sort` as the order and as its key: comparing a job with itself never
ends.  By `fair_share` a percentage that is no number is tied with two that are not tied. -/
theorem multi_sort_calls_itself :
    (∃ conf, parseConfig (some "sort_by: multi_sort\nkey: multi_sort\n".toList) Settings.init
        = .ok conf ∧
      firstSort conf.primeSort ≠ .noSort ∧
      ∀ j, (∀ depth less, cmpSort depth conf.primeSort j j ≠ .ok less) ∧
        ¬ SortsJobs conf.primeSort {j}) ∧
    ¬ SortsJobs [some 9]
      {jobOfGroup (.finite (1 / 2)), jobOfGroup .nan, jobOfGroup (.finite (1 / 4))} := by
  refine ⟨?_, ?_⟩
  · have hret : (parseConfig (some "sort_by: multi_sort\nkey: multi_sort\n".toList)
        Settings.init).map Settings.primeSort
          = .ok (some 10 :: some 10 :: List.replicate 10 none) := by decide +kernel
    obtain ⟨conf, hparse, htable⟩ := map_ok.mp hret
    -- the comparison is called again with the same two jobs
    have hnever : ∀ j depth less, cmpSort depth
        (some 10 :: some 10 :: List.replicate 10 none) j j ≠ .ok less := by
      intro j depth less hless
      rw [cmpSort, show firstSort (some 10 :: some 10 :: List.replicate 10 none) = .multiSort
        from rfl, callCmp_multiSort (by decide)] at hless
      cases hless
    refine ⟨conf, hparse, by rw [htable]; decide, fun j => ⟨?_, fun h => ?_⟩⟩
    · rw [htable]
      exact hnever j
    · rw [htable] at h
      obtain ⟨depth, less, hless⟩ := h.ends j rfl j rfl
      exact hnever j depth less hless
  · rw [sortsJobs_iff_order (by decide) (by decide),
      show sortsInForce [some 9] = [.fairShare] by decide]
    intro h
    have hkey : ∀ x y, keyOrder [.fairShare] (jobOfGroup x) (jobOfGroup y) →
        floatGt x y = true := by
      rintro x y (hless | ⟨_, hless⟩)
      · exact hless
      · exact hless.elim
    have hless : keyOrder [.fairShare] (jobOfGroup (.finite (1 / 2)))
        (jobOfGroup (.finite (1 / 4))) :=
      Or.inl (decide_eq_true (by norm_num : (1 / 4 : ℚ) < 1 / 2))
    rcases h.split (Or.inl rfl) (Or.inr (Or.inl rfl)) (Or.inr (Or.inr rfl)) hless with h | h
    · exact absurd (hkey _ _ h) Bool.false_ne_true
    · exact absurd (hkey _ _ h) Bool.false_ne_true

end PlanSched
