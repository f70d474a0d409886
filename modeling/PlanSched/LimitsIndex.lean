/-
# When the class of a walltime is a valid index

`walltime_suits_to_limit` hands out an index that three other places use: the
global vectors `limits_values` and `limits_values_global`, resized by
`update_limits_values`, and the `num_cpus` array of every account, whose length
is the constant `NUM_LIMITS`.

`limitIndexSafe_iff` says for which configurations, clusters and walltimes all of
these uses are in range.  `limitIndexSafe_shipped` shows that the limit lines of
the distributed `sched_config` are not among them: their last threshold is
5356800 seconds, and a longer walltime has no class.
-/
import PlanSched.Limits

namespace PlanSched

open CheckedRun CText

/-! ## The property and the condition -/

/-- The limits of the cluster are found, and the class of the walltime is in the
range of every array it is used for. -/
structure LimitIndexSafe (limits : LimitsForClusters) (cluster : PlanCluster) (walltime : ℤ) :
    Prop where
  /-- the entry found belongs to the largest key not above the running CPUs -/
  found : ∃ m key arrays, limitArray limits cluster.clusterName = some m ∧
    (key, arrays) ∈ m.entries ∧ key ≤ cluster.numRunningCpus ∧
    (∀ e ∈ m.entries, e.1 ≤ cluster.numRunningCpus → e.1 ≤ key) ∧
    findLimitsForCluster limits cluster.clusterName cluster.numRunningCpus = .ok arrays
  /-- after `update_limits_values` the class is an index of both vectors -/
  index : ∀ values, ∃ values' c, updateLimitsValues limits cluster values = .ok values' ∧
    walltimeSuitsToLimit limits walltime cluster = .ok c ∧
    c < values'.limitsValues.length ∧ c < values'.limitsValuesGlobal.length ∧ c < NUM_LIMITS
  /-- so the three users of the class stay inside their arrays -/
  users : ∀ values values', updateLimitsValues limits cluster values = .ok values' →
    (∀ profile job gap, job.jinfo.getWalltime = walltime →
      Avoids .badIndex (limitsIsGapOk limits cluster values' profile job gap)) ∧
    (∀ profile job, job.estimatedProcessing = walltime →
      Avoids .badIndex
        (adjustJobStarttimeAccordingToLimits limits cluster values' profile job)) ∧
    (∀ limit accountId numCpus,
      Avoids .badIndex (addLimitToLimit limits cluster limit accountId walltime numCpus))

/-- The configuration covers the cluster and the walltime: some key is low
enough, the arrays of the largest such key are complete, and one of their first
`NUM_LIMITS` thresholds is not exceeded. -/
def LimitCovers (limits : LimitsForClusters) (cluster : PlanCluster) (walltime : ℤ) : Prop :=
  ∃ m key arrays, limitArray limits cluster.clusterName = some m ∧
    (key, arrays) ∈ m.entries ∧ key ≤ cluster.numRunningCpus ∧
    (∀ e ∈ m.entries, e.1 ≤ cluster.numRunningCpus → e.1 ≤ key) ∧
    arrays.tresholds.length ≤ arrays.percentages.length ∧
    arrays.tresholds.length ≤ arrays.percentagesGlobal.length ∧
    ∃ treshold ∈ arrays.tresholds.take NUM_LIMITS, toInt walltime ≤ treshold

/-! ## Filling the global vectors -/

/-- One pass of `update_limits_values` reads one percentage of either kind. -/
theorem updateLimitsValue_returns_iff (numRunningCpus : ℤ) (arrays : ClusterLimitsArrays)
    (values : LimitsValues) (i : ℕ) :
    (∃ values', updateLimitsValue numRunningCpus arrays values i = .ok values') ↔
      i < arrays.percentages.length ∧ i < arrays.percentagesGlobal.length := by
  constructor
  · rintro ⟨values', h⟩
    unfold updateLimitsValue at h
    obtain ⟨p, hp, h⟩ := bind_ok.mp h
    obtain ⟨pg, hpg, _⟩ := bind_ok.mp h
    rw [getAt_ok, List.getElem?_eq_some_iff] at hp hpg
    exact ⟨hp.1, hpg.1⟩
  · rintro ⟨hp, hpg⟩
    unfold updateLimitsValue getAt
    rw [List.getElem?_eq_getElem hp, List.getElem?_eq_getElem hpg]
    exact ⟨_, rfl⟩

/-- The loop returns when every pass can read its percentages, and leaves one
cell per threshold unless there is no pass at all. -/
theorem foldlM_updateLimitsValue (numRunningCpus : ℤ) (arrays : ClusterLimitsArrays)
    (is : List ℕ) : ∀ values : LimitsValues,
    ((∃ values', is.foldlM (updateLimitsValue numRunningCpus arrays) values = .ok values') ↔
      ∀ i ∈ is, i < arrays.percentages.length ∧ i < arrays.percentagesGlobal.length) ∧
    ∀ values', is.foldlM (updateLimitsValue numRunningCpus arrays) values = .ok values' →
      is ≠ [] → values'.limitsValues.length = arrays.tresholds.length ∧
        values'.limitsValuesGlobal.length = arrays.tresholds.length := by
  induction is with
  | nil =>
      intro values
      exact ⟨⟨fun _ => by simp, fun _ => ⟨values, rfl⟩⟩, fun _ _ h => absurd rfl h⟩
  | cons i is ih =>
      intro values
      refine ⟨⟨?_, ?_⟩, ?_⟩
      · rintro ⟨values', h⟩ j hj
        rw [List.foldlM_cons] at h
        obtain ⟨values₁, h₁, h₂⟩ := bind_ok.mp h
        rcases List.mem_cons.mp hj with rfl | hj
        · exact (updateLimitsValue_returns_iff _ _ _ _).mp ⟨values₁, h₁⟩
        · exact (ih values₁).1.mp ⟨values', h₂⟩ j hj
      · intro h
        obtain ⟨values₁, h₁⟩ :=
          (updateLimitsValue_returns_iff numRunningCpus arrays values i).mpr
            (h i List.mem_cons_self)
        obtain ⟨values', h₂⟩ := (ih values₁).1.mpr (fun j hj => h j (List.mem_cons_of_mem _ hj))
        exact ⟨values', by rw [List.foldlM_cons]; exact bind_ok.mpr ⟨values₁, h₁, h₂⟩⟩
      · intro values' h _
        rw [List.foldlM_cons] at h
        obtain ⟨values₁, h₁, h₂⟩ := bind_ok.mp h
        by_cases hnil : is = []
        · rw [hnil, List.foldlM_nil, pure_ok] at h₂
          rw [← h₂]
          exact updateLimitsValue_length h₁
        · exact (ih values₁).2 values' h₂ hnil

/-- Both vectors have one cell per threshold, and the cells of class `i` hold its limits. -/
structure ScaledAt (numRunningCpus : ℤ) (arrays : ClusterLimitsArrays) (values : LimitsValues)
    (i : ℕ) : Prop where
  length_eq : values.limitsValues.length = arrays.tresholds.length
  lengthGlobal_eq : values.limitsValuesGlobal.length = arrays.tresholds.length
  cells : ∃ percentage percentageGlobal, arrays.percentages[i]? = some percentage ∧
    arrays.percentagesGlobal[i]? = some percentageGlobal ∧
    values.limitsValues[i]? = some (scaleCpus numRunningCpus percentage) ∧
    values.limitsValuesGlobal[i]? = some (scaleCpus numRunningCpus percentageGlobal)

/-- A vector of the right length is not resized. -/
theorem resize_of_length {xs : List ℤ} {n : ℕ} (v : ℤ) (h : xs.length = n) :
    resize xs n v = xs := by
  unfold resize
  rw [← h, List.take_length, Nat.sub_self, List.replicate_zero, List.append_nil]

/-- A pass enters the cells of its class and keeps those entered before. -/
theorem updateLimitsValue_scaledAt {numRunningCpus : ℤ} {arrays : ClusterLimitsArrays}
    {values values' : LimitsValues} {i j : ℕ} (hi : i < arrays.tresholds.length)
    (hcell : i = j ∨ ScaledAt numRunningCpus arrays values i)
    (h : updateLimitsValue numRunningCpus arrays values j = .ok values') :
    ScaledAt numRunningCpus arrays values' i := by
  obtain ⟨hlength, hlengthGlobal⟩ := updateLimitsValue_length h
  refine ⟨hlength, hlengthGlobal, ?_⟩
  unfold updateLimitsValue at h
  obtain ⟨percentage, hperc, h⟩ := bind_ok.mp h
  obtain ⟨percentageGlobal, hpercGlobal, h⟩ := bind_ok.mp h
  rw [getAt_ok] at hperc hpercGlobal
  obtain rfl := pure_ok.mp h
  by_cases hij : j = i
  · subst hij
    refine ⟨percentage, percentageGlobal, hperc, hpercGlobal, ?_, ?_⟩
    · exact List.getElem?_set_self (by rwa [length_resize])
    · exact List.getElem?_set_self (by rwa [length_resize])
  · -- another class: its cells are those from before
    obtain ⟨hsize, hsizeGlobal, p, pg, hp, hpg, hvalue, hvalueGlobal⟩ :=
      hcell.resolve_left (Ne.symm hij)
    refine ⟨p, pg, hp, hpg, ?_, ?_⟩
    · show ((resize values.limitsValues _ 2).set j _)[i]? = _
      rw [List.getElem?_set_ne hij, resize_of_length 2 hsize]
      exact hvalue
    · show ((resize values.limitsValuesGlobal _ 2).set j _)[i]? = _
      rw [List.getElem?_set_ne hij, resize_of_length 2 hsizeGlobal]
      exact hvalueGlobal

/-- The loop enters the cells of all its classes. -/
theorem foldlM_updateLimitsValue_scaledAt {numRunningCpus : ℤ} {arrays : ClusterLimitsArrays}
    {i : ℕ} (hi : i < arrays.tresholds.length) (is : List ℕ) : ∀ {values values' : LimitsValues},
    (i ∈ is ∨ ScaledAt numRunningCpus arrays values i) →
      is.foldlM (updateLimitsValue numRunningCpus arrays) values = .ok values' →
      ScaledAt numRunningCpus arrays values' i := by
  induction is with
  | nil =>
      intro values values' hcell h
      rw [List.foldlM_nil, pure_ok] at h
      subst h
      exact hcell.resolve_left (List.not_mem_nil)
  | cons j is ih =>
      intro values values' hcell h
      rw [List.foldlM_cons] at h
      obtain ⟨values₁, h₁, h₂⟩ := bind_ok.mp h
      refine ih ?_ h₂
      by_cases hmem : i ∈ is
      · exact Or.inl hmem
      · refine Or.inr (updateLimitsValue_scaledAt hi ?_ h₁)
        rcases hcell with hcell | hcell
        · exact Or.inl ((List.mem_cons.mp hcell).resolve_right hmem)
        · exact Or.inr hcell

/-- Where the cells are entered already, a pass changes nothing. -/
theorem updateLimitsValue_fixed {numRunningCpus : ℤ} {arrays : ClusterLimitsArrays}
    {values : LimitsValues} {i : ℕ} (h : ScaledAt numRunningCpus arrays values i) :
    updateLimitsValue numRunningCpus arrays values i = .ok values := by
  obtain ⟨hsize, hsizeGlobal, p, pg, hp, hpg, hvalue, hvalueGlobal⟩ := h
  obtain ⟨hlt, hget⟩ := List.getElem?_eq_some_iff.mp hvalue
  obtain ⟨hltGlobal, hgetGlobal⟩ := List.getElem?_eq_some_iff.mp hvalueGlobal
  unfold updateLimitsValue
  rw [getAt_ok.mpr hp, getAt_ok.mpr hpg]
  show Except.ok (LimitsValues.mk _ _) = _
  rw [resize_of_length 2 hsize, resize_of_length 2 hsizeGlobal, ← hget, ← hgetGlobal,
    List.set_getElem_self, List.set_getElem_self]

/-- **The values in force do not change when they are brought up to date again.** -/
theorem updateLimitsValues_again {limits : LimitsForClusters} {cluster : PlanCluster}
    {values values' : LimitsValues} (h : updateLimitsValues limits cluster values = .ok values') :
    updateLimitsValues limits cluster values' = .ok values' := by
  unfold updateLimitsValues at h ⊢
  obtain ⟨arrays, harrays, h⟩ := bind_ok.mp h
  rw [harrays]
  have hscaled : ∀ i ∈ List.range arrays.tresholds.length,
      ScaledAt cluster.numRunningCpus arrays values' i := by
    intro i hi
    exact foldlM_updateLimitsValue_scaledAt (List.mem_range.mp hi) _ (Or.inl hi) h
  show List.foldlM _ _ _ = _
  clear h
  generalize List.range arrays.tresholds.length = is at hscaled
  induction is with
  | nil => rfl
  | cons i is ih =>
      rw [List.foldlM_cons, updateLimitsValue_fixed (hscaled i List.mem_cons_self)]
      exact ih (fun j hj => hscaled j (List.mem_cons_of_mem _ hj))

/-! ## Finding the limits -/

/-- `find_limits_for_cluster` returns the entry of the largest key that is low
enough, and nothing when there is none. -/
theorem findLimitsForCluster_ok {limits : LimitsForClusters} {name : String} {cpus : ℤ}
    {arrays : ClusterLimitsArrays} :
    findLimitsForCluster limits name cpus = .ok arrays ↔
      ∃ m key, limitArray limits name = some m ∧ (key, arrays) ∈ m.entries ∧ key ≤ cpus ∧
        ∀ e ∈ m.entries, e.1 ≤ cpus → e.1 ≤ key := by
  unfold findLimitsForCluster
  constructor
  · intro h
    obtain ⟨m, hm, h⟩ := bind_ok.mp h
    obtain ⟨e, he, h⟩ := bind_ok.mp h
    rw [deref_ok] at hm he
    rw [pure_ok] at h
    obtain ⟨hmem, hle, hmax⟩ := OrderedMap.floor?_eq_some he
    exact ⟨m, e.1, hm, by rw [← h]; exact hmem, hle, hmax⟩
  · rintro ⟨m, key, hm, hmem, hle, hmax⟩
    cases hfloor : m.floor? cpus with
    | none =>
        have := OrderedMap.floor?_eq_none.mp hfloor _ hmem
        simp only at this
        omega
    | some e =>
        obtain ⟨hmem', hle', hmax'⟩ := OrderedMap.floor?_eq_some hfloor
        have heq : e.1 = key := le_antisymm (hmax e hmem' hle') (hmax' _ hmem hle)
        have : e = (key, arrays) := OrderedMap.eq_of_fst_eq hmem' hmem heq
        rw [hm, deref]
        simp only [bind, Except.bind, hfloor, deref, pure, Except.pure, this]

/-- The class is in range exactly when one of the first thresholds is not
exceeded. -/
theorem findIdx_lt_iff (tresholds : List ℤ) (walltime : ℤ) :
    (tresholds.findIdx (fun treshold => decide (walltime ≤ treshold)) < tresholds.length ∧
      tresholds.findIdx (fun treshold => decide (walltime ≤ treshold)) < NUM_LIMITS) ↔
      ∃ treshold ∈ tresholds.take NUM_LIMITS, walltime ≤ treshold := by
  constructor
  · rintro ⟨hlen, hnum⟩
    refine ⟨tresholds[tresholds.findIdx (fun treshold => decide (walltime ≤ treshold))],
      ?_, by simpa using List.findIdx_getElem (w := hlen)⟩
    rw [List.mem_take_iff_getElem]
    exact ⟨_, by omega, rfl⟩
  · rintro ⟨treshold, hmem, hle⟩
    rw [List.mem_take_iff_getElem] at hmem
    obtain ⟨i, hi, rfl⟩ := hmem
    have hle : tresholds.findIdx (fun treshold => decide (walltime ≤ treshold)) ≤ i := by
      by_contra hlt
      have := List.not_of_lt_findIdx (Nat.lt_of_not_le hlt)
      rw [decide_eq_false_iff_not] at this
      exact this hle
    omega

/-! ## The users of the class -/

/-- `sum_limits_of_limit` reads inside every account for a real class. -/
theorem avoids_sumLimitsOfLimit (limit : PlanLimit) {c : ℕ} (hc : c < NUM_LIMITS) :
    Avoids .badIndex (sumLimitsOfLimit limit c) := by
  rw [sumLimitsOfLimit_eq limit hc]
  exact avoids_ok _ _

/-- What `limit_find_account` returns is an index of the accounts. -/
theorem lt_of_limitFindAccount {limit : PlanLimit} {accountId : ℤ} {i : ℕ}
    (h : limitFindAccount limit accountId = .ok (some i)) : i < limit.accounts.length := by
  obtain ⟨r, hr, hspec⟩ := limitFindAccount_spec limit accountId
  rw [hr] at h
  cases h
  obtain ⟨account, haccount, _⟩ := hspec i rfl
  exact (List.getElem?_eq_some_iff.mp haccount).1

/-- Looking an account up reads inside the array. -/
theorem avoids_limitFindAccount (limit : PlanLimit) (accountId : ℤ) :
    Avoids .badIndex (limitFindAccount limit accountId) := by
  obtain ⟨r, hr, _⟩ := limitFindAccount_spec limit accountId
  rw [hr]
  exact avoids_ok _ r

/-- Reading the class of an account is in range. -/
theorem avoids_getAt_numCpus (account : PlanLimitAccount) {c : ℕ} (hc : c < NUM_LIMITS) :
    Avoids .badIndex (getAt account.numCpus c) :=
  avoids_getAt _ (by rw [account.length_numCpus]; exact hc)

section users

variable {values : LimitsValues} {c : ℕ} (hvalues : c < values.limitsValues.length)
  (hglobal : c < values.limitsValuesGlobal.length) (hc : c < NUM_LIMITS)

include hvalues hglobal hc

/-- The loop of `limits_is_gap_ok` stays in range. -/
theorem avoids_gapOkForLimits (job : PlanJob) (gap : PlanGap) (profile : List PlanLimit) :
    Avoids .badIndex (gapOkForLimits values c job gap profile) := by
  induction profile with
  | nil => exact avoids_ok _ _
  | cons limit rest ih =>
      have hglobalOk : Avoids .badIndex (globalLimitOk values c job gap limit rest.head?) := by
        unfold globalLimitOk
        split
        · refine (avoids_sumLimitsOfLimit limit hc).bind (fun _ _ => ?_)
          exact (avoids_getAt _ hglobal).bind (fun _ _ => avoids_ok _ _)
        · exact avoids_ok _ _
      have haccountOk : Avoids .badIndex (accountLimitOk values c job gap limit rest.head?) := by
        unfold accountLimitOk
        refine (avoids_limitFindAccount limit job.accountId).bind (fun found hfound => ?_)
        cases found with
        | none => exact avoids_ok _ _
        | some foundAccount =>
            simp only
            split
            · refine (avoids_getAt _ hvalues).bind (fun _ _ => ?_)
              refine (avoids_getAt _ (lt_of_limitFindAccount hfound)).bind (fun account _ => ?_)
              exact (avoids_getAt_numCpus account hc).bind (fun _ _ => avoids_ok _ _)
            · exact avoids_ok _ _
      rw [gapOkForLimits]
      refine hglobalOk.bind (fun ok _ => ?_)
      cases ok with
      | false => exact avoids_ok _ _
      | true =>
          refine haccountOk.bind (fun ok _ => ?_)
          cases ok with
          | false => exact avoids_ok _ _
          | true => exact ih

/-- The loop of `adjust_job_starttime_according_to_limits` stays in range. -/
theorem avoids_adjustToLimits (profile : List PlanLimit) :
    ∀ job, Avoids .badIndex (adjustToLimits values c profile job) := by
  induction profile with
  | nil => intro job; exact avoids_ok _ _
  | cons limit rest ih =>
      intro job
      have hmove : Avoids .badIndex (deref rest.head? >>= fun next =>
          (pure (job.startAt next.timestamp) : Run PlanJob)) :=
        (avoids_deref _).bind (fun _ _ => avoids_ok _ _)
      have haccount : Avoids .badIndex (adjustToAccount values c limit rest.head? job) := by
        unfold adjustToAccount
        refine (avoids_limitFindAccount limit job.accountId).bind (fun found hfound => ?_)
        cases found with
        | none => exact avoids_ok _ _
        | some foundAccount =>
            simp only
            split
            · refine (avoids_getAt _ (lt_of_limitFindAccount hfound)).bind (fun account _ => ?_)
              refine (avoids_getAt_numCpus account hc).bind (fun _ _ => ?_)
              refine (avoids_getAt _ hvalues).bind (fun _ _ => ?_)
              split
              · exact hmove
              · exact avoids_ok _ _
            · exact avoids_ok _ _
      rw [adjustToLimits]
      refine Avoids.bind ?_ (fun job' _ => ih job')
      unfold adjustToLimit
      split
      · refine (avoids_sumLimitsOfLimit limit hc).bind (fun _ _ => ?_)
        refine (avoids_getAt _ hglobal).bind (fun _ _ => ?_)
        split
        · exact hmove
        · exact haccount
      · exact haccount

end users

/-! ## The characterisation -/

/-- **Class indices are in range exactly for covered walltimes.** -/
theorem limitIndexSafe_iff (limits : LimitsForClusters) (cluster : PlanCluster) (walltime : ℤ) :
    LimitIndexSafe limits cluster walltime ↔ LimitCovers limits cluster walltime := by
  constructor
  · intro hsafe
    obtain ⟨m, key, arrays, hm, hmem, hle, hmax, hfind⟩ := hsafe.found
    -- what the update reads shows the lengths of the percentages
    obtain ⟨values', c, hupdate, hclass, hvalues, _, hc⟩ := hsafe.index ⟨[], []⟩
    unfold updateLimitsValues at hupdate
    rw [hfind] at hupdate
    change (List.range arrays.tresholds.length).foldlM
      (updateLimitsValue cluster.numRunningCpus arrays) ⟨[], []⟩ = .ok values' at hupdate
    obtain ⟨hreturns, hlength⟩ := foldlM_updateLimitsValue cluster.numRunningCpus arrays
      (List.range arrays.tresholds.length) ⟨[], []⟩
    have hall := hreturns.mp ⟨values', hupdate⟩
    -- without a class the values would have stayed empty
    have hnonempty : List.range arrays.tresholds.length ≠ [] := by
      intro hnil
      rw [hnil, List.foldlM_nil, pure_ok] at hupdate
      rw [← hupdate] at hvalues
      exact absurd hvalues (by simp)
    rw [(hlength values' hupdate hnonempty).1] at hvalues
    unfold walltimeSuitsToLimit at hclass
    rw [hfind] at hclass
    have hidx : arrays.tresholds.findIdx (fun treshold => decide (toInt walltime ≤ treshold)) = c :=
      pure_ok.mp hclass
    have hlast := hall (arrays.tresholds.length - 1) (by
      rw [List.mem_range]
      omega)
    refine ⟨m, key, arrays, hm, hmem, hle, hmax, by omega, by omega, ?_⟩
    exact (findIdx_lt_iff arrays.tresholds _).mp ⟨hidx ▸ hvalues, hidx ▸ hc⟩
  · rintro ⟨m, key, arrays, hm, hmem, hle, hmax, hperc, hpercGlobal, htreshold⟩
    have hfind : findLimitsForCluster limits cluster.clusterName cluster.numRunningCpus
        = .ok arrays := findLimitsForCluster_ok.mpr ⟨m, key, hm, hmem, hle, hmax⟩
    obtain ⟨hlen, hnum⟩ := (findIdx_lt_iff arrays.tresholds (toInt walltime)).mpr htreshold
    have hclass : walltimeSuitsToLimit limits walltime cluster
        = .ok (arrays.tresholds.findIdx (fun treshold => decide (toInt walltime ≤ treshold))) := by
      unfold walltimeSuitsToLimit
      rw [hfind]
      rfl
    have hupdate : ∀ values, updateLimitsValues limits cluster values
        = (List.range arrays.tresholds.length).foldlM
          (updateLimitsValue cluster.numRunningCpus arrays) values := by
      intro values
      unfold updateLimitsValues
      rw [hfind]
      rfl
    have hnonempty : List.range arrays.tresholds.length ≠ [] := by
      rw [Ne, List.range_eq_nil]
      omega
    have hlength := fun values => (foldlM_updateLimitsValue cluster.numRunningCpus arrays
      (List.range arrays.tresholds.length) values)
    -- the lookup, the update of the values, and the three users of the index
    refine ⟨⟨m, key, arrays, hm, hmem, hle, hmax, hfind⟩, ?_, ?_⟩
    · intro values
      obtain ⟨values', hvalues'⟩ := (hlength values).1.mpr (by
        intro i hi
        rw [List.mem_range] at hi
        omega)
      obtain ⟨h₁, h₂⟩ := (hlength values).2 values' hvalues' hnonempty
      exact ⟨values', _, by rw [hupdate]; exact hvalues', hclass, by omega, by omega, hnum⟩
    · intro values values' hvalues'
      rw [hupdate] at hvalues'
      obtain ⟨h₁, h₂⟩ := (hlength values).2 values' hvalues' hnonempty
      rw [← h₁] at hlen
      refine ⟨?_, ?_, ?_⟩
      · intro profile job gap hwall
        unfold limitsIsGapOk
        rw [hwall, hclass]
        refine (avoids_getAt _ hlen).bind (fun _ _ => ?_)
        split
        · exact avoids_ok _ _
        · exact avoids_gapOkForLimits hlen (by omega) hnum job gap profile
      · intro profile job hwall
        unfold adjustJobStarttimeAccordingToLimits
        rw [hwall, hclass]
        exact avoids_adjustToLimits hlen (by omega) hnum profile job
      · intro limit accountId numCpus
        obtain ⟨limit', hlimit', _⟩ :=
          addLimitToLimit_spec limits cluster limit accountId walltime numCpus hclass hnum
        rw [hlimit']
        exact avoids_ok _ _

/-- The limit lines of the distributed configuration, as the values that
`parse_config` hands to `parse_limit`. -/
def shippedLimits : List String :=
  [":;\t\t7200,1.0,1.0;\t14400,1.0,1.0;\t86400,1.0,1.0;\t172800,1.0,1.0;",
    ":;\t\t345600,1.0,1.0;\t604800,1.0,1.0;\t1209600,1.0,1.0;5356800,1.0,1.0",
    ":300;\t7200,0.6,0.8;\t14400,0.55,0.7;\t86400,0.5,0.6;\t172800,0.5,0.6;",
    ":300;\t345600,0.5,0.6;\t604800,0.6,0.6;\t1209600,0.5,0.6;5356800,0.5,1.0"]

/-- With the distributed limits, a walltime one second above the last threshold
gets class 8, which is outside of every array. -/
theorem limitIndexSafe_shipped :
    ∃ limits, parseLimits shippedLimits = .ok limits ∧
      walltimeSuitsToLimit limits 5356801 ⟨"zubat", [], 100, 100, 0⟩ = .ok 8 ∧
      ¬ LimitIndexSafe limits ⟨"zubat", [], 100, 100, 0⟩ 5356801 := by
  have hrun : (parseLimits shippedLimits >>= fun limits =>
      walltimeSuitsToLimit limits 5356801 ⟨"zubat", [], 100, 100, 0⟩) = .ok 8 := by
    decide +kernel
  obtain ⟨limits, hparse, hclass⟩ := bind_ok.mp hrun
  refine ⟨limits, hparse, hclass, ?_⟩
  intro hsafe
  obtain ⟨values', c, _, hc, _, _, hlt⟩ := hsafe.index ⟨[], []⟩
  rw [hclass] at hc
  cases hc
  exact absurd hlt (by decide)

end PlanSched
