/-
# The walltime limits of a node

Models `get_walltime_limit_min` and `get_walltime_limit_max` (`plan_schedule.cpp`),
which look for the limits among the properties of a node that `filter_exclude` selects:
the text behind `min_` or `max_` is read by `decode_time`, and the last one counts.

* `walltimeLimits_exact_iff`: the limits are recognised exactly, and nothing is read
  behind the end of a property, if and only if no property is a shorter beginning of
  `min_` or `max_` (the empty text is one).
-/
import PlanSched.ClusterUpdate
import PlanSched.DecodeTime

namespace PlanSched

open CheckedRun

/-! ## The lookup -/

section lookup

variable (PBSE_BADATVAL : ℤ)

/-- The text at `c_str() + 4`; behind the end of a shorter text there is none. -/
def afterPrefix (property : String) : Run (List Char) :=
  if 4 ≤ property.toList.length then .ok (property.toList.drop 4) else .error .badIndex

/-- One round of the loop over the excluded properties. -/
def walltimeLimitStep (limit : String) (ret : ℤ) (property : String) : Run ℤ :=
  if isPrefix property.toList limit.toList then
    (afterPrefix property).map (fun value => decodeTime PBSE_BADATVAL (some value))
  else .ok ret

/-- The two functions differ in the text in front of the limit. -/
def getWalltimeLimit (limit : String) (properties : Finset String) : Run ℤ :=
  (filterExclude properties true).sort.foldlM (walltimeLimitStep PBSE_BADATVAL limit) 0

/-- `get_walltime_limit_min`. -/
def getWalltimeLimitMin (properties : Finset String) : Run ℤ :=
  getWalltimeLimit PBSE_BADATVAL "min_" properties

/-- `get_walltime_limit_max`. -/
def getWalltimeLimitMax (properties : Finset String) : Run ℤ :=
  getWalltimeLimit PBSE_BADATVAL "max_" properties

/-! ## The property -/

/-- The value is that of a property with the whole text in front of it, or zero if there is
none. -/
def FromLimit (limit : String) (properties : Finset String) (value : ℤ) : Prop :=
  (value = 0 ∧ ∀ p ∈ properties, ¬ limit.toList <+: p.toList) ∨
  ∃ p ∈ properties, limit.toList <+: p.toList ∧
    value = decodeTime PBSE_BADATVAL (some (p.toList.drop limit.toList.length))

/-- The limits are told exactly from the other properties, and read. -/
structure LimitsExact (properties : Finset String) : Prop where
  excluded : ∀ p, p ∈ filterExclude properties true ↔ p ∈ properties ∧ IsWalltimeLimit p
  kept : ∀ p, p ∈ filterExclude properties false ↔ p ∈ properties ∧ ¬ IsWalltimeLimit p
  min : ∃ value, getWalltimeLimitMin PBSE_BADATVAL properties = .ok value ∧
    FromLimit PBSE_BADATVAL "min_" properties value
  max : ∃ value, getWalltimeLimitMax PBSE_BADATVAL properties = .ok value ∧
    FromLimit PBSE_BADATVAL "max_" properties value

end lookup

/-- No property is a shorter beginning of the text. -/
def NoShorter (limit : String) (properties : Finset String) : Prop :=
  ∀ p ∈ properties, p.toList <+: limit.toList → p.toList = limit.toList

/-! ## The loop -/

variable {PBSE_BADATVAL : ℤ} {limit : String} {properties : Finset String}

/-- Without shorter beginnings `is_prefix` says that the text stands in front. -/
theorem NoShorter.isPrefix_iff (h : NoShorter limit properties) {p : String}
    (hp : p ∈ properties) : isPrefix p.toList limit.toList = true ↔ limit.toList <+: p.toList := by
  rw [PlanSched.isPrefix_iff]
  constructor
  · rintro (hshort | hlong)
    · rw [h p hp hshort]
    · exact hlong
  · exact Or.inr

/-- The loop over a list of properties none of which is a shorter beginning. -/
theorem foldlM_walltimeLimitStep (hlength : limit.toList.length = 4) (strings : List String) :
    (∀ p ∈ strings, isPrefix p.toList limit.toList = true → limit.toList <+: p.toList) →
    ∀ ret, ∃ value, strings.foldlM (walltimeLimitStep PBSE_BADATVAL limit) ret = .ok value ∧
      ((value = ret ∧ ∀ p ∈ strings, ¬ limit.toList <+: p.toList) ∨
        ∃ p ∈ strings, limit.toList <+: p.toList ∧
          value = decodeTime PBSE_BADATVAL (some (p.toList.drop limit.toList.length))) := by
  induction strings with
  | nil => exact fun _ ret => ⟨ret, rfl, Or.inl ⟨rfl, fun p hp => absurd hp List.not_mem_nil⟩⟩
  | cons p strings ih =>
      intro h ret
      have hrest := ih (fun q hq => h q (List.mem_cons_of_mem p hq))
      by_cases hlimit : limit.toList <+: p.toList
      · set here := decodeTime PBSE_BADATVAL (some (p.toList.drop limit.toList.length))
        have hstep : walltimeLimitStep PBSE_BADATVAL limit ret p = .ok here := by
          unfold walltimeLimitStep afterPrefix
          rw [if_pos (isPrefix_of_leading hlimit), if_pos (hlength ▸ hlimit.length_le)]
          show Except.ok _ = _
          rw [← hlength]
        obtain ⟨value, hrun, hvalue⟩ := hrest here
        refine ⟨value, ?_, Or.inr ?_⟩
        · rw [List.foldlM_cons, hstep]
          exact hrun
        · rcases hvalue with ⟨rfl, _⟩ | ⟨q, hq, hfound⟩
          · exact ⟨p, List.mem_cons_self, hlimit, rfl⟩
          · exact ⟨q, List.mem_cons_of_mem p hq, hfound⟩
      · have hstep : walltimeLimitStep PBSE_BADATVAL limit ret p = .ok ret :=
          if_neg (fun hp => hlimit (h p List.mem_cons_self hp))
        obtain ⟨value, hrun, hvalue⟩ := hrest ret
        refine ⟨value, ?_, ?_⟩
        · rw [List.foldlM_cons, hstep]
          exact hrun
        · rcases hvalue with ⟨rfl, hnone⟩ | ⟨q, hq, hfound⟩
          · exact Or.inl ⟨rfl, List.forall_mem_cons.mpr ⟨hlimit, hnone⟩⟩
          · exact Or.inr ⟨q, List.mem_cons_of_mem p hq, hfound⟩

/-- The lookup of one limit. -/
theorem getWalltimeLimit_spec (hlength : limit.toList.length = 4)
    (hnot : NoShorter limit properties)
    (hexcluded : ∀ p ∈ properties, limit.toList <+: p.toList → isExcluded p = true) :
    ∃ value, getWalltimeLimit PBSE_BADATVAL limit properties = .ok value ∧
      FromLimit PBSE_BADATVAL limit properties value := by
  have hmem : ∀ p, p ∈ (filterExclude properties true).sort ↔
      p ∈ properties ∧ isExcluded p = true := by
    intro p
    rw [Finset.mem_sort, filterExclude, Finset.mem_filter]
  obtain ⟨value, hrun, hvalue⟩ := @foldlM_walltimeLimitStep PBSE_BADATVAL limit
    hlength (filterExclude properties true).sort
    (fun p hp => (hnot.isPrefix_iff ((hmem p).mp hp).1).mp) 0
  refine ⟨value, hrun, hvalue.imp ?_ ?_⟩
  · rintro ⟨hzero, hnone⟩
    refine ⟨hzero, fun p hp hlimit => hnone p ((hmem p).mpr ⟨hp, hexcluded p hp hlimit⟩) hlimit⟩
  · rintro ⟨p, hp, hfound⟩
    exact ⟨p, ((hmem p).mp hp).1, hfound⟩

/-! ## Exactness -/

/-- Excluded are the properties that begin with a limit, or are a shorter beginning of one. -/
theorem isExcluded_iff (p : String) : isExcluded p = true ↔ IsWalltimeLimit p ∨
    p.toList <+: "min_".toList ∨ p.toList <+: "max_".toList := by
  unfold isExcluded IsWalltimeLimit
  rw [Bool.or_eq_true, isPrefix_iff, isPrefix_iff]
  tauto

/-- The limits are recognised exactly, if and only if no property is a shorter beginning of one
of the two texts. -/
theorem walltimeLimits_exact_iff (PBSE_BADATVAL : ℤ) (properties : Finset String) :
    LimitsExact PBSE_BADATVAL properties ↔
      NoShorter "min_" properties ∧ NoShorter "max_" properties := by
  constructor
  · intro h
    have hshort : ∀ limit : String, limit.toList.length = 4 →
        (∀ p : String, p.toList <+: limit.toList → isExcluded p = true) →
        NoShorter limit properties := by
      intro limit hlength hexcluded p hp hprefix
      have hlimit := ((h.excluded p).mp
        (Finset.mem_filter.mpr ⟨hp, hexcluded p hprefix⟩)).2
      refine hprefix.eq_of_length_le ?_
      rw [hlength]
      rcases hlimit with hlimit | hlimit
      · exact hlimit.length_le
      · exact hlimit.length_le
    exact ⟨hshort "min_" rfl (fun p hp => (isExcluded_iff p).mpr (Or.inr (Or.inl hp))),
      hshort "max_" rfl (fun p hp => (isExcluded_iff p).mpr (Or.inr (Or.inr hp)))⟩
  · rintro ⟨hmin, hmax⟩
    have hexact : ∀ p ∈ properties, isExcluded p = true ↔ IsWalltimeLimit p := by
      intro p hp
      unfold isExcluded IsWalltimeLimit
      rw [Bool.or_eq_true, hmin.isPrefix_iff hp, hmax.isPrefix_iff hp]
    refine ⟨?_, ?_, ?_, ?_⟩
    · intro p
      rw [filterExclude, Finset.mem_filter]
      exact and_congr_right (hexact p)
    · intro p
      rw [filterExclude, Finset.mem_filter]
      refine and_congr_right (fun hp => ?_)
      rw [← hexact p hp, Bool.not_eq_true]
    · exact getWalltimeLimit_spec rfl hmin
        (fun p _ hlimit => isExcluded_of_limit (Or.inl hlimit))
    · exact getWalltimeLimit_spec rfl hmax
        (fun p _ hlimit => isExcluded_of_limit (Or.inr hlimit))

/-- A property `m` is taken for a limit, and the text behind its end is read. -/
theorem shortProperty_read_past_end :
    ¬ LimitsExact (-1) {"m"} ∧ getWalltimeLimitMin (-1) {"m"} = .error .badIndex := by
  refine ⟨?_, ?_⟩
  · intro h
    have hmem : "m" ∈ filterExclude {"m"} true := by decide
    have := ((h.excluded "m").mp hmem).2
    revert this
    decide
  · have hfilter : filterExclude {"m"} true = {"m"} := by decide
    unfold getWalltimeLimitMin getWalltimeLimit
    rw [hfilter, Finset.sort_singleton]
    rfl

end PlanSched
