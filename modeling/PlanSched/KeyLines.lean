/-
# Sort keys of the configuration

The `key` lines of a configuration file fill `prime_sort` and `non_prime_sort` (`parse.cpp`) from
index 1 on.  Both tests in front of the two assignments ask for `PRIME` or `ALL`, so both arrays get
the keys for prime time: a key for prime time only is entered for the other time as well, and a key
for the other time only is entered nowhere.

* `fillTable` is a table of fixed size filled from the front, with `fillTable_set` and
  `fillTable_full` for the next entry;
* `KeysEntered` is the invariant: both counters stand behind the keys for prime time entered so far;
* `sortWrites` are the indices a line writes (`parseSetting_frame` is that there are no others), at
  most `num_sorts` in every state that is reached;
* `sort_keys_iff`: the keys are where they belong exactly if the two lists of keys give the same
  table.
-/
import PlanSched.ConfigLines

namespace PlanSched

open CheckedRun CText

/-! ## Tables of fixed size -/

section Table

variable {α β : Type}

/-- The first `n` elements, filled up with `d`. -/
def fillTable (n : ℕ) (d : α) (xs : List α) : List α :=
  xs.take n ++ List.replicate (n - xs.length) d

/-- A table has its size. -/
theorem fillTable_length (n : ℕ) (d : α) (xs : List α) : (fillTable n d xs).length = n := by
  unfold fillTable
  rw [List.length_append, List.length_take, List.length_replicate]
  omega

/-- Entering the next element where the table goes on. -/
theorem fillTable_set {n : ℕ} (d x : α) {xs : List α} (h : xs.length < n) :
    (fillTable n d xs).set xs.length x = fillTable n d (xs ++ [x]) := by
  unfold fillTable
  obtain ⟨k, hk⟩ : ∃ k, n - xs.length = k + 1 := ⟨n - xs.length - 1, by omega⟩
  have hrest : n - (xs ++ [x]).length = k := by
    rw [List.length_append, List.length_singleton]
    omega
  rw [List.take_of_length_le (le_of_lt h), List.take_of_length_le (by simp; omega), hk, hrest,
    List.replicate_succ, List.set_append_right _ _ (le_refl _), Nat.sub_self, List.set_cons_zero,
    List.append_assoc, List.singleton_append]

/-- A full table stays as it is. -/
theorem fillTable_full {n : ℕ} (d x : α) {xs : List α} (h : n ≤ xs.length) :
    fillTable n d (xs ++ [x]) = fillTable n d xs := by
  unfold fillTable
  rw [List.take_append_of_le_length h, Nat.sub_eq_zero_of_le h,
    Nat.sub_eq_zero_of_le (by rw [List.length_append]; omega)]

/-- Elements seen through a function. -/
theorem map_fillTable (f : α → β) (n : ℕ) (d : α) (xs : List α) :
    (fillTable n d xs).map f = fillTable n (f d) (xs.map f) := by
  unfold fillTable
  rw [List.map_append, List.map_take, List.map_replicate, List.length_map]

end Table

/-! ## The keys of a file -/

/-- The sort a key line enters, for lines with the given marks. -/
def keyOf (marked : PrimeTime → Bool) (s : SettingLine) : Option ℕ :=
  if s.name = "key" ∧ marked s.period then sortNamed s.value else none

/-- The sorts of the key lines with the given marks, in file order. -/
def keysFor (marked : PrimeTime → Bool) (settings : List SettingLine) : List ℕ :=
  settings.filterMap (keyOf marked)

/-- The sort of an entry of a sort array, `NO_SORT` where nothing was entered. -/
def sortOf (entry : Option ℕ) : ℕ := entry.getD 0

/-- The keys cut at `num_sorts` entries and followed by `NO_SORT`. -/
def keyTable (keys : List ℕ) : List ℕ := fillTable numSorts 0 keys

/-- The indices of the sort arrays that a setting writes. -/
def sortWrites (st : ParseState) (s : SettingLine) : List ℕ :=
  if s.name = "key" ∧ (sortNamed s.value).isSome then
    if (s.period.inPrime && st.pkeyNum ≤ numSorts) ||
        (s.period.inNonPrime && st.npkeyNum ≤ numSorts) then
      if s.period.inPrime then [st.pkeyNum, st.npkeyNum] else []
    else []
  else if s.name = "sort_by" ∧ (sortNamed s.value).isSome then [0]
  else []

/-! ## The invariant -/

/-- Behind the first entry the array holds these keys. -/
def HoldsKeys (entries : List (Option ℕ)) (keys : List ℕ) : Prop :=
  ∃ first, entries = first :: fillTable numSorts none (keys.map some)

/-- Both arrays hold the keys, and both counters stand behind them. -/
structure KeysEntered (keys : List ℕ) (st : ParseState) : Prop where
  prime : HoldsKeys st.conf.primeSort keys
  nonPrime : HoldsKeys st.conf.nonPrimeSort keys
  pkeyNum : st.pkeyNum = min keys.length numSorts + 1
  npkeyNum : st.npkeyNum = min keys.length numSorts + 1

variable {keys : List ℕ} {entries : List (Option ℕ)} {st : ParseState}

/-- One more key at the counter. -/
theorem HoldsKeys.set (h : HoldsKeys entries keys) (hlen : keys.length < numSorts) (i : ℕ) :
    HoldsKeys (entries.set (keys.length + 1) (some i)) (keys ++ [i]) := by
  obtain ⟨first, rfl⟩ := h
  refine ⟨first, ?_⟩
  have hset : (fillTable numSorts none (keys.map some)).set (keys.map some).length (some i)
      = fillTable numSorts none (keys.map some ++ [some i]) :=
    fillTable_set none (some i) (by rw [List.length_map]; exact hlen)
  rw [List.length_map] at hset
  rw [List.set_cons_succ, hset, List.map_append, List.map_singleton]

/-- A full array holds no more. -/
theorem HoldsKeys.full (h : HoldsKeys entries keys) (hlen : numSorts ≤ keys.length) (i : ℕ) :
    HoldsKeys entries (keys ++ [i]) := by
  obtain ⟨first, rfl⟩ := h
  refine ⟨first, ?_⟩
  rw [List.map_append, List.map_singleton,
    fillTable_full none (some i) (by rw [List.length_map]; exact hlen)]

/-- Writing the first entry leaves the keys. -/
theorem HoldsKeys.setFirst (h : HoldsKeys entries keys) (entry : Option ℕ) :
    HoldsKeys (entries.set 0 entry) keys := by
  obtain ⟨first, rfl⟩ := h
  exact ⟨entry, List.set_cons_zero⟩

/-- The sorts behind the first entry. -/
theorem HoldsKeys.sorts (h : HoldsKeys entries keys) :
    entries.tail.map sortOf = keyTable keys := by
  obtain ⟨first, rfl⟩ := h
  rw [List.tail_cons, map_fillTable, List.map_map]
  exact congrArg (fillTable numSorts 0) (List.map_id keys)

/-- A key for prime time is entered in both arrays. -/
theorem parseKey_prime (h : KeysEntered keys st) {period : PrimeTime} (i : ℕ)
    (hperiod : period.inPrime = true) : KeysEntered (keys ++ [i]) (parseKey st period i) := by
  obtain ⟨hprime, hnonPrime, hp, hnp⟩ := h
  have hlength : (keys ++ [i]).length = keys.length + 1 := List.length_append
  by_cases hroom : keys.length < numSorts
  · have hcount : st.pkeyNum = keys.length + 1 := by omega
    have hcount' : st.npkeyNum = keys.length + 1 := by omega
    have hfits : ((period.inPrime && decide (st.pkeyNum ≤ numSorts)) ||
        (period.inNonPrime && decide (st.npkeyNum ≤ numSorts))) = true := by
      rw [hperiod, Bool.true_and, decide_eq_true (by omega), Bool.true_or]
    unfold parseKey
    rw [if_pos hfits, if_pos hperiod, hcount, hcount']
    exact ⟨hprime.set hroom i, hnonPrime.set hroom i,
      show keys.length + 1 + 1 = _ by omega, show keys.length + 1 + 1 = _ by omega⟩
  · have hfull : ¬ ((period.inPrime && decide (st.pkeyNum ≤ numSorts)) ||
        (period.inNonPrime && decide (st.npkeyNum ≤ numSorts))) = true := by
      rw [decide_eq_false (by omega), decide_eq_false (by omega), Bool.and_false, Bool.and_false]
      exact Bool.false_ne_true
    unfold parseKey
    rw [if_neg hfull]
    exact ⟨hprime.full (by omega) i, hnonPrime.full (by omega) i, by omega, by omega⟩

/-- Any other key is entered nowhere. -/
theorem parseKey_other {period : PrimeTime} (i : ℕ) (hperiod : ¬ period.inPrime = true) :
    parseKey st period i = st := by
  unfold parseKey
  rw [if_neg hperiod, ite_self]

/-- Writing first entries leaves the keys. -/
theorem KeysEntered.setFirst (h : KeysEntered keys st) (period : PrimeTime) (i : ℕ) :
    KeysEntered keys (st.setConf { st.conf with
      primeSort := if period.inPrime then st.conf.primeSort.set 0 (some i) else st.conf.primeSort
      nonPrimeSort := if period.inNonPrime then st.conf.nonPrimeSort.set 0 (some i)
        else st.conf.nonPrimeSort }) where
  prime := by
    show HoldsKeys (if period.inPrime then st.conf.primeSort.set 0 (some i)
      else st.conf.primeSort) keys
    split
    · exact h.prime.setFirst (some i)
    · exact h.prime
  nonPrime := by
    show HoldsKeys (if period.inNonPrime then st.conf.nonPrimeSort.set 0 (some i)
      else st.conf.nonPrimeSort) keys
    split
    · exact h.nonPrime.setFirst (some i)
    · exact h.nonPrime
  pkeyNum := h.pkeyNum
  npkeyNum := h.npkeyNum

/-- One setting: the arrays follow the keys for prime time. -/
theorem parseSetting_keys {st st' : ParseState} (h : KeysEntered keys st) (s : SettingLine)
    (hset : parseSetting st s.name s.value s.valueOn s.period = .ok st') :
    KeysEntered (keys ++ (keyOf PrimeTime.inPrime s).toList) st' := by
  have hnotKey : s.name ≠ "key" → keyOf PrimeTime.inPrime s = none :=
    fun hkey => if_neg (fun hboth => hkey hboth.1)
  rcases parseSetting_cases hset with ⟨hname, limits, rfl⟩ | ⟨hname, rfl⟩ | ⟨hname, rfl⟩ |
    ⟨hname, conf, rfl, hsame⟩
  · rw [hnotKey (by rw [hname]; decide), Option.toList_none, List.append_nil]
    exact ⟨h.prime, h.nonPrime, h.pkeyNum, h.npkeyNum⟩
  · by_cases hperiod : s.period.inPrime = true
    · rw [show keyOf PrimeTime.inPrime s = sortNamed s.value from if_pos ⟨hname, hperiod⟩]
      cases sortNamed s.value with
      | none =>
          rw [Option.toList_none, List.append_nil]
          exact h
      | some i => exact parseKey_prime h i hperiod
    · rw [show keyOf PrimeTime.inPrime s = none from if_neg (fun hboth => hperiod hboth.2),
        Option.toList_none, List.append_nil]
      cases sortNamed s.value with
      | none => exact h
      | some i =>
          dsimp only
          rw [parseKey_other i hperiod]
          exact h
  · rw [hnotKey (by rw [hname]; decide), Option.toList_none, List.append_nil]
    cases sortNamed s.value with
    | none => exact h
    | some i => exact h.setFirst s.period i
  · rw [hnotKey hname, Option.toList_none, List.append_nil]
    refine ⟨?_, ?_, h.pkeyNum, h.npkeyNum⟩
    · show HoldsKeys conf.primeSort keys
      rw [hsame.primeSort]
      exact h.prime
    · show HoldsKeys conf.nonPrimeSort keys
      rw [hsame.nonPrimeSort]
      exact h.nonPrime

/-- All the settings of a run. -/
theorem foldlM_parseSetting_keys (settings : List SettingLine) {keys : List ℕ}
    {st st' : ParseState} (h : KeysEntered keys st)
    (hrun : settings.foldlM (fun st s => parseSetting st s.name s.value s.valueOn s.period) st
      = .ok st') :
    KeysEntered (keys ++ keysFor PrimeTime.inPrime settings) st' := by
  induction settings generalizing keys st with
  | nil =>
      obtain rfl := pure_ok.mp hrun
      rw [show keysFor PrimeTime.inPrime [] = [] from rfl, List.append_nil]
      exact h
  | cons s settings ih =>
      rw [List.foldlM_cons] at hrun
      obtain ⟨st₁, hset, hrest⟩ := bind_ok.mp hrun
      have hkeys : keysFor PrimeTime.inPrime (s :: settings)
          = (keyOf PrimeTime.inPrime s).toList ++ keysFor PrimeTime.inPrime settings := by
        unfold keysFor
        cases hkey : keyOf PrimeTime.inPrime s with
        | none => rw [List.filterMap_cons_none hkey, Option.toList_none, List.nil_append]
        | some i => rw [List.filterMap_cons_some hkey, Option.toList_some, List.singleton_append]
      rw [hkeys, ← List.append_assoc]
      exact ih (parseSetting_keys h s hset) hrest

/-- What `init_config` leaves holds no keys. -/
theorem init_keysEntered : KeysEntered [] ⟨Settings.init, 1, 1⟩ where
  prime := ⟨none, rfl⟩
  nonPrime := ⟨none, rfl⟩
  pkeyNum := rfl
  npkeyNum := rfl

/-! ## The indices -/

/-- Where both counters agree no index lies behind the arrays. -/
theorem sortWrites_le (h : KeysEntered keys st) (s : SettingLine) :
    ∀ i ∈ sortWrites st s, i ≤ numSorts := by
  intro i hi
  have hp := h.pkeyNum
  have hnp := h.npkeyNum
  unfold sortWrites at hi
  split at hi
  · split at hi
    · rename_i hfits
      have hroom : st.pkeyNum ≤ numSorts := by
        rcases Bool.or_eq_true _ _ ▸ hfits with hfits | hfits
        · exact of_decide_eq_true (Bool.and_eq_true _ _ ▸ hfits).2
        · have := of_decide_eq_true (Bool.and_eq_true _ _ ▸ hfits).2
          omega
      split at hi
      · simp only [List.mem_cons, List.not_mem_nil, or_false] at hi
        omega
      · cases hi
    · cases hi
  · split at hi
    · rw [List.mem_singleton.mp hi]
      exact Nat.zero_le _
    · cases hi

/-- A setting leaves every other index of both arrays. -/
theorem parseSetting_frame {st st' : ParseState} {s : SettingLine}
    (hset : parseSetting st s.name s.value s.valueOn s.period = .ok st') {i : ℕ}
    (hi : i ∉ sortWrites st s) :
    st'.conf.primeSort[i]? = st.conf.primeSort[i]? ∧
      st'.conf.nonPrimeSort[i]? = st.conf.nonPrimeSort[i]? := by
  unfold sortWrites at hi
  -- only a `key` and a `sort_by` line write into the arrays
  rcases parseSetting_cases hset with ⟨_, limits, rfl⟩ | ⟨hname, rfl⟩ | ⟨hname, rfl⟩ |
    ⟨_, conf, rfl, hsame⟩
  · exact ⟨rfl, rfl⟩
  · cases hsort : sortNamed s.value with
    | none => exact ⟨rfl, rfl⟩
    | some j =>
        rw [if_pos ⟨hname, by rw [hsort]; rfl⟩] at hi
        dsimp only
        unfold parseKey
        split
        · rename_i hfits
          rw [if_pos hfits] at hi
          split
          · rename_i hperiod
            rw [if_pos hperiod, List.mem_cons, List.mem_singleton, not_or] at hi
            exact ⟨List.getElem?_set_ne (Ne.symm hi.1), List.getElem?_set_ne (Ne.symm hi.2)⟩
          · exact ⟨rfl, rfl⟩
        · exact ⟨rfl, rfl⟩
  · cases hsort : sortNamed s.value with
    | none => exact ⟨rfl, rfl⟩
    | some j =>
        have hkey : s.name ≠ "key" := by
          rw [hname]
          decide
        rw [if_neg (fun hboth => hkey hboth.1), if_pos ⟨hname, by rw [hsort]; rfl⟩,
          List.mem_singleton] at hi
        refine ⟨?_, ?_⟩
        · show (if s.period.inPrime then st.conf.primeSort.set 0 (some j)
            else st.conf.primeSort)[i]? = _
          split
          · exact List.getElem?_set_ne (Ne.symm hi)
          · rfl
        · show (if s.period.inNonPrime then st.conf.nonPrimeSort.set 0 (some j)
            else st.conf.nonPrimeSort)[i]? = _
          split
          · exact List.getElem?_set_ne (Ne.symm hi)
          · rfl
  · exact ⟨congrArg (fun sorts => sorts[i]?) hsame.primeSort,
      congrArg (fun sorts => sorts[i]?) hsame.nonPrimeSort⟩

/-! ## Files -/

/-- After a configuration file the sorts behind the first entry of each array are those of the key
lines it is for, and no line has written behind the arrays, exactly if the keys for prime time and
those for the other time give the same table. -/
theorem sort_keys_iff (text : List Char) {conf : Settings}
    (h : parseConfig (some text) Settings.init = .ok conf) :
    (conf.primeSort.tail.map sortOf = keyTable (keysFor PrimeTime.inPrime (settingLines text)) ∧
      conf.nonPrimeSort.tail.map sortOf
        = keyTable (keysFor PrimeTime.inNonPrime (settingLines text)) ∧
      ∀ before s after st, settingLines text = before ++ s :: after →
        before.foldlM (fun st s => parseSetting st s.name s.value s.valueOn s.period)
          ⟨Settings.init, 1, 1⟩ = .ok st →
        ∀ i ∈ sortWrites st s, i ≤ numSorts) ↔
    keyTable (keysFor PrimeTime.inPrime (settingLines text))
      = keyTable (keysFor PrimeTime.inNonPrime (settingLines text)) := by
  rw [parseConfig_eq, map_ok] at h
  obtain ⟨st, hrun, rfl⟩ := h
  have hkeys := foldlM_parseSetting_keys _ init_keysEntered hrun
  rw [List.nil_append] at hkeys
  rw [hkeys.prime.sorts, hkeys.nonPrime.sorts]
  constructor
  · exact fun hplaced => hplaced.2.1
  · intro hsame
    refine ⟨rfl, hsame, ?_⟩
    intro before s after st' _ hbefore
    exact sortWrites_le (foldlM_parseSetting_keys before init_keysEntered hbefore) s

/-- A file whose keys are for all times. -/
theorem sort_keys_iff_all : ∃ conf,
    parseConfig (some "key: fair_share\nkey: high_priority_first\n".toList) Settings.init
      = .ok conf ∧
    conf.nonPrimeSort.tail.map sortOf = [9, 5, 0, 0, 0, 0, 0, 0, 0, 0, 0] := by
  have hret : (parseConfig (some "key: fair_share\nkey: high_priority_first\n".toList)
      Settings.init).map (fun _ => ()) = .ok () := by decide +kernel
  obtain ⟨conf, hparse, _⟩ := map_ok.mp hret
  have hplaced := (sort_keys_iff _ hparse).mpr (by decide +kernel)
  exact ⟨conf, hparse, hplaced.2.1.trans (by decide +kernel)⟩

/-- A key for prime time and another one for the other time: both arrays get the first. -/
theorem prime_key_in_both : ∃ conf,
    parseConfig (some "key: fair_share prime\nkey: high_priority_first non_prime\n".toList)
      Settings.init = .ok conf ∧
    conf.nonPrimeSort.tail.map sortOf = [9, 0, 0, 0, 0, 0, 0, 0, 0, 0, 0] ∧
    conf.nonPrimeSort.tail.map sortOf ≠ keyTable (keysFor PrimeTime.inNonPrime (settingLines
      "key: fair_share prime\nkey: high_priority_first non_prime\n".toList)) := by
  have hret : (parseConfig (some
      "key: fair_share prime\nkey: high_priority_first non_prime\n".toList) Settings.init).map
        (fun conf => conf.nonPrimeSort.tail.map sortOf)
          = .ok [9, 0, 0, 0, 0, 0, 0, 0, 0, 0, 0] := by decide +kernel
  obtain ⟨conf, hparse, hstored⟩ := map_ok.mp hret
  refine ⟨conf, hparse, hstored, ?_⟩
  rw [hstored]
  decide +kernel

end PlanSched
