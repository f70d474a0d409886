/-
# The holidays of a year

Models what a holidays file lists and compares it with the answers of `is_prime_time`
(`prime.cpp`) over a run of calls: one in `schedinit`, one in every cycle.

Holidays are looked up at most once for each day of the year, and a day that is not later
than one seen before is not looked up at all, whatever its year.  The year of the holidays
has four digits and `tm_year` counts from 1900, so no file is ever out of date.

* `entered`: the numbers of the table, `listed` those that are holidays;
* `primeCalls`: the calls of a run, with every access to the table checked;
* `holidays_kept_iff`: the runs in which every holiday is non-prime and no other day is
  taken for one.
-/
import PlanSched.DedTime
import PlanSched.KeyLines
import PlanSched.PrimeHours

namespace PlanSched

open CheckedRun CText

/-! ## What a file lists -/

/-- The first word of a line that is not skipped. -/
def holidayWord (line : List Char) : Option (List Char) :=
  if skipLine (stripNewline line) then none
  else (strtok isBlank (stripNewline line)).map Prod.fst

/-- The words that start the other lines of the file. -/
def holidayKeywords : List String :=
  ["HOLIDAYFILE_VERSION1", "YEAR", "saturday", "sunday", "weekday"]

/-- Four digits: the line gives the times of a year. -/
def isYearWord (word : List Char) : Bool := word.length = 4 && word.all Char.isDigit

/-- The word that `parse_holidays` reads as the number of a holiday. -/
def numberWord (line : List Char) : Option (List Char) :=
  (holidayWord line).filter (fun word => !holidayKeywords.contains (String.ofList word))

/-- The number of a word. -/
def holidayNumber (word : List Char) : ℤ := toInt (strtol word).1

/-- The days in the table. -/
def entered (text : List Char) : List ℤ :=
  ((fgetsLines text []).filterMap numberWord).map holidayNumber

/-- The days the file gives as holidays: the lines of years are not among them. -/
def listed (text : List Char) : List ℤ :=
  (((fgetsLines text []).filterMap numberWord).filter (fun word => !isYearWord word)).map
    holidayNumber

/-! ## The table -/

/-- The table of a day holds no holidays. -/
theorem setDay_holidays (tables : Tables) (day : Day) (table : DayTable) :
    (tables.setDay day table).holidays = tables.holidays := by
  cases day <;> rfl

/-- Loading a day does not touch the holidays. -/
theorem loadDay_holidays (tables : Tables) (day : Day) (rest : List Char) :
    (loadDay tables day rest).holidays = tables.holidays :=
  loadDay_keeps Tables.holidays setDay_holidays tables day rest

/-- A line without a number leaves the table as it is. -/
theorem parseHolidayLine_other (st : Tables × ℕ) {line : List Char}
    (h : numberWord line = none) :
    ∃ tables, parseHolidayLine st line = .ok (tables, st.2) ∧
      tables.holidays = st.1.holidays := by
  unfold parseHolidayLine
  simp only
  by_cases hskip : skipLine (stripNewline line) = true
  · rw [if_pos hskip]
    exact ⟨st.1, rfl, rfl⟩
  rw [if_neg hskip]
  cases htok : strtok isBlank (stripNewline line) with
  | none => exact ⟨st.1, rfl, rfl⟩
  | some found =>
      obtain ⟨name, rest⟩ := found
      have hword : holidayWord line = some name := by
        unfold holidayWord
        rw [if_neg hskip, htok]
        rfl
      have hkey : String.ofList name ∈ holidayKeywords := by
        rw [numberWord, hword] at h
        simpa using h
      -- a number of four digits loads a day first
      generalize htables : (if name.length = 4 ∧ name.all Char.isDigit then
        loadDay st.1 .weekday rest else st.1) = tables
      have hkept : tables.holidays = st.1.holidays := by
        rw [← htables]
        exact loadDay_if_keeps Tables.holidays setDay_holidays ..
      simp only [holidayKeywords, List.mem_cons, List.not_mem_nil, or_false] at hkey
      simp only [htables]
      rw [← hkept]
      rcases hkey with hkey | hkey | hkey | hkey | hkey
      · simp only [hkey]
        exact ⟨tables, rfl, rfl⟩
      · simp only [hkey]
        split
        · exact ⟨tables, rfl, rfl⟩
        · split
          · exact ⟨_, rfl, rfl⟩
          · exact ⟨tables, rfl, rfl⟩
      · simp only [hkey]
        exact ⟨_, rfl, loadDay_holidays ..⟩
      · simp only [hkey]
        exact ⟨_, rfl, loadDay_holidays ..⟩
      · simp only [hkey]
        exact ⟨_, rfl, loadDay_holidays ..⟩

/-- Any other line enters its number, if there is room. -/
theorem parseHolidayLine_number (st : Tables × ℕ) {line word : List Char}
    (h : numberWord line = some word) :
    ∃ tables : Tables, tables.holidays = st.1.holidays ∧
      parseHolidayLine st line =
        if st.2 < st.1.holidays.length then
          .ok ({ tables with
            holidays := st.1.holidays.set st.2 (holidayNumber word) }, st.2 + 1)
        else .error .badIndex := by
  obtain ⟨hword, hkey⟩ := Option.filter_eq_some_iff.mp h
  have hkey : String.ofList word ∉ holidayKeywords := by simpa using hkey
  unfold holidayWord at hword
  split at hword
  · cases hword
  rename_i hskip
  obtain ⟨⟨name, rest⟩, htok, hname⟩ := Option.map_eq_some_iff.mp hword
  change name = word at hname
  subst hname
  unfold parseHolidayLine
  simp only [hskip, htok, Bool.false_eq_true, if_false]
  generalize htables : (if name.length = 4 ∧ name.all Char.isDigit then
    loadDay st.1 .weekday rest else st.1) = tables
  have hkept : tables.holidays = st.1.holidays := by
    rw [← htables]
    exact loadDay_if_keeps Tables.holidays setDay_holidays ..
  refine ⟨tables, hkept, ?_⟩
  simp only [holidayKeywords, List.mem_cons, List.not_mem_nil, or_false, not_or] at hkey
  obtain ⟨h₁, h₂, h₃, h₄, h₅⟩ := hkey
  rw [← hkept]
  split
  · rename_i heq
    exact absurd heq h₁
  · rename_i heq
    exact absurd heq h₂
  · rename_i heq
    exact absurd heq h₃
  · rename_i heq
    exact absurd heq h₄
  · rename_i heq
    exact absurd heq h₅
  · rfl

/-- The table and the count after the numbers `days`. -/
structure DaysEntered (days : List ℤ) (st : Tables × ℕ) : Prop where
  holidays : st.1.holidays = fillTable 50 0 days
  count : st.2 = days.length

/-- A line without a number is no entry. -/
theorem DaysEntered.other {days : List ℤ} {st : Tables × ℕ} (h : DaysEntered days st)
    {line : List Char} (hline : numberWord line = none) :
    ∃ st', parseHolidayLine st line = .ok st' ∧ DaysEntered days st' := by
  obtain ⟨tables, hparse, hkept⟩ := parseHolidayLine_other st hline
  exact ⟨_, hparse, by rw [hkept, h.holidays], h.count⟩

/-- A number is the next entry. -/
theorem DaysEntered.number {days : List ℤ} {st : Tables × ℕ} (h : DaysEntered days st)
    {line word : List Char} (hline : numberWord line = some word) (hroom : days.length < 50) :
    ∃ st', parseHolidayLine st line = .ok st' ∧
      DaysEntered (days ++ [holidayNumber word]) st' := by
  obtain ⟨tables, hkept, hparse⟩ := parseHolidayLine_number st hline
  rw [h.holidays, fillTable_length, h.count, if_pos hroom] at hparse
  refine ⟨_, hparse, ?_, ?_⟩
  · exact fillTable_set 0 _ hroom
  · rw [List.length_append, List.length_singleton]

/-- A number that comes when the table is full is written outside it. -/
theorem DaysEntered.full {days : List ℤ} {st : Tables × ℕ} (h : DaysEntered days st)
    {line word : List Char} (hline : numberWord line = some word) (hfull : 50 ≤ days.length) :
    parseHolidayLine st line = .error .badIndex := by
  obtain ⟨tables, hkept, hparse⟩ := parseHolidayLine_number st hline
  rw [h.holidays, fillTable_length, h.count, if_neg (by omega)] at hparse
  exact hparse

/-- The lines of a file enter their numbers one after the other; there is room for 50. -/
theorem DaysEntered.lines (lines : List (List Char)) :
    ∀ {days : List ℤ} {st : Tables × ℕ}, DaysEntered days st →
      ((days ++ (lines.filterMap numberWord).map holidayNumber).length ≤ 50 →
        ∃ st', lines.foldlM parseHolidayLine st = .ok st' ∧
          DaysEntered (days ++ (lines.filterMap numberWord).map holidayNumber) st') ∧
      (days.length ≤ 50 → 50 < (days ++ (lines.filterMap numberWord).map holidayNumber).length →
        lines.foldlM parseHolidayLine st = .error .badIndex) := by
  induction lines with
  | nil =>
      intro days st h
      simp only [List.filterMap_nil, List.map_nil, List.append_nil]
      refine ⟨fun _ => ⟨st, rfl, h⟩, ?_⟩
      intro hle hgt
      omega
  | cons line lines ih =>
      intro days st h
      rw [List.foldlM_cons]
      cases hline : numberWord line with
      | none =>
          obtain ⟨st', hparse, h'⟩ := h.other hline
          rw [List.filterMap_cons_none hline, hparse]
          exact ih h'
      | some word =>
          rw [List.filterMap_cons_some hline, List.map_cons]
          -- there is a cell for the number, or the array is full
          by_cases hroom : days.length < 50
          · obtain ⟨st', hparse, h'⟩ := h.number hline hroom
            have hrest := ih h'
            rw [List.append_assoc, List.singleton_append] at hrest
            rw [hparse]
            refine ⟨hrest.1, ?_⟩
            intro _ hgt
            refine hrest.2 ?_ hgt
            rw [List.length_append, List.length_singleton]
            omega
          · refine ⟨?_, ?_⟩
            · intro hle
              simp only [List.length_append, List.length_cons] at hle
              omega
            · intro _ _
              rw [h.full hline (by omega)]
              rfl

/-- A file can be read if it has at most 50 entries; the count is one more. -/
theorem parseHolidays_ok (text : List Char) :
    ((entered text).length ≤ 50 → ∃ tables, parseHolidays (some text) Tables.zero = .ok tables) ∧
    (∀ tables, parseHolidays (some text) Tables.zero = .ok tables →
      (entered text).length ≤ 50 ∧ tables.holidays = fillTable 50 0 (entered text) ∧
      tables.numHolidays = (entered text).length + 1) := by
  have hstart : DaysEntered [] (Tables.zero, 0) := ⟨rfl, rfl⟩
  obtain ⟨hfits, hfull⟩ := DaysEntered.lines (fgetsLines text []) hstart
  rw [List.nil_append] at hfits hfull
  refine ⟨?_, ?_⟩
  · intro hle
    obtain ⟨st', hlines, -⟩ := hfits hle
    unfold parseHolidays
    simp only [hlines]
    exact ⟨_, rfl⟩
  · intro tables hparse
    obtain ⟨⟨tables₁, count⟩, hlines, hparse⟩ := bind_ok.mp hparse
    cases hparse
    have hle : (entered text).length ≤ 50 := by
      by_contra hgt
      have herror := hfull (by simp) (by simpa [entered] using hgt)
      rw [herror] at hlines
      cases hlines
    obtain ⟨st', hlines', hdays⟩ := hfits hle
    rw [hlines] at hlines'
    cases hlines'
    refine ⟨hle, hdays.holidays, ?_⟩
    rw [show count = (entered text).length from hdays.count]

/-! ## The calls -/

/-- The loop of `is_holiday` from the entry `i`, `n` entries before its end. -/
def scanHolidays (holidays : List ℤ) (jdate : ℤ) : ℕ → ℕ → Run Bool
  | _, 0 => .ok false
  | i, n + 1 => do
      let day ← getAt holidays i
      if day = jdate then return true else scanHolidays holidays jdate (i + 1) n

/-- The call takes the day for a holiday. -/
def holidayFound (tables : Tables) (t : LocalTime) (lastDay : ℤ) : Run Bool :=
  if looksUp tables t lastDay then
    scanHolidays tables.holidays (t.yday + 1) 0 tables.numHolidays.toNat
  else .ok false

/-- `is_prime_time` where no access leaves the table of holidays. -/
def isPrimeTimeRun (clock : Clock) (tables : Tables) (currentTime lastDay : ℤ) :
    Run (PrimeTime × ℤ) := do
  if tables.holidayYear ≠ 0 then
    let _ ← holidayFound tables (clock.localtime currentTime) lastDay
  return isPrimeTime clock tables currentTime lastDay

/-- The answers of the calls at these times. -/
def primeCalls (clock : Clock) (tables : Tables) : ℤ → List ℤ → Run (List PrimeTime)
  | _, [] => .ok []
  | lastDay, t :: times => do
      let (period, lastDay) ← isPrimeTimeRun clock tables t lastDay
      let periods ← primeCalls clock tables lastDay times
      return period :: periods

/-- The loop finds the day among the entries, or runs to its end. -/
theorem scanHolidays_eq (holidays : List ℤ) (jdate : ℤ) (n : ℕ) :
    ∀ i, scanHolidays holidays jdate i n =
      if jdate ∈ (holidays.drop i).take n then .ok true
      else if i + n ≤ holidays.length ∨ n = 0 then .ok false
      else .error .badIndex := by
  induction n with
  | zero =>
      intro i
      simp [scanHolidays]
  | succ n ih =>
      intro i
      unfold scanHolidays
      by_cases hi : i < holidays.length
      · have hget : getAt holidays i = .ok holidays[i] := getAt_ok.mpr (List.getElem?_eq_getElem hi)
        rw [hget, List.drop_eq_getElem_cons hi, List.take_succ_cons]
        by_cases hday : holidays[i] = jdate
        · simp [bind, Except.bind, pure, Except.pure, hday]
        · have hne : jdate ≠ holidays[i] := fun h => hday h.symm
          have hbound : (i + 1 + n ≤ holidays.length ∨ n = 0) ↔
              (i + (n + 1) ≤ holidays.length ∨ n + 1 = 0) := by omega
          simp only [bind, Except.bind, hday, if_false, List.mem_cons, hne, false_or]
          rw [ih, if_congr hbound rfl rfl]
      · have hget : getAt holidays i = .error .badIndex := by
          unfold getAt
          rw [List.getElem?_eq_none (by omega)]
        rw [hget, List.drop_eq_nil_of_le (by omega), if_neg (by simp), if_neg (by omega)]
        rfl

/-- The table of a file with a day of the year: the entry that is never filled is no day,
and a full table is read past its end. -/
theorem scanHolidays_entered {days : List ℤ} (hlen : days.length ≤ 50) {jdate : ℤ}
    (hday : jdate ≠ 0) :
    scanHolidays (fillTable 50 0 days) jdate 0 (days.length + 1) =
      if jdate ∈ days then .ok true
      else if days.length = 50 then .error .badIndex else .ok false := by
  rw [scanHolidays_eq, List.drop_zero, fillTable_length]
  have hmem : jdate ∈ (fillTable 50 0 days).take (days.length + 1) ↔ jdate ∈ days := by
    unfold fillTable
    rw [List.take_of_length_le hlen, List.take_append, List.take_of_length_le (by omega),
      List.take_replicate, List.mem_append, List.mem_replicate]
    tauto
  rw [if_congr hmem rfl rfl]
  by_cases hin : jdate ∈ days
  · rw [if_pos hin, if_pos hin]
  · rw [if_neg hin, if_neg hin]
    by_cases hfull : days.length = 50
    · rw [if_pos hfull, if_neg (by omega)]
    · rw [if_neg hfull, if_pos (by omega)]

/-- The checked call answers as `is_prime_time` does. -/
theorem isPrimeTimeRun_eq {clock : Clock} {tables : Tables} {currentTime lastDay : ℤ}
    {r : PrimeTime × ℤ} (h : isPrimeTimeRun clock tables currentTime lastDay = .ok r) :
    isPrimeTime clock tables currentTime lastDay = r := by
  unfold isPrimeTimeRun at h
  split at h
  · obtain ⟨_, -, h⟩ := bind_ok.mp h
    exact pure_ok.mp h
  · exact pure_ok.mp h

/-- A scan that ends has looked for the day in all the numbers, and decides the answer. -/
theorem isPrimeTime_of_found {clock : Clock} {tables : Tables} {currentTime lastDay : ℤ}
    {holiday : Bool} (hyear : tables.holidayYear ≠ 0)
    (h : holidayFound tables (clock.localtime currentTime) lastDay = .ok holiday) :
    isPrimeTime clock tables currentTime lastDay =
      (if holiday then .nonPrime
        else checkPrime (tables.day (clock.localtime currentTime).day)
          (clock.localtime currentTime),
        if looksUp tables (clock.localtime currentTime) lastDay
        then (clock.localtime currentTime).yday else lastDay) := by
  have hholiday : (looksUp tables (clock.localtime currentTime) lastDay &&
      isHoliday tables ((clock.localtime currentTime).yday + 1)) = holiday := by
    unfold holidayFound at h
    by_cases hlook : looksUp tables (clock.localtime currentTime) lastDay = true
    · rw [if_pos hlook, scanHolidays_eq, List.drop_zero] at h
      rw [hlook, Bool.true_and, isHoliday]
      split at h
      · rename_i hmem
        cases h
        simpa using hmem
      · rename_i hmem
        split at h
        · cases h
          simpa using hmem
        · cases h
    · rw [if_neg hlook] at h
      cases h
      simp [hlook]
  unfold isPrimeTime
  simp only [if_pos hyear, hholiday]

/-- With a year the look-up decides the answer. -/
theorem isPrimeTimeRun_year {clock : Clock} {tables : Tables} (hyear : tables.holidayYear ≠ 0)
    (currentTime lastDay : ℤ) :
    isPrimeTimeRun clock tables currentTime lastDay =
      (holidayFound tables (clock.localtime currentTime) lastDay >>= fun holiday =>
        .ok (if holiday then .nonPrime
          else checkPrime (tables.day (clock.localtime currentTime).day)
            (clock.localtime currentTime),
          if looksUp tables (clock.localtime currentTime) lastDay
          then (clock.localtime currentTime).yday else lastDay)) := by
  unfold isPrimeTimeRun
  rw [if_pos hyear]
  cases hfound : holidayFound tables (clock.localtime currentTime) lastDay with
  | error fault => rfl
  | ok holiday => exact congrArg Except.ok (isPrimeTime_of_found hyear hfound)

/-- Without a year nothing is looked up. -/
theorem isPrimeTimeRun_noYear {clock : Clock} {tables : Tables} (hyear : tables.holidayYear = 0)
    (currentTime lastDay : ℤ) :
    isPrimeTimeRun clock tables currentTime lastDay = .ok (.prime, lastDay) := by
  unfold isPrimeTimeRun
  rw [if_neg (not_not.mpr hyear), isPrimeTime_of_noYear hyear]
  rfl

/-! ## Holidays all day long -/

/-- The day is a holiday of the file's year. -/
def IsListed (text : List Char) (tables : Tables) (t : LocalTime) : Prop :=
  t.year + 1900 = tables.holidayYear ∧ t.yday + 1 ∈ listed text

/-- With a year, a holiday is non-prime and on other days the hours decide. -/
def RightPeriod (text : List Char) (tables : Tables) (t : LocalTime) (period : PrimeTime) : Prop :=
  tables.holidayYear ≠ 0 →
    (IsListed text tables t → period = .nonPrime) ∧
    (¬ IsListed text tables t → period = checkPrime (tables.day t.day) t)

/-- No call before was made on the same or on a later day of a year; calls after the year
of the file do not count. -/
def FirstSight (clock : Clock) (tables : Tables) (earlier : List ℤ) (t : LocalTime) : Prop :=
  t.year ≤ tables.holidayYear ∧ 0 ≤ t.yday ∧ ∀ t' ∈ earlier,
    (clock.localtime t').year ≤ tables.holidayYear → (clock.localtime t').yday < t.yday

/-- The look-up does not leave a full table, and in the hours of prime time it finds the
day exactly if it is a holiday. -/
def CallFits (clock : Clock) (text : List Char) (tables : Tables) (earlier : List ℤ)
    (t : LocalTime) : Prop :=
  (FirstSight clock tables earlier t → (entered text).length = 50 →
    t.yday + 1 ∈ entered text) ∧
  (checkPrime (tables.day t.day) t = .prime →
    (IsListed text tables t ↔ FirstSight clock tables earlier t ∧ t.yday + 1 ∈ entered text))

/-- Every call of the run gives the right answer, and none leaves the table. -/
def HolidaysKept (clock : Clock) (text : List Char) (times : List ℤ) : Prop :=
  ∃ tables periods, parseHolidays (some text) Tables.zero = .ok tables ∧
    primeCalls clock tables (-1) times = .ok periods ∧
    List.Forall₂ (fun t period => RightPeriod text tables (clock.localtime t) period)
      times periods

/-- The day remembered after a call. -/
def dayAfter (clock : Clock) (tables : Tables) (lastDay t : ℤ) : ℤ :=
  if looksUp tables (clock.localtime t) lastDay then (clock.localtime t).yday else lastDay

section Calls

variable {clock : Clock} {text : List Char} {tables : Tables} {earlier : List ℤ} {lastDay : ℤ}

/-- What `last_day` stands for after the calls at the times `earlier`. -/
def Seen (clock : Clock) (tables : Tables) (earlier : List ℤ) (lastDay : ℤ) : Prop :=
  ∀ d, lastDay < d ↔ 0 ≤ d ∧ ∀ t' ∈ earlier,
    (clock.localtime t').year ≤ tables.holidayYear → (clock.localtime t').yday < d

/-- A look-up happens on first sight only. -/
theorem Seen.looksUp (h : Seen clock tables earlier lastDay) (t : LocalTime) :
    looksUp tables t lastDay = true ↔ FirstSight clock tables earlier t := by
  unfold PlanSched.looksUp FirstSight
  rw [← h t.yday]
  simp

/-- The call remembers the day. -/
theorem Seen.snoc (h : Seen clock tables earlier lastDay) (t : ℤ) :
    Seen clock tables (earlier ++ [t])
      (dayAfter clock tables lastDay t) := by
  intro d
  have hold := h d
  simp only [List.mem_append, List.mem_singleton, or_imp, forall_and, forall_eq]
  unfold dayAfter PlanSched.looksUp
  by_cases hyear : (clock.localtime t).year ≤ tables.holidayYear
  · by_cases hday : lastDay < (clock.localtime t).yday
    · rw [if_pos (by simp [hyear, hday])]
      constructor
      · intro hd
        obtain ⟨hzero, hbefore⟩ := hold.mp (by omega)
        exact ⟨hzero, hbefore, fun _ => hd⟩
      · intro hd
        exact hd.2.2 hyear
    · rw [if_neg (by simp [hday])]
      rw [hold]
      constructor
      · intro hd
        have hlt := hold.mpr hd
        exact ⟨hd.1, hd.2, fun _ => by omega⟩
      · intro hd
        exact ⟨hd.1, hd.2.1⟩
  · rw [if_neg (by simp [hyear]), hold]
    constructor
    · intro hd
      exact ⟨hd.1, hd.2, fun h => absurd h hyear⟩
    · intro hd
      exact ⟨hd.1, hd.2.1⟩

/-- An answer is right if a day of prime time is taken for a holiday when it is one. -/
theorem rightPeriod_iff (hyear : tables.holidayYear ≠ 0) (t : LocalTime) (holiday : Bool) :
    RightPeriod text tables t (if holiday then .nonPrime else checkPrime (tables.day t.day) t) ↔
      (checkPrime (tables.day t.day) t = .prime → (IsListed text tables t ↔ holiday = true)) := by
  unfold RightPeriod
  by_cases hlisted : IsListed text tables t
  · rcases checkPrime_cases (tables.day t.day) t with hcheck | hcheck
    · cases holiday <;> simp [hyear, hlisted, hcheck]
    · cases holiday <;> simp [hlisted, hcheck]
  · rcases checkPrime_cases (tables.day t.day) t with hcheck | hcheck
    · cases holiday <;> simp [hyear, hlisted, hcheck]
    · cases holiday <;> simp [hlisted, hcheck]

/-- What a call finds in the table of a file. -/
theorem holidayFound_cases (hparse : parseHolidays (some text) Tables.zero = .ok tables)
    (hseen : Seen clock tables earlier lastDay) (t : LocalTime) :
    (FirstSight clock tables earlier t ∧ t.yday + 1 ∈ entered text ∧
      holidayFound tables t lastDay = .ok true) ∨
    (FirstSight clock tables earlier t ∧ t.yday + 1 ∉ entered text ∧
      (entered text).length = 50 ∧ holidayFound tables t lastDay = .error .badIndex) ∨
    (¬ (FirstSight clock tables earlier t ∧ t.yday + 1 ∈ entered text) ∧
      ¬ (FirstSight clock tables earlier t ∧ (entered text).length = 50) ∧
      holidayFound tables t lastDay = .ok false) := by
  obtain ⟨hlen, hholidays, hnum⟩ := (parseHolidays_ok text).2 tables hparse
  unfold holidayFound
  by_cases hsight : FirstSight clock tables earlier t
  · have hday : t.yday + 1 ≠ 0 := by
      have hpos := hsight.2.1
      omega
    have hscan := scanHolidays_entered hlen hday
    rw [if_pos ((hseen.looksUp t).mpr hsight), hholidays, hnum,
      show ((entered text).length + 1 : ℤ).toNat = (entered text).length + 1 by omega, hscan]
    by_cases hin : t.yday + 1 ∈ entered text
    · rw [if_pos hin]
      exact Or.inl ⟨hsight, hin, rfl⟩
    · rw [if_neg hin]
      by_cases hfull : (entered text).length = 50
      · rw [if_pos hfull]
        exact Or.inr (Or.inl ⟨hsight, hin, hfull, rfl⟩)
      · rw [if_neg hfull]
        exact Or.inr (Or.inr ⟨fun h => hin h.2, fun h => hfull h.2, rfl⟩)
  · rw [if_neg (fun hlook => hsight ((hseen.looksUp t).mp hlook))]
    exact Or.inr (Or.inr ⟨fun h => hsight h.1, fun h => hsight h.1, rfl⟩)

/-- One call is right exactly if it fits. -/
theorem call_right_iff (hparse : parseHolidays (some text) Tables.zero = .ok tables)
    (hyear : tables.holidayYear ≠ 0) (hseen : Seen clock tables earlier lastDay) (t : ℤ) :
    (∃ period, isPrimeTimeRun clock tables t lastDay =
        .ok (period, dayAfter clock tables lastDay t) ∧
      RightPeriod text tables (clock.localtime t) period) ↔
      CallFits clock text tables earlier (clock.localtime t) := by
  have hrun : isPrimeTimeRun clock tables t lastDay =
      (holidayFound tables (clock.localtime t) lastDay >>= fun holiday =>
        .ok (if holiday then .nonPrime
          else checkPrime (tables.day (clock.localtime t).day) (clock.localtime t),
        dayAfter clock tables lastDay t)) := isPrimeTimeRun_year hyear t lastDay
  have hanswer : ∀ holiday, holidayFound tables (clock.localtime t) lastDay = .ok holiday →
      ((∃ period, isPrimeTimeRun clock tables t lastDay =
          .ok (period, dayAfter clock tables lastDay t) ∧
        RightPeriod text tables (clock.localtime t) period) ↔
      (checkPrime (tables.day (clock.localtime t).day) (clock.localtime t) = .prime →
        (IsListed text tables (clock.localtime t) ↔ holiday = true))) := by
    intro holiday hfound
    rw [hrun, hfound, ← rightPeriod_iff hyear]
    constructor
    · rintro ⟨period, hperiod, hright⟩
      cases hperiod
      exact hright
    · intro hright
      exact ⟨_, rfl, hright⟩
  unfold CallFits
  -- found at the cursor, read outside the full table, or not found
  rcases holidayFound_cases hparse hseen (clock.localtime t) with
    ⟨hsight, hin, hfound⟩ | ⟨hsight, hin, hfull, hfound⟩ | ⟨hnot, hroom, hfound⟩
  · rw [hanswer true hfound]
    simp only [hsight, hin, and_self, implies_true, true_and]
  · rw [hrun, hfound]
    constructor
    · rintro ⟨period, hcontra, -⟩
      cases hcontra
    · intro hfits
      exact absurd (hfits.1 hsight hfull) hin
  · rw [hanswer false hfound]
    simp only [hnot, Bool.false_eq_true]
    constructor
    · intro h
      exact ⟨fun hsight hfull => absurd ⟨hsight, hfull⟩ hroom, h⟩
    · intro h
      exact h.2

/-- A property of every element and of those before it, for the first one and for the rest. -/
theorem forall_splits_cons {α : Type} {a : α} {xs : List α} {P : List α → α → Prop} :
    (∀ done b rest, a :: xs = done ++ b :: rest → P done b) ↔
      P [] a ∧ ∀ done b rest, xs = done ++ b :: rest → P (a :: done) b := by
  constructor
  · intro h
    refine ⟨h [] a xs rfl, ?_⟩
    intro done b rest hsplit
    exact h (a :: done) b rest (by rw [hsplit, List.cons_append])
  · rintro ⟨hfirst, hrest⟩ done b rest hsplit
    cases done with
    | nil =>
        cases hsplit
        exact hfirst
    | cons c done =>
        rw [List.cons_append, List.cons.injEq] at hsplit
        obtain ⟨rfl, hsplit⟩ := hsplit
        exact hrest done b rest hsplit

/-- All the calls are right exactly if each of them fits. -/
theorem calls_right_iff (hparse : parseHolidays (some text) Tables.zero = .ok tables)
    (hyear : tables.holidayYear ≠ 0) (times : List ℤ) :
    ∀ {earlier : List ℤ} {lastDay : ℤ}, Seen clock tables earlier lastDay →
      ((∃ periods, primeCalls clock tables lastDay times = .ok periods ∧
        List.Forall₂ (fun t period => RightPeriod text tables (clock.localtime t) period)
          times periods) ↔
      ∀ done t rest, times = done ++ t :: rest →
        CallFits clock text tables (earlier ++ done) (clock.localtime t)) := by
  induction times with
  | nil =>
      intro earlier lastDay _
      simp [primeCalls]
  | cons t times ih =>
      intro earlier lastDay hseen
      have hnext := ih (hseen.snoc t)
      rw [forall_splits_cons, List.append_nil, ← call_right_iff hparse hyear hseen]
      have hrest : (∀ done b rest, times = done ++ b :: rest →
          CallFits clock text tables (earlier ++ t :: done) (clock.localtime b)) ↔
          ∀ done b rest, times = done ++ b :: rest →
            CallFits clock text tables (earlier ++ [t] ++ done) (clock.localtime b) := by
        simp only [List.append_assoc, List.singleton_append]
      rw [hrest, ← hnext]
      constructor
      · rintro ⟨periods, hcalls, hright⟩
        unfold primeCalls at hcalls
        obtain ⟨⟨period, day⟩, hrun, hcalls⟩ := bind_ok.mp hcalls
        obtain ⟨others, hothers, hcalls⟩ := bind_ok.mp hcalls
        have hlist := pure_ok.mp hcalls
        subst hlist
        obtain ⟨hfirst, hright⟩ := List.forall₂_cons.mp hright
        -- the second part of the result does not depend on what is found
        have hday : day = dayAfter clock tables lastDay t := by
          rw [isPrimeTimeRun_year hyear] at hrun
          obtain ⟨_, -, hrun⟩ := bind_ok.mp hrun
          exact (congrArg Prod.snd (pure_ok.mp hrun)).symm
        subst hday
        exact ⟨⟨period, hrun, hfirst⟩, others, hothers, hright⟩
      · rintro ⟨⟨period, hrun, hfirst⟩, periods, hcalls, hright⟩
        refine ⟨period :: periods, ?_, List.Forall₂.cons hfirst hright⟩
        unfold primeCalls
        rw [hrun]
        simp only [bind, Except.bind]
        rw [hcalls]
        rfl

/-- Without a year every call is right. -/
theorem primeCalls_noYear (hyear : tables.holidayYear = 0) (times : List ℤ) :
    ∃ periods, primeCalls clock tables lastDay times = .ok periods ∧
      List.Forall₂ (fun t period => RightPeriod text tables (clock.localtime t) period)
        times periods := by
  induction times with
  | nil => exact ⟨[], rfl, List.Forall₂.nil⟩
  | cons t times ih =>
      obtain ⟨periods, hcalls, hright⟩ := ih
      refine ⟨.prime :: periods, ?_, List.Forall₂.cons (fun h => absurd hyear h) hright⟩
      unfold primeCalls
      rw [isPrimeTimeRun_noYear hyear]
      simp only [bind, Except.bind, hcalls]
      rfl

end Calls

/-- Before the first call every day is a later one. -/
theorem seen_start (clock : Clock) (tables : Tables) : Seen clock tables [] (-1) := by
  intro d
  simp only [List.not_mem_nil, false_imp_iff, implies_true, and_true]
  omega

/-- Holidays are non-prime all day long, and only they are, exactly if the entries have
room and every call of the run fits: a holiday is looked up at its first sight only, and a
day that is not one is not found then. -/
theorem holidays_kept_iff (clock : Clock) (text : List Char) (times : List ℤ) :
    HolidaysKept clock text times ↔
      (entered text).length ≤ 50 ∧
      ∀ tables, parseHolidays (some text) Tables.zero = .ok tables → tables.holidayYear ≠ 0 →
        ∀ done t rest, times = done ++ t :: rest →
          CallFits clock text tables done (clock.localtime t) := by
  obtain ⟨hroom, htables⟩ := parseHolidays_ok text
  unfold HolidaysKept
  constructor
  · rintro ⟨tables, periods, hparse, hcalls, hright⟩
    refine ⟨(htables tables hparse).1, ?_⟩
    intro tables' hparse' hyear
    rw [hparse] at hparse'
    cases hparse'
    have hfits := (calls_right_iff hparse hyear times (seen_start clock tables)).mp
      ⟨periods, hcalls, hright⟩
    simpa only [List.nil_append] using hfits
  · rintro ⟨hlen, hfits⟩
    obtain ⟨tables, hparse⟩ := hroom hlen
    refine ⟨tables, ?_⟩
    by_cases hyear : tables.holidayYear = 0
    · obtain ⟨periods, hcalls, hright⟩ := primeCalls_noYear hyear times
      exact ⟨periods, hparse, hcalls, hright⟩
    · obtain ⟨periods, hcalls, hright⟩ :=
        (calls_right_iff hparse hyear times (seen_start clock tables)).mpr
          (by simpa only [List.nil_append] using hfits tables hparse hyear)
      exact ⟨periods, hparse, hcalls, hright⟩

/-- A file with one holiday. -/
def christmas : List Char :=
  "YEAR 2012\nweekday 0400 1600\n360 Dec 25 Christmas Day\n".toList

/-- The second call on Christmas Day says prime time. -/
theorem christmas_lost : (listed christmas).length ≤ 49 ∧
    ([1356422400, 1356426000] : List ℤ).Pairwise (· ≤ ·) ∧
    ¬ HolidaysKept utcClock christmas [1356422400, 1356426000] := by
  have heval : (do
      let tables ← parseHolidays (some christmas) Tables.zero
      let periods ← primeCalls utcClock tables (-1) [1356422400, 1356426000]
      return (tables.holidayYear, periods) : Run _) = .ok (2012, [.nonPrime, .prime]) := by
    decide +kernel
  have hlisted : listed christmas = [360] := by decide +kernel
  have htime : (utcClock.localtime 1356426000).year = 112 ∧
      (utcClock.localtime 1356426000).yday = 359 := by decide +kernel
  refine ⟨by rw [hlisted]; decide, by decide, ?_⟩
  rintro ⟨tables, periods, hparse, hcalls, hright⟩
  rw [hparse] at heval
  simp only [bind, Except.bind, hcalls] at heval
  have hfields := pure_ok.mp heval
  simp only [Prod.mk.injEq] at hfields
  obtain ⟨hyear, rfl⟩ := hfields
  obtain ⟨-, hright⟩ := List.forall₂_cons.mp hright
  obtain ⟨hsecond, -⟩ := List.forall₂_cons.mp hright
  have hcontra := (hsecond (by rw [hyear]; decide)).1 (by
    unfold IsListed
    rw [hyear, hlisted, htime.1, htime.2]
    decide)
  cases hcontra

/-! ## The calls of the scheduler -/

/-- What `is_prime_time` says in the cycles at these times. -/
def cyclePeriods (clock : Clock) : Globals → List ℤ → List PrimeTime
  | _, [] => []
  | st, t :: times =>
      (isPrimeTime clock st.conf.tables t st.lastDay).1 ::
        cyclePeriods clock (updateCycleStatus clock t st) times

/-- The table of dedicated times plays no part in `is_prime_time`. -/
theorem isPrimeTime_dedTime (clock : Clock) (tables : Tables) (dedTime : List Timegap)
    (t lastDay : ℤ) :
    isPrimeTime clock { tables with dedTime := dedTime } t lastDay =
      isPrimeTime clock tables t lastDay := by
  unfold isPrimeTime isHoliday looksUp
  have hday : ∀ day, Tables.day { tables with dedTime := dedTime } day = tables.day day := by
    intro day
    cases day <;> rfl
  simp only [hday]

/-- The cycles make the calls of a run, with the same tables and the day remembered. -/
theorem primeCalls_cyclePeriods {clock : Clock} {tables : Tables} (times : List ℤ) :
    ∀ {st : Globals} {periods : List PrimeTime},
      (∃ dedTime, st.conf.tables = { tables with dedTime := dedTime }) →
      primeCalls clock tables st.lastDay times = .ok periods →
      cyclePeriods clock st times = periods := by
  induction times with
  | nil =>
      intro st periods _ hcalls
      cases hcalls
      rfl
  | cons t times ih =>
      rintro st periods ⟨dedTime, htables⟩ hcalls
      unfold primeCalls at hcalls
      obtain ⟨⟨period, day⟩, hrun, hcalls⟩ := bind_ok.mp hcalls
      obtain ⟨others, hothers, hcalls⟩ := bind_ok.mp hcalls
      have hlist := pure_ok.mp hcalls
      subst hlist
      have hcall : ∀ dedTime, isPrimeTime clock { tables with dedTime := dedTime } t st.lastDay =
          (period, day) := by
        intro dedTime
        rw [isPrimeTime_dedTime]
        exact isPrimeTimeRun_eq hrun
      unfold cyclePeriods
      rw [htables, hcall]
      congr 1
      have hday : (updateCycleStatus clock t st).lastDay = day := by
        unfold updateCycleStatus
        simp only [htables, hcall]
      rw [← hday] at hothers
      refine ih ?_ hothers
      unfold updateCycleStatus
      simp only [htables]
      exact ⟨_, rfl⟩

/-- `schedinit` makes the first call of the run and the cycles make the others. -/
theorem scheduler_calls {clock : Clock} {files : Files} {now : ℤ} {st : Globals}
    {text : List Char} {tables : Tables} {times : List ℤ} {periods : List PrimeTime}
    (hfile : files.holidays = some text) (hinit : schedinit clock files now = .ok st)
    (hparse : parseHolidays (some text) Tables.zero = .ok tables)
    (hcalls : primeCalls clock tables (-1) (now :: times) = .ok periods) :
    periods = (isPrimeTime clock tables now (-1)).1 :: cyclePeriods clock st times := by
  unfold schedinit loadConfig at hinit
  simp only [initConfig_eq, bind_assoc, pure_bind] at hinit
  obtain ⟨settings, -, hinit⟩ := bind_ok.mp hinit
  obtain ⟨tables', htables, hinit⟩ := bind_ok.mp hinit
  obtain ⟨dedTime, -, hinit⟩ := bind_ok.mp hinit
  have hst := pure_ok.mp hinit
  rw [hfile, hparse] at htables
  cases htables
  unfold primeCalls at hcalls
  obtain ⟨⟨period, day⟩, hrun, hcalls⟩ := bind_ok.mp hcalls
  obtain ⟨others, hothers, hcalls⟩ := bind_ok.mp hcalls
  have hlist := pure_ok.mp hcalls
  subst hlist
  have hfirst := isPrimeTimeRun_eq hrun
  rw [hfirst]
  congr 1
  have hsame : ∃ dedTime, st.conf.tables = { tables with dedTime := dedTime } :=
    ⟨dedTime, by rw [← hst]⟩
  have hrest : primeCalls clock tables st.lastDay times = .ok others := by
    rw [← hst]
    show primeCalls clock tables (isPrimeTime clock tables now (-1)).2 times = _
    rw [hfirst]
    exact hothers
  exact (primeCalls_cyclePeriods times hsame hrest).symm

end PlanSched
