/-
# Reloading the configuration

Models what the scheduler runs with: `struct config` with the tables of prime time,
holidays and dedicated times (`prime.cpp`, `dedtime.cpp`), `struct status` with the policy
in force, `schedinit` and `update_cycle_status` (`fifo.cpp`), and the start of each cycle
of `World::plan_run` (`SchedulerRealm.cpp`), where `reinit_config` zeroes both structures
and `parse_config` reads the configuration file again when it is newer.

The files of holidays and dedicated times are read by `schedinit` only.

* `Reached`: the states after `schedinit` and any number of cycles and reloads;
* `reload_same_iff`: reloading an unchanged file changes nothing exactly if there is no
  table to be lost and no policy in force.
-/
import PlanSched.Configuration

namespace PlanSched

open CheckedRun CText

/-! ## The tables -/

/-- `struct t`: bit fields for a time of day. -/
structure DayTime where
  hour : ℤ
  min : ℤ
  none : Bool
  all : Bool
  deriving DecidableEq, Repr

/-- When prime time and the other time begin on a day. -/
structure DayTable where
  prime : DayTime
  nonPrime : DayTime
  deriving DecidableEq, Repr

/-- `enum days`. -/
inductive Day : Type where
  | sunday
  | saturday
  | weekday
  deriving DecidableEq, Repr

/-- `struct timegap`. -/
structure Timegap where
  start : ℤ
  stop : ℤ
  deriving DecidableEq, Repr

/-- The fields of `struct config` that come from the other files. -/
structure Tables where
  sunday : DayTable
  saturday : DayTable
  weekday : DayTable
  holidays : List ℤ
  numHolidays : ℤ
  holidayYear : ℤ
  dedTime : List Timegap
  deriving DecidableEq, Repr

/-- A day of zeroes. -/
def DayTable.zero : DayTable := ⟨⟨0, 0, false, false⟩, ⟨0, 0, false, false⟩⟩

/-- The tables after `memset`. -/
def Tables.zero : Tables where
  sunday := DayTable.zero
  saturday := DayTable.zero
  weekday := DayTable.zero
  holidays := List.replicate 50 0
  numHolidays := 0
  holidayYear := 0
  dedTime := List.replicate 50 ⟨0, 0⟩

/-- The table of a day. -/
def Tables.day (tables : Tables) : Day → DayTable
  | .sunday => tables.sunday
  | .saturday => tables.saturday
  | .weekday => tables.weekday

/-- The tables with another one for a day. -/
def Tables.setDay (tables : Tables) (day : Day) (table : DayTable) : Tables :=
  match day with
  | .sunday => { tables with sunday := table }
  | .saturday => { tables with saturday := table }
  | .weekday => { tables with weekday := table }

/-- `struct config`. -/
structure Conf where
  settings : Settings
  tables : Tables
  configLoaded : ℤ

/-- Where `cstat.sort_by` points to. -/
inductive SortRef : Type where
  | null
  | primeSort
  | nonPrimeSort
  deriving DecidableEq, Repr

/-- `struct status`. -/
structure Status where
  flags : PolicyFlags
  isPrime : Bool
  isDedTime : Bool
  sortBy : SortRef
  currentTime : ℤ
  deriving DecidableEq, Repr

/-- The status after `memset`. -/
def Status.zero : Status := ⟨PolicyFlags.off, false, false, .null, 0⟩

/-- The two global structures, and the static `last_day` of `is_prime_time`. -/
structure Globals where
  conf : Conf
  cstat : Status
  lastDay : ℤ

/-! ## The clock -/

/-- What `localtime` gives. -/
structure LocalTime where
  year : ℤ
  yday : ℤ
  wday : ℤ
  hour : ℤ
  min : ℤ

/-- A date as `mktime` reads it. -/
structure BrokenDate where
  year : ℤ
  mon : ℤ
  mday : ℤ
  hour : ℤ
  min : ℤ

/-- The conversions of the C library, which depend on the time zone. -/
structure Clock where
  localtime : ℤ → LocalTime
  mktime : BrokenDate → ℤ

/-! ## Prime time -/

/-- `check_prime`; its first four cases are overwritten by what follows them. -/
def checkPrime (table : DayTable) (t : LocalTime) : PrimeTime :=
  if table.nonPrime.hour - table.prime.hour ≥ 0 then
    if t.hour > table.prime.hour ∧ t.hour < table.nonPrime.hour then .prime
    else if t.hour = table.prime.hour then
      if table.prime.hour = table.nonPrime.hour then
        if t.min ≥ table.prime.min ∧ t.min < table.nonPrime.min then .prime else .nonPrime
      else if t.min > table.prime.min then .prime
      else .nonPrime
    else .nonPrime
  else if t.hour > table.prime.hour ∨ t.hour < table.nonPrime.hour then .prime
  else .nonPrime

/-- `is_holiday`. -/
def isHoliday (tables : Tables) (jdate : ℤ) : Bool :=
  (tables.holidays.take tables.numHolidays.toNat).contains jdate

/-- The day of the week, as the tables have it. -/
def LocalTime.day (t : LocalTime) : Day :=
  if t.wday = 0 then .sunday else if t.wday = 6 then .saturday else .weekday

/-- The holidays are looked up: the year is not past and the day is a later one. -/
def looksUp (tables : Tables) (t : LocalTime) (lastDay : ℤ) : Bool :=
  !decide (t.year > tables.holidayYear) && decide (t.yday > lastDay)

/-- `is_prime_time`, with the new `last_day`. -/
def isPrimeTime (clock : Clock) (tables : Tables) (currentTime lastDay : ℤ) : PrimeTime × ℤ :=
  let t := clock.localtime currentTime
  if tables.holidayYear ≠ 0 then
    let holiday := looksUp tables t lastDay && isHoliday tables (t.yday + 1)
    (if holiday then .nonPrime else checkPrime (tables.day t.day) t,
      if looksUp tables t lastDay then t.yday else lastDay)
  else (.prime, lastDay)

/-- `init_prime_time`. -/
def initPrimeTime (conf : Conf) (cstat : Status) : Status :=
  { cstat with isPrime := true, flags := conf.settings.prime, sortBy := .primeSort }

/-- `init_non_prime_time`. -/
def initNonPrimeTime (conf : Conf) (cstat : Status) : Status :=
  { cstat with isPrime := false, flags := conf.settings.nonPrime, sortBy := .nonPrimeSort }

/-- `load_day` on one time of a day; `none` for an error. -/
def loadDayTime (time : DayTime) (tok : Option (List Char)) : Option DayTime :=
  match tok with
  | none => none
  | some tok =>
      let word := String.ofList tok
      if word = "all" ∨ word = "ALL" then some { time with all := true, hour := 0, min := 0 }
      else if word = "none" ∨ word = "NONE" then
        some { time with none := true, hour := 0, min := 0 }
      else
        let (num, rest) := strtol tok
        if rest = [] then
          some { time with
            min := (toInt num).tmod 100 % 64
            hour := (toInt num).tdiv 100 % 32 }
        else none

/-- The two calls of `load_day` for a day, on the rest of the line. -/
def loadDay (tables : Tables) (day : Day) (rest : List Char) : Tables :=
  let first := strtok isBlank rest
  match loadDayTime (tables.day day).prime (first.map Prod.fst) with
  | none => tables
  | some prime =>
      let tables := tables.setDay day { tables.day day with prime := prime }
      let second := strtok isBlank ((first.map Prod.snd).getD [])
      match loadDayTime (tables.day day).nonPrime (second.map Prod.fst) with
      | none => tables
      | some nonPrime => tables.setDay day { tables.day day with nonPrime := nonPrime }

/-- One line of the holidays file, with the number of holidays so far. -/
def parseHolidayLine (st : Tables × ℕ) (line : List Char) : Run (Tables × ℕ) :=
  let text := stripNewline line
  if skipLine text then .ok st
  else
    match strtok isBlank text with
    | none => .ok st
    | some (name, rest) =>
        let tables :=
          if name.length = 4 ∧ name.all Char.isDigit then loadDay st.1 .weekday rest else st.1
        match String.ofList name with
        | "HOLIDAYFILE_VERSION1" => .ok (tables, st.2)
        | "YEAR" =>
            match strtok isBlank rest with
            | none => .ok (tables, st.2)
            | some (tok, _) =>
                if (strtol tok).2 = [] then
                  .ok ({ tables with holidayYear := toInt (strtol tok).1 }, st.2)
                else .ok (tables, st.2)
        | "saturday" => .ok (loadDay tables .saturday rest, st.2)
        | "sunday" => .ok (loadDay tables .sunday rest, st.2)
        | "weekday" => .ok (loadDay tables .weekday rest, st.2)
        | _ =>
            if st.2 < tables.holidays.length then
              .ok ({ tables with holidays := tables.holidays.set st.2 (toInt (strtol name).1) },
                st.2 + 1)
            else .error .badIndex

/-- `parse_holidays`; `none` when the file cannot be opened. -/
def parseHolidays (file : Option (List Char)) (tables : Tables) : Run Tables :=
  match file with
  | none => .ok tables
  | some text => do
      let (tables, holIndex) ← (fgetsLines text []).foldlM parseHolidayLine (tables, 0)
      return { tables with numHolidays := holIndex + 1 }

/-! ## Dedicated time -/

/-- `%d` of `sscanf`. -/
def scanInt (s : List Char) : Option (ℤ × List Char) :=
  if (strtol s).2 = s then none else some (toInt (strtol s).1, (strtol s).2)

/-- A character of the format of `sscanf`. -/
def scanChar (c : Char) : List Char → Option (List Char)
  | [] => none
  | c' :: s => if c' = c then some s else none

/-- `%d/%d/%d %d:%d` of `sscanf`. -/
def scanDate (s : List Char) : Option (BrokenDate × List Char) := do
  let (mon, s) ← scanInt s
  let s ← scanChar '/' s
  let (mday, s) ← scanInt s
  let s ← scanChar '/' s
  let (year, s) ← scanInt s
  let (hour, s) ← scanInt (s.dropWhile isspace)
  let s ← scanChar ':' s
  let (min, s) ← scanInt s
  return (⟨year, mon - 1, mday, hour, min⟩, s)

/-- Two digits stand for a year after 2000, four for the year itself. -/
def fullYear (date : BrokenDate) : BrokenDate :=
  let year := if date.year < 90 then date.year + 100 else date.year
  { date with year := if year > 1900 then year - 1900 else year }

/-- The second date of a line is not completed when it has two digits. -/
def fourDigitYear (date : BrokenDate) : BrokenDate :=
  { date with year := if date.year > 1900 then date.year - 1900 else date.year }

/-- One line of the file of dedicated times, with the number of times so far. -/
def parseDedLine (clock : Clock) (currentTime : ℤ) (st : List Timegap × ℕ) (line : List Char) :
    Run (List Timegap × ℕ) :=
  if skipLine line then .ok st
  else
    match (do
        let (first, s) ← scanDate line
        let (second, _) ← scanDate (s.dropWhile isspace)
        return (first, second) : Option (BrokenDate × BrokenDate)) with
    | none => .ok st
    | some (first, second) =>
        let start := clock.mktime (fullYear first)
        let stop := clock.mktime (fourDigitYear second)
        if start < currentTime ∧ stop < currentTime then .ok st
        else if st.2 < st.1.length then .ok (st.1.set st.2 ⟨start, stop⟩, st.2 + 1)
        else .error .badIndex

/-- `cmp_ded_time` does not put the second one first. -/
def dedTimeLe (v1 v2 : Timegap) : Bool :=
  if v1.start = 0 ∧ v2.start ≠ 0 then false
  else if v2.start = 0 ∧ v1.start ≠ 0 then true
  else v1.start ≤ v2.start

/-- `parse_ded_file`; `none` when the file cannot be opened. -/
def parseDedFile (clock : Clock) (currentTime : ℤ) (file : Option (List Char))
    (dedTime : List Timegap) : Run (List Timegap) :=
  match file with
  | none => .ok dedTime
  | some text => do
      let (dedTime, _) ← (fgetsLines text []).foldlM (parseDedLine clock currentTime) (dedTime, 0)
      return dedTime.mergeSort dedTimeLe

/-- `is_ded_time`. -/
def isDedTime (dedTime : List Timegap) (currentTime : ℤ) : Bool :=
  match dedTime with
  | [] => false
  | first :: _ => decide (currentTime > first.start) && decide (currentTime < first.stop)

/-! ## The scheduler's life -/

/-- `init_config`: both structures are zeroed, and the policy of the time is taken from
the zeroed settings. -/
def initConfig (clock : Clock) (lastDay : ℤ) : Globals :=
  let conf : Conf := ⟨Settings.init, Tables.zero, 0⟩
  let (period, lastDay) := isPrimeTime clock conf.tables Status.zero.currentTime lastDay
  let cstat := if period = .prime then initPrimeTime conf Status.zero
    else initNonPrimeTime conf Status.zero
  ⟨conf, cstat, lastDay⟩

/-- `parse_config` on the file as it stands, with the time it was changed. -/
def loadConfig (config : Option (List Char)) (mtime : ℤ) (st : Globals) : Run Globals := do
  let settings ← parseConfig config st.conf.settings
  return { st with conf := { st.conf with
    settings := settings
    configLoaded := if config.isSome then mtime else st.conf.configLoaded } }

/-- The files `schedinit` reads; `none` for one that cannot be opened. -/
structure Files where
  config : Option (List Char)
  mtime : ℤ
  holidays : Option (List Char)
  dedTime : Option (List Char)

/-- `schedinit`.  Both values of `is_prime_time` count as true there. -/
def schedinit (clock : Clock) (files : Files) (now : ℤ) : Run Globals := do
  let st ← loadConfig files.config files.mtime (initConfig clock (-1))
  let tables ← parseHolidays files.holidays st.conf.tables
  let conf := { st.conf with tables := tables }
  let cstat := { st.cstat with currentTime := now }
  let (_, lastDay) := isPrimeTime clock conf.tables now st.lastDay
  let cstat := initPrimeTime conf cstat
  let dedTime ← parseDedFile clock now files.dedTime conf.tables.dedTime
  return ⟨{ conf with tables := { conf.tables with dedTime := dedTime } }, cstat, lastDay⟩

/-- `update_cycle_status`. -/
def updateCycleStatus (clock : Clock) (now : ℤ) (st : Globals) : Globals :=
  let dedtime := isDedTime st.conf.tables.dedTime now
  let dedTime :=
    if st.cstat.isDedTime && !dedtime then
      (st.conf.tables.dedTime.set 0 ⟨0, 0⟩).mergeSort dedTimeLe
    else st.conf.tables.dedTime
  let conf := { st.conf with tables := { st.conf.tables with dedTime := dedTime } }
  let cstat := { st.cstat with currentTime := now, isDedTime := dedtime }
  let (period, lastDay) := isPrimeTime clock conf.tables now st.lastDay
  let cstat :=
    if period = .prime ∧ !cstat.isPrime then initPrimeTime conf cstat
    else if period = .nonPrime ∧ cstat.isPrime then initNonPrimeTime conf cstat
    else cstat
  ⟨conf, cstat, lastDay⟩

/-- The configuration file is there and newer than the configuration. -/
def Globals.outdated (st : Globals) (config : Option (List Char)) (mtime : ℤ) : Bool :=
  config.isSome && decide (st.conf.configLoaded < mtime)

/-- The start of a cycle of `plan_run`: `reinit_config` and `parse_config` if the file is
newer, then `update_cycle_status`. -/
def beginCycle (clock : Clock) (config : Option (List Char)) (mtime now : ℤ) (st : Globals) :
    Run Globals :=
  if st.outdated config mtime then do
    let st ← loadConfig config mtime (initConfig clock st.lastDay)
    return updateCycleStatus clock now st
  else return updateCycleStatus clock now st

/-- The states after `schedinit` and any number of cycles, with the configuration file as
it was when it was read last. -/
inductive Reached (clock : Clock) : Option (List Char) → Globals → Prop where
  | start {files : Files} {now : ℤ} {st : Globals} (h : schedinit clock files now = .ok st) :
      Reached clock files.config st
  | cycle {loaded config : Option (List Char)} {mtime now : ℤ} {st st' : Globals}
      (h : Reached clock loaded st) (hrun : beginCycle clock config mtime now st = .ok st') :
      Reached clock (if st.outdated config mtime then config else loaded) st'

/-! ## What a reload leaves -/

/-- The tables of dedicated times say nothing after `memset`. -/
theorem isDedTime_zero (now : ℤ) : isDedTime Tables.zero.dedTime now = false := by
  simp [isDedTime, Tables.zero, List.replicate_succ]
  intro h
  omega

/-- Without a year there are no holidays and it is always prime time. -/
theorem isPrimeTime_of_noYear {clock : Clock} {tables : Tables} (h : tables.holidayYear = 0)
    (now lastDay : ℤ) : isPrimeTime clock tables now lastDay = (.prime, lastDay) := by
  unfold isPrimeTime
  simp [h]

/-- `init_config` takes the policy of prime time from settings that are not read yet. -/
theorem initConfig_eq (clock : Clock) (lastDay : ℤ) :
    initConfig clock lastDay = ⟨⟨Settings.init, Tables.zero, 0⟩,
      ⟨PolicyFlags.off, true, false, .primeSort, 0⟩, lastDay⟩ := by
  have hperiod : isPrimeTime clock Tables.zero 0 lastDay = (.prime, lastDay) :=
    isPrimeTime_of_noYear rfl 0 lastDay
  simp only [initConfig, Status.zero, hperiod]
  rfl

/-- In prime time without a year `update_cycle_status` leaves the policy alone. -/
theorem updateCycleStatus_cstat {clock : Clock} {now : ℤ} {st : Globals}
    (hyear : st.conf.tables.holidayYear = 0) (hprime : st.cstat.isPrime = true) :
    (updateCycleStatus clock now st).cstat =
      { st.cstat with currentTime := now, isDedTime := isDedTime st.conf.tables.dedTime now } := by
  have hperiod : ∀ dedTime, isPrimeTime clock { st.conf.tables with dedTime := dedTime } now
      st.lastDay = (.prime, st.lastDay) := fun _ => isPrimeTime_of_noYear hyear now st.lastDay
  simp [updateCycleStatus, hperiod, hprime]

/-- The new mark of a dedicated time is read off the table. -/
theorem updateCycleStatus_isDedTime (clock : Clock) (now : ℤ) (st : Globals) :
    (updateCycleStatus clock now st).cstat.isDedTime = isDedTime st.conf.tables.dedTime now := by
  simp [updateCycleStatus, initPrimeTime, initNonPrimeTime, apply_ite Status.isDedTime]

/-- A dedicated time that has not ended stays in the table. -/
theorem updateCycleStatus_conf {clock : Clock} {now : ℤ} {st : Globals}
    (h : isDedTime st.conf.tables.dedTime now = true) :
    (updateCycleStatus clock now st).conf = st.conf := by
  simp [updateCycleStatus, h]

/-- What a state says about the file it was read from and about its own tables. -/
structure Consistent (loaded : Option (List Char)) (st : Globals) : Prop where
  parsed : parseConfig loaded Settings.init = .ok st.conf.settings
  prime : st.conf.tables.holidayYear = 0 → st.cstat.isPrime = true ∧ st.cstat.sortBy = .primeSort
  dedTime : st.cstat.isDedTime = true → st.conf.tables.dedTime ≠ Tables.zero.dedTime

/-- `schedinit` ends in a consistent state. -/
theorem schedinit_consistent {clock : Clock} {files : Files} {now : ℤ} {st : Globals}
    (h : schedinit clock files now = .ok st) : Consistent files.config st := by
  unfold schedinit loadConfig at h
  simp only [initConfig_eq, bind_assoc, pure_bind] at h
  obtain ⟨settings, hsettings, h⟩ := bind_ok.mp h
  obtain ⟨tables, htables, h⟩ := bind_ok.mp h
  obtain ⟨dedTime, hded, h⟩ := bind_ok.mp h
  have hst := pure_ok.mp h
  subst hst
  refine ⟨hsettings, ?_, ?_⟩
  · intro _
    exact ⟨rfl, rfl⟩
  · intro hcontra
    cases hcontra

/-- `update_cycle_status` keeps a state consistent. -/
theorem updateCycleStatus_consistent {clock : Clock} {now : ℤ} {loaded : Option (List Char)}
    {st : Globals} (h : Consistent loaded st) :
    Consistent loaded (updateCycleStatus clock now st) := by
  refine ⟨h.parsed, ?_, ?_⟩
  · intro hyear
    -- the year is not touched, so it was prime time before
    have hyear' : st.conf.tables.holidayYear = 0 := hyear
    obtain ⟨hprime, hsort⟩ := h.prime hyear'
    rw [updateCycleStatus_cstat hyear' hprime]
    exact ⟨hprime, hsort⟩
  · intro hded
    rw [updateCycleStatus_isDedTime] at hded
    rw [updateCycleStatus_conf hded]
    intro hzero
    rw [hzero, isDedTime_zero] at hded
    cases hded

/-- The state after a reload: the tables are empty and no policy is in force. -/
def reloaded (settings : Settings) (mtime now lastDay : ℤ) : Globals :=
  ⟨⟨settings, Tables.zero, mtime⟩, ⟨PolicyFlags.off, true, false, .primeSort, now⟩, lastDay⟩

/-- `update_cycle_status` changes nothing but the time there. -/
theorem updateCycleStatus_reloaded (clock : Clock) (settings : Settings)
    (mtime now before lastDay : ℤ) :
    updateCycleStatus clock now (reloaded settings mtime before lastDay) =
      reloaded settings mtime now lastDay := by
  have hperiod : isPrimeTime clock Tables.zero now lastDay = (.prime, lastDay) :=
    isPrimeTime_of_noYear rfl now lastDay
  have hzero := isDedTime_zero now
  simp only [updateCycleStatus, reloaded, Bool.false_and, Bool.false_eq_true, if_false, hzero]
  rw [hperiod]
  simp

/-- A cycle that reloads ends there, whatever there was before. -/
theorem beginCycle_reloads {clock : Clock} {text : List Char} {mtime now : ℤ} {st : Globals}
    {settings : Settings} (hparse : parseConfig (some text) Settings.init = .ok settings)
    (hnewer : st.conf.configLoaded < mtime) :
    beginCycle clock (some text) mtime now st =
      .ok (reloaded settings mtime now st.lastDay) := by
  have hload : loadConfig (some text) mtime (initConfig clock st.lastDay) =
      .ok (reloaded settings mtime 0 st.lastDay) := by
    rw [initConfig_eq]
    unfold loadConfig
    rw [hparse]
    rfl
  have houtdated : st.outdated (some text) mtime = true := by simp [Globals.outdated, hnewer]
  unfold beginCycle
  rw [if_pos houtdated, hload]
  exact congrArg Except.ok (updateCycleStatus_reloaded clock settings mtime now 0 st.lastDay)

/-- A cycle leads from a consistent state to a consistent one. -/
theorem beginCycle_consistent {clock : Clock} {loaded config : Option (List Char)}
    {mtime now : ℤ} {st st' : Globals} (h : Consistent loaded st)
    (hrun : beginCycle clock config mtime now st = .ok st') :
    Consistent (if st.outdated config mtime then config else loaded) st' := by
  by_cases houtdated : st.outdated config mtime = true
  · rw [if_pos houtdated]
    obtain ⟨hsome, hnewer⟩ : config.isSome = true ∧ st.conf.configLoaded < mtime := by
      simpa [Globals.outdated] using houtdated
    obtain ⟨text, rfl⟩ := Option.isSome_iff_exists.mp hsome
    cases hparse : parseConfig (some text) Settings.init with
    | error e =>
        unfold beginCycle loadConfig at hrun
        rw [if_pos houtdated, initConfig_eq] at hrun
        simp only [hparse] at hrun
        cases hrun
    | ok settings =>
        rw [beginCycle_reloads hparse hnewer] at hrun
        cases hrun
        refine ⟨hparse, ?_, ?_⟩
        · intro _
          exact ⟨rfl, rfl⟩
        · intro hcontra
          cases hcontra
  · rw [if_neg houtdated]
    unfold beginCycle at hrun
    rw [if_neg houtdated] at hrun
    have hst := pure_ok.mp hrun
    subst hst
    exact updateCycleStatus_consistent h

/-- Every state of the scheduler's life is consistent. -/
theorem Reached.consistent {clock : Clock} {loaded : Option (List Char)} {st : Globals}
    (h : Reached clock loaded st) : Consistent loaded st := by
  induction h with
  | start h => exact schedinit_consistent h
  | cycle _ hrun ih => exact beginCycle_consistent ih hrun

/-! ## Reloading an unchanged file -/

/-- The scheduler runs with the same configuration: all that the files said and the
policy of the moment.  The time the file was changed is not part of it. -/
structure SameConfiguration (st st' : Globals) : Prop where
  settings : st'.conf.settings = st.conf.settings
  tables : st'.conf.tables = st.conf.tables
  fairShare : st'.cstat.flags.fairShare = st.cstat.flags.fairShare
  byQueue : st'.cstat.flags.byQueue = st.cstat.flags.byQueue
  strictFifo : st'.cstat.flags.strictFifo = st.cstat.flags.strictFifo
  sortQueues : st'.cstat.flags.sortQueues = st.cstat.flags.sortQueues
  sortBy : st'.cstat.sortBy = st.cstat.sortBy
  isDedTime : st'.cstat.isDedTime = st.cstat.isDedTime

/-- Nothing is known from the other files and no policy is in force. -/
structure NothingToLose (st : Globals) : Prop where
  tables : st.conf.tables = Tables.zero
  fairShare : st.cstat.flags.fairShare = false
  byQueue : st.cstat.flags.byQueue = false
  strictFifo : st.cstat.flags.strictFifo = false
  sortQueues : st.cstat.flags.sortQueues = false

/-- In every state of the scheduler's life a reload of the same text, now newer, goes
through; it changes nothing exactly if there is nothing to lose. -/
theorem reload_same_iff {clock : Clock} {text : List Char} {mtime : ℤ} {st : Globals} (now : ℤ)
    (hreached : Reached clock (some text) st) (hnewer : st.conf.configLoaded < mtime) :
    ∃ st', beginCycle clock (some text) mtime now st = .ok st' ∧
      (SameConfiguration st st' ↔ NothingToLose st) := by
  obtain ⟨hparsed, hprime, hded⟩ := hreached.consistent
  refine ⟨_, beginCycle_reloads hparsed hnewer, ?_, ?_⟩
  · intro hsame
    exact ⟨hsame.tables.symm, hsame.fairShare.symm, hsame.byQueue.symm, hsame.strictFifo.symm,
      hsame.sortQueues.symm⟩
  · intro hnothing
    have hyear : st.conf.tables.holidayYear = 0 := by rw [hnothing.tables]; rfl
    have hnoDed : st.cstat.isDedTime = false := by
      by_contra hcontra
      refine hded (by simpa using hcontra) ?_
      rw [hnothing.tables]
    exact ⟨rfl, hnothing.tables.symm, hnothing.fairShare.symm, hnothing.byQueue.symm,
      hnothing.strictFifo.symm, hnothing.sortQueues.symm, (hprime hyear).2.symm, hnoDed.symm⟩

/-- A clock that stands still. -/
def stillClock : Clock := ⟨fun _ => ⟨0, 0, 1, 0, 0⟩, fun _ => 0⟩

/-- The files of a scheduler with a configuration file only. -/
def onlyConfig (text : String) : Files := ⟨some text.toList, 1, none, none⟩

/-- A configuration whose policy is for the other times only. -/
def nightPolicy : List Char :=
  "fair_share: true non_prime\nunknown_shares: 10\nhalf_life: 24:00:00\n".toList

/-- It is kept: in prime time no policy of it is in force. -/
theorem reload_same_nightPolicy : ∃ st st', Reached stillClock (some nightPolicy) st ∧
    beginCycle stillClock (some nightPolicy) 2 6 st = .ok st' ∧ SameConfiguration st st' ∧
    st'.conf.settings.nonPrime.fairShare = true ∧ st'.conf.settings.unknownShares = 10 ∧
    st'.conf.settings.halfLife = 86400 := by
  have heval : (do
      let st ← schedinit stillClock ⟨some nightPolicy, 1, none, none⟩ 5
      return (st.conf.tables, st.cstat.flags, st.conf.configLoaded,
        st.conf.settings.nonPrime.fairShare, st.conf.settings.unknownShares,
        st.conf.settings.halfLife) : Run _) =
      .ok (Tables.zero, PolicyFlags.off, 1, true, 10, 86400) := by decide +kernel
  obtain ⟨st, hst, hfields⟩ := bind_ok.mp heval
  have hfields := pure_ok.mp hfields
  simp only [Prod.mk.injEq] at hfields
  obtain ⟨htables, hflags, hloaded, hfair, hshares, hlife⟩ := hfields
  have hreached : Reached stillClock (some nightPolicy) st := Reached.start hst
  have hnewer : st.conf.configLoaded < 2 := by omega
  obtain ⟨st', hrun, hiff⟩ := reload_same_iff 6 hreached hnewer
  have hsame : SameConfiguration st st' := by
    refine hiff.mpr ⟨htables, ?_, ?_, ?_, ?_⟩
    all_goals
      rw [hflags]
      rfl
  refine ⟨st, st', hreached, hrun, hsame, ?_⟩
  rw [hsame.settings]
  exact ⟨hfair, hshares, hlife⟩

/-- With `fair_share` set the policy is lost: the reload takes it from zeroed settings. -/
theorem reload_loses_fair_share : ∃ st st',
    Reached stillClock (some "fair_share: true\n".toList) st ∧ st.conf.configLoaded < 2 ∧
    beginCycle stillClock (some "fair_share: true\n".toList) 2 6 st = .ok st' ∧
    ¬ SameConfiguration st st' := by
  have heval : (do
      let st ← schedinit stillClock (onlyConfig "fair_share: true\n") 5
      let st' ← beginCycle stillClock (some "fair_share: true\n".toList) 2 6 st
      return (st.conf.configLoaded, st.cstat.flags.fairShare, st'.cstat.flags.fairShare) : Run _) =
      .ok (1, true, false) := by decide +kernel
  obtain ⟨st, hst, heval⟩ := bind_ok.mp heval
  obtain ⟨st', hst', hfields⟩ := bind_ok.mp heval
  have hfields := pure_ok.mp hfields
  simp only [Prod.mk.injEq] at hfields
  obtain ⟨hloaded, hbefore, hafter⟩ := hfields
  refine ⟨st, st', Reached.start hst, by omega, hst', ?_⟩
  intro hsame
  have hkept := hsame.fairShare
  rw [hbefore, hafter] at hkept
  cases hkept

end PlanSched
