/-
# The configuration file

Models `parse_config` and `init_config` (`parse.cpp`): the file is read line by line with
`fgets`, a line is cut with `strtok` into a name, a value and an optional word that says
whether the setting is for prime time or not, and the setting with that name is written.
A wrong line is reported and has no further effect.

The settings are the part of `struct config` that only this file determines; the tables
that come from other files are in `Reload`.
-/
import PlanSched.LimitsConfig

namespace PlanSched

open CheckedRun CText

/-! ## Text -/

/-- `strtok`: the next token and the text behind the delimiter after it. -/
def strtok (isDelimiter : Char → Bool) (s : List Char) : Option (List Char × List Char) :=
  let start := s.dropWhile isDelimiter
  if start = [] then none
  else some (start.takeWhile (fun c => !isDelimiter c),
    (start.dropWhile (fun c => !isDelimiter c)).tail)

/-- The delimiters between words. -/
def isBlank (c : Char) : Bool := c == ' ' || c == '\t'

/-- `fgets(buf, 256, fp)` until the end of the file: a line that is too long is read in
pieces. -/
def fgetsLines : List Char → List Char → List (List Char)
  | [], line => if line = [] then [] else [line]
  | c :: text, line =>
      let line := line ++ [c]
      if c = '\n' ∨ line.length = 255 then line :: fgetsLines text [] else fgetsLines text line

/-- `skip_line`: blank lines and comments. -/
def skipLine (line : List Char) : Bool :=
  match line.dropWhile isspace with
  | [] => true
  | c :: _ => c == '#' || c == '*'

/-- The line without its end. -/
def stripNewline (line : List Char) : List Char :=
  if line.getLast? = some '\n' then line.dropLast else line

/-- `res_to_num`. -/
def resToNum (s : List Char) : ℤ :=
  let (count, rest) := strtol s
  let withWord (rest : List Char) (multiplier : ℤ) : ℤ :=
    if rest ≠ [] ∧ rest.tail.head? = some 'w' then multiplier * 8 else multiplier
  match rest.head? with
  | some ':' =>
      let (count2, rest2) := strtol rest.tail
      if rest2.head? = some ':' then
        let (count3, rest3) := strtol rest2.tail
        if rest3 ≠ [] then withWord rest3 (-1)
        else count * 3600 + count2 * 60 + count3
      else (count * 60 + count2) * withWord rest 1
  | some c =>
      if c = 'k' ∨ c = 'K' then count * withWord rest 1
      else if c = 'm' ∨ c = 'M' then count * withWord rest 1024
      else if c = 'g' ∨ c = 'G' then count * withWord rest 1048576
      else if c = 't' ∨ c = 'T' then count * withWord rest 1073741824
      else if c = 'b' ∨ c = 'B' then count % 2 ^ 64 / 1024 * withWord rest 1
      else if c = 'w' then count % 2 ^ 64 / 1024 * withWord rest 8
      else count * withWord rest 1
  | none => count

/-! ## The settings -/

/-- `enum prime_time`. -/
inductive PrimeTime : Type where
  | all
  | none
  | prime
  | nonPrime
  deriving DecidableEq, Repr

/-- The policy switches, for prime time or for the other time. -/
structure PolicyFlags where
  roundRobin : Bool
  byQueue : Bool
  strictFifo : Bool
  fairShare : Bool
  loadBalancing : Bool
  helpStarvingJobs : Bool
  sortQueues : Bool
  loadBalancingRr : Bool
  deriving DecidableEq, Repr

/-- All switches off. -/
def PolicyFlags.off : PolicyFlags := ⟨false, false, false, false, false, false, false, false⟩

/-- The `config_name`s of `sorting_info`. -/
def sortingInfo : List String :=
  ["no_sort", "shortest_job_first", "longest_job_first", "smallest_memory_first",
    "largest_memory_first", "high_priority_first", "low_priority_first", "large_walltime_first",
    "short_walltime_first", "fair_share", "multi_sort"]

/-- `num_sorts`. -/
def numSorts : ℕ := 11

/-- The fields of `struct config` that `parse_config` writes; an entry of a sort array is
a position in `sorting_info`, or none where it was not set. -/
structure Settings where
  prime : PolicyFlags
  nonPrime : PolicyFlags
  ignoreRemoteLocal : Bool
  moveJobs : Bool
  priorityFairshare : Bool
  primeSort : List (Option ℕ)
  nonPrimeSort : List (Option ℕ)
  halfLife : ℤ
  syncTime : ℤ
  unknownShares : ℤ
  logFilter : ℤ
  maxStarve : ℤ
  maxUserRun : ℤ
  maxCycle : ℤ
  localServer : String
  dedPrefix : String
  defaultQueue : String
  ignoredQueues : List String
  slaveServers : List String
  optimMinimalQueued : ℤ
  newJobsLimitPerCycle : ℤ
  optimDurationLimit : ℤ
  optimTimeout : ℤ
  limitsForClusters : LimitsForClusters

/-- The settings `init_config` starts from. -/
def Settings.init : Settings where
  prime := PolicyFlags.off
  nonPrime := PolicyFlags.off
  ignoreRemoteLocal := false
  moveJobs := false
  priorityFairshare := false
  primeSort := List.replicate (numSorts + 1) none
  nonPrimeSort := List.replicate (numSorts + 1) none
  halfLife := 0
  syncTime := 0
  unknownShares := 0
  logFilter := 0
  maxStarve := 0
  maxUserRun := 15
  maxCycle := 3600
  localServer := ""
  dedPrefix := ""
  defaultQueue := "default"
  ignoredQueues := List.replicate 16 ""
  slaveServers := List.replicate 32 ""
  optimMinimalQueued := 0
  newJobsLimitPerCycle := 0
  optimDurationLimit := 0
  optimTimeout := 0
  limitsForClusters := initLimits

/-! ## Reading a line -/

/-- The number a value stands for: 1 and 0 for truth values, -1 for other words. -/
def configNum (value : List Char) : ℤ :=
  let word := String.ofList value
  if word = "true" ∨ word = "True" ∨ value.take 4 = ['T', 'R', 'U', 'E'] then 1
  else if word = "false" ∨ word = "False" ∨ word = "FALSE" then 0
  else if value.head?.any Char.isDigit then toInt (strtol value).1
  else -1

/-- The third word of a line; a wrong one is reported, and the setting made for all
times. -/
def primeValue : Option String → PrimeTime
  | some "prime" | some "PRIME" => .prime
  | some "non_prime" | some "NON_PRIME" => .nonPrime
  | some "none" | some "NONE" => .none
  | _ => .all

/-- The setting is for prime time. -/
def PrimeTime.inPrime (period : PrimeTime) : Bool := period == .prime || period == .all

/-- The setting is for the other time. -/
def PrimeTime.inNonPrime (period : PrimeTime) : Bool := period == .nonPrime || period == .all

/-- The common form of the policy settings. -/
def Settings.setPolicy (conf : Settings) (period : PrimeTime) (set : PolicyFlags → PolicyFlags) :
    Settings :=
  { conf with
    prime := if period.inPrime then set conf.prime else conf.prime
    nonPrime := if period.inNonPrime then set conf.nonPrime else conf.nonPrime }

/-- Enter a name in the first empty place, if there is one. -/
def enterName (name : String) : List String → List String
  | [] => []
  | entry :: entries => if entry = "" then name :: entries else entry :: enterName name entries

/-- The settings with the numbers of the next sort keys. -/
structure ParseState where
  conf : Settings
  pkeyNum : ℕ
  npkeyNum : ℕ

/-- A `key` line; a key for the other time only is entered nowhere. -/
def parseKey (st : ParseState) (period : PrimeTime) (i : ℕ) : ParseState :=
  if (period.inPrime && st.pkeyNum ≤ numSorts) ||
      (period.inNonPrime && st.npkeyNum ≤ numSorts) then
    if period.inPrime then
      { conf := { st.conf with
          primeSort := st.conf.primeSort.set st.pkeyNum (some i)
          nonPrimeSort := st.conf.nonPrimeSort.set st.npkeyNum (some i) }
        pkeyNum := st.pkeyNum + 1
        npkeyNum := st.npkeyNum + 1 }
    else st
  else st

/-- A setting without effect on the sort keys. -/
def ParseState.setConf (st : ParseState) (conf : Settings) : ParseState := { st with conf := conf }

/-- The setting with the given name; `valueOn` is the text from the value on. -/
def parseSetting (st : ParseState) (name : String) (value : List Char) (valueOn : List Char)
    (period : PrimeTime) : Run ParseState :=
  let conf := st.conf
  let num := configNum value
  let on : Bool := num ≠ 0
  let word := String.ofList value
  let sort := sortingInfo.findIdx? (fun s => s == word)
  match name with
  | "round_robin" => .ok (st.setConf (conf.setPolicy period (fun p => { p with roundRobin := on })))
  | "by_queue" => .ok (st.setConf (conf.setPolicy period (fun p => { p with byQueue := on })))
  | "strict_fifo" => .ok (st.setConf (conf.setPolicy period (fun p => { p with strictFifo := on })))
  | "fair_share" => .ok (st.setConf (conf.setPolicy period (fun p => { p with fairShare := on })))
  | "load_balancing" =>
      .ok (st.setConf (conf.setPolicy period (fun p => { p with loadBalancing := on })))
  | "help_starving_jobs" =>
      .ok (st.setConf (conf.setPolicy period (fun p => { p with helpStarvingJobs := on })))
  | "sort_queues" => .ok (st.setConf (conf.setPolicy period (fun p => { p with sortQueues := on })))
  | "load_balancing_rr" =>
      .ok (st.setConf (conf.setPolicy period (fun p => { p with loadBalancingRr := on })))
  | "ignore_remote_local_queues" => .ok (st.setConf { conf with ignoreRemoteLocal := on })
  | "max_starve" => .ok (st.setConf { conf with maxStarve := resToNum value })
  | "half_life" => .ok (st.setConf { conf with halfLife := resToNum value })
  | "sync_time" => .ok (st.setConf { conf with syncTime := resToNum value })
  | "unknown_shares" => .ok (st.setConf { conf with unknownShares := num })
  | "log_filter" => .ok (st.setConf { conf with logFilter := num })
  | "cycle_length" => .ok (st.setConf { conf with maxCycle := resToNum value })
  | "max_user_run" => .ok (st.setConf { conf with maxUserRun := toInt (resToNum value) })
  | "dedicated_prefix" =>
      .ok (if value.length > 15 then st else st.setConf { conf with dedPrefix := word })
  | "local_server" =>
      .ok (if value.length > 1024 then st else st.setConf { conf with localServer := word })
  | "sort_by" =>
      .ok (match sort with
        | none => st
        | some i => st.setConf { conf with
            primeSort := if period.inPrime then conf.primeSort.set 0 (some i) else conf.primeSort
            nonPrimeSort :=
              if period.inNonPrime then conf.nonPrimeSort.set 0 (some i) else conf.nonPrimeSort })
  | "key" =>
      .ok (match sort with
        | none => st
        | some i => parseKey st period i)
  | "ignore_queue" =>
      .ok (if value.length > 15 then st
        else st.setConf { conf with ignoredQueues := enterName word conf.ignoredQueues })
  | "slave_server" =>
      .ok (if value.length > 1024 then st
        else st.setConf { conf with slaveServers := enterName word conf.slaveServers })
  | "default_queue" =>
      .ok (if value.length > 15 then st else st.setConf { conf with defaultQueue := word })
  | "job_moving" => .ok (st.setConf { conf with moveJobs := on })
  | "fair_share_with_priority" => .ok (st.setConf { conf with priorityFairshare := on })
  | "optim_minimal_queued" => .ok (st.setConf { conf with optimMinimalQueued := num })
  | "new_jobs_limit_per_cycle" => .ok (st.setConf { conf with newJobsLimitPerCycle := num })
  | "optim_duration_limit" => .ok (st.setConf { conf with optimDurationLimit := num })
  | "optim_timeout" => .ok (st.setConf { conf with optimTimeout := num })
  | "limit" => do
      let r ← parseLimit conf.limitsForClusters (String.ofList valueOn)
      return st.setConf { conf with limitsForClusters := r.2 }
  | _ => .ok st

/-- One line of the file. -/
def parseLine (st : ParseState) (line : List Char) : Run ParseState :=
  if skipLine line then .ok st
  else
    let text := stripNewline line
    match strtok (fun c => c == ':' || isBlank c) text with
    | none => .ok st
    | some (name, rest) =>
        match strtok isBlank rest with
        | none => .ok st
        | some (value, rest') =>
            parseSetting st (String.ofList name) value (rest.dropWhile isBlank)
              (primeValue ((strtok isBlank rest').map (fun t => String.ofList t.1)))

/-- `parse_config` on the text of the file; `none` when it cannot be opened. -/
def parseConfig (file : Option (List Char)) (conf : Settings) : Run Settings :=
  match file with
  | none => .ok conf
  | some text => do
      let st ← (fgetsLines text []).foldlM parseLine ⟨conf, 1, 1⟩
      return st.conf

end PlanSched
