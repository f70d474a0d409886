/-
# What a line of the configuration file does

A line is cut into a name, a value and the period it is for, and of all the settings only three
kinds are more than an assignment to a field of their own: `limit` lines, `key` lines and `sort_by`
lines.  The results about these go through the lemmas below and do not look at the other settings.

* `parseLine_eq`: a line is a setting or nothing, and `parseConfig_eq`: a file is its settings;
* `parseSetting_limit`, `parseSetting_key`, `parseSetting_sortBy`, `parseSetting_other`: what the
  setting with a given name does, and `parseSetting_cases` all of it.
-/
import PlanSched.Configuration

namespace PlanSched

open CheckedRun CText

/-! ## The words of a line -/

/-- A line with a setting. -/
structure SettingLine where
  name : String
  value : List Char
  /-- The text from the value on. -/
  valueOn : List Char
  period : PrimeTime

/-- The setting of a line, if there is one. -/
def settingLine (line : List Char) : Option SettingLine :=
  if skipLine line then none
  else
    (strtok (fun c => c == ':' || isBlank c) (stripNewline line)).bind (fun (name, rest) =>
      (strtok isBlank rest).map (fun (value, rest') =>
        { name := String.ofList name
          value := value
          valueOn := rest.dropWhile isBlank
          period := primeValue ((strtok isBlank rest').map (fun t => String.ofList t.1)) }))

/-- A line is a setting or nothing. -/
theorem parseLine_eq (st : ParseState) (line : List Char) :
    parseLine st line = match settingLine line with
      | none => .ok st
      | some s => parseSetting st s.name s.value s.valueOn s.period := by
  unfold parseLine settingLine
  by_cases hskip : skipLine line
  · rw [if_pos hskip, if_pos hskip]
  · rw [if_neg hskip, if_neg hskip]
    dsimp only
    cases strtok (fun c => c == ':' || isBlank c) (stripNewline line) with
    | none => rfl
    | some words =>
        obtain ⟨name, rest⟩ := words
        rw [Option.bind_some]
        dsimp only
        cases strtok isBlank rest with
        | none => rfl
        | some words => rfl

/-- The settings of a file, in file order. -/
def settingLines (text : List Char) : List SettingLine :=
  (fgetsLines text []).filterMap settingLine

/-- Reading the lines is reading the settings. -/
theorem foldlM_parseLine (lines : List (List Char)) (st : ParseState) :
    lines.foldlM parseLine st = (lines.filterMap settingLine).foldlM
      (fun st s => parseSetting st s.name s.value s.valueOn s.period) st := by
  induction lines generalizing st with
  | nil => rfl
  | cons line lines ih =>
      rw [List.foldlM_cons, parseLine_eq]
      cases hline : settingLine line with
      | none =>
          rw [List.filterMap_cons_none hline, ← ih]
          rfl
      | some s =>
          rw [List.filterMap_cons_some hline, List.foldlM_cons]
          dsimp only
          cases parseSetting st s.name s.value s.valueOn s.period with
          | error e => rfl
          | ok st' => exact ih st'

/-- A configuration file is its settings. -/
theorem parseConfig_eq (text : List Char) (conf : Settings) :
    parseConfig (some text) conf = ((settingLines text).foldlM
      (fun st s => parseSetting st s.name s.value s.valueOn s.period) ⟨conf, 1, 1⟩).map
        ParseState.conf := by
  unfold parseConfig settingLines
  dsimp only
  rw [foldlM_parseLine]
  cases ((fgetsLines text []).filterMap settingLine).foldlM
      (fun st s => parseSetting st s.name s.value s.valueOn s.period) ⟨conf, 1, 1⟩ with
  | error e => rfl
  | ok st => rfl

/-! ## What a setting does -/

variable (st : ParseState) (value valueOn : List Char) (period : PrimeTime)

/-- A `limit` line. -/
theorem parseSetting_limit :
    parseSetting st "limit" value valueOn period = do
      let r ← parseLimit st.conf.limitsForClusters (String.ofList valueOn)
      return st.setConf { st.conf with limitsForClusters := r.2 } := rfl

/-- The sort a word names. -/
def sortNamed (value : List Char) : Option ℕ :=
  sortingInfo.findIdx? (fun s => s == String.ofList value)

/-- A `key` line. -/
theorem parseSetting_key :
    parseSetting st "key" value valueOn period = .ok (match sortNamed value with
      | none => st
      | some i => parseKey st period i) := rfl

/-- A `sort_by` line. -/
theorem parseSetting_sortBy :
    parseSetting st "sort_by" value valueOn period = .ok (match sortNamed value with
      | none => st
      | some i => st.setConf { st.conf with
          primeSort := if period.inPrime then st.conf.primeSort.set 0 (some i)
            else st.conf.primeSort
          nonPrimeSort := if period.inNonPrime then st.conf.nonPrimeSort.set 0 (some i)
            else st.conf.nonPrimeSort }) := rfl

/-- The limits and the sort keys are the same. -/
structure SameTables (conf conf' : Settings) : Prop where
  limits : conf'.limitsForClusters = conf.limitsForClusters
  primeSort : conf'.primeSort = conf.primeSort
  nonPrimeSort : conf'.nonPrimeSort = conf.nonPrimeSort

/-- A setting with any other name writes a field of its own. -/
theorem parseSetting_other {name : String} (hlimit : name ≠ "limit") (hkey : name ≠ "key")
    (hsortBy : name ≠ "sort_by") : ∃ conf,
      parseSetting st name value valueOn period = .ok (st.setConf conf) ∧
        SameTables st.conf conf := by
  unfold parseSetting
  dsimp only
  split
  -- a text that is too long is not entered
  case h_17 | h_18 | h_21 | h_22 | h_23 =>
    split
    · exact ⟨st.conf, rfl, rfl, rfl, rfl⟩
    · exact ⟨_, rfl, rfl, rfl, rfl⟩
  case h_31 => exact ⟨st.conf, rfl, rfl, rfl, rfl⟩
  all_goals first
    | exact absurd rfl hlimit
    | exact absurd rfl hkey
    | exact absurd rfl hsortBy
    | exact ⟨_, rfl, rfl, rfl, rfl⟩

/-- Everything a setting that returns can have done. -/
theorem parseSetting_cases {st st' : ParseState} {s : SettingLine}
    (h : parseSetting st s.name s.value s.valueOn s.period = .ok st') :
    (s.name = "limit" ∧ ∃ limits, st' = st.setConf { st.conf with limitsForClusters := limits }) ∨
    (s.name = "key" ∧ st' = match sortNamed s.value with
      | none => st
      | some i => parseKey st s.period i) ∨
    (s.name = "sort_by" ∧ st' = match sortNamed s.value with
      | none => st
      | some i => st.setConf { st.conf with
          primeSort := if s.period.inPrime then st.conf.primeSort.set 0 (some i)
            else st.conf.primeSort
          nonPrimeSort := if s.period.inNonPrime then st.conf.nonPrimeSort.set 0 (some i)
            else st.conf.nonPrimeSort }) ∨
    (s.name ≠ "key" ∧ ∃ conf, st' = st.setConf conf ∧ SameTables st.conf conf) := by
  obtain ⟨name, value, valueOn, period⟩ := s
  dsimp only at h
  by_cases hlimit : name = "limit"
  · subst hlimit
    rw [parseSetting_limit] at h
    obtain ⟨r, _, hst⟩ := bind_ok.mp h
    exact Or.inl ⟨rfl, r.2, (pure_ok.mp hst).symm⟩
  · by_cases hkey : name = "key"
    · subst hkey
      rw [parseSetting_key] at h
      exact Or.inr (Or.inl ⟨rfl, (Except.ok.inj h).symm⟩)
    · by_cases hsortBy : name = "sort_by"
      · subst hsortBy
        rw [parseSetting_sortBy] at h
        exact Or.inr (Or.inr (Or.inl ⟨rfl, (Except.ok.inj h).symm⟩))
      · obtain ⟨conf, hother, hsame⟩ :=
          parseSetting_other st value valueOn period hlimit hkey hsortBy
        rw [hother] at h
        exact Or.inr (Or.inr (Or.inr ⟨hkey, conf, (Except.ok.inj h).symm, hsame⟩))

end PlanSched
