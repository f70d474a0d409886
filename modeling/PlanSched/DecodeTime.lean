/-
# Reading a walltime

Models `decode_time` (`plan_schedule.cpp`), which reads the value of a walltime limit.
A text with a unit letter is a sum of components such as `2d12h`: the letter of each
unit is searched in the whole text, and the digits in front of it are found by going
back from it.  Any other text is `[[[DD:]HH:]MM:]SS[.MS]`, read in one pass with the
days told by a count of the colons made before.

* `decodeTime_formats`: both formats are read as the sum they stand for, and any other
  text without a unit letter as the error value.
-/
import PlanSched.JobIdentity

namespace PlanSched

open CText

/-! ## The units -/

/-- The units of a component. -/
inductive TimeUnit : Type where
  | week | day | hour | minute | second
  deriving DecidableEq, Repr

/-- The letter of a unit, in either case. -/
def TimeUnit.letters : TimeUnit → Char × Char
  | week => ('w', 'W')
  | day => ('d', 'D')
  | hour => ('h', 'H')
  | minute => ('m', 'M')
  | second => ('s', 'S')

/-- The seconds in a unit. -/
def TimeUnit.seconds : TimeUnit → ℤ
  | week => 7 * 24 * 60 * 60
  | day => 24 * 60 * 60
  | hour => 60 * 60
  | minute => 60
  | second => 1

/-- The character is the letter of the unit. -/
def TimeUnit.marks (unit : TimeUnit) (c : Char) : Bool :=
  c == unit.letters.1 || c == unit.letters.2

/-- The units in the order `decode_time` looks for them. -/
def TimeUnit.all : List TimeUnit := [second, minute, hour, day, week]

/-- The character is the letter of some unit. -/
def isUnitLetter (c : Char) : Bool := TimeUnit.all.any (fun unit => unit.marks c)

/-- Going back over the digits at `p`; the start of the text stops it, digit or not. -/
def backOverDigits (val : List Char) : ℕ → ℕ
  | 0 => 0
  | p + 1 => if (val[p + 1]?).any Char.isDigit then backOverDigits val p else p + 2

/-- The seconds read for one unit: nothing when its letter is missing or comes first. -/
def unitTime (val : List Char) (unit : TimeUnit) : ℤ :=
  match val.findIdx? unit.marks with
  | none => 0
  | some 0 => 0
  | some (p + 1) => toInt (atoi (val.drop (backOverDigits val p)) * unit.seconds)

/-! ## The clock -/

/-- The state of the pass over `[DD:]HH:MM:SS[.MS]`: `workval` up to the current position. -/
structure ClockState where
  rv : ℤ
  days : ℤ
  useDays : Bool
  workval : List Char

/-- The pass, up to the end or the point; the rest is what follows the point. -/
def clockLoop : ClockState → List Char → Option (ClockState × List Char)
  | st, [] => some (st, [])
  | st, c :: pc =>
      if c = ':' then
        if st.useDays then
          clockLoop { st with days := atoi st.workval, useDays := false, workval := [] } pc
        else clockLoop { st with rv := st.rv * 60 + atoi st.workval, workval := [] } pc
      else if c = '.' then some (st, pc)
      else if c.isDigit then clockLoop { st with workval := st.workval ++ [c] } pc
      else none

/-- The three digits after the point. -/
def msec (fraction : List Char) : List Char :=
  fraction.take 3 ++ List.replicate (3 - fraction.length) '0'

/-- `decode_time`; `PBSE_BADATVAL` is the error value. -/
def decodeTime (PBSE_BADATVAL : ℤ) (val : Option (List Char)) : ℤ :=
  match val with
  | none => 0
  | some [] => 0
  | some val =>
      if val.any isUnitLetter then
        (TimeUnit.all.map (unitTime val)).sum
      else if 3 < val.count ':' then PBSE_BADATVAL
      else
        match clockLoop ⟨0, 0, decide (2 < val.count ':'), []⟩ val with
        | none => PBSE_BADATVAL
        | some (st, fraction) =>
            let rv := st.rv * 60 + atoi st.workval
            let rv := if 0 < st.days then rv + toInt (st.days * 24 * 3600) else rv
            if 2 ^ 63 - 1 - 1 < rv then PBSE_BADATVAL
            else if 500 ≤ atoi (msec fraction) then rv + 1 else rv

/-! ## The texts -/

/-- One component of a text with units. -/
structure TimeComponent where
  digits : List Char
  unit : TimeUnit
  upper : Bool

/-- The text of a component. -/
def TimeComponent.text (part : TimeComponent) : List Char :=
  part.digits ++ [if part.upper then part.unit.letters.2 else part.unit.letters.1]

/-- What a component stands for. -/
def TimeComponent.value (part : TimeComponent) : ℤ :=
  digitsValue 10 part.digits * part.unit.seconds

/-- A number of seconds that an `int` holds. -/
structure TimeComponent.Proper (part : TimeComponent) : Prop where
  digits_decimal : IsDecimal part.digits
  value_lt : part.value < 2 ^ 31

/-- The parts of a clock time. -/
structure ClockTime where
  days : Option (List Char)
  hours : Option (List Char)
  minutes : Option (List Char)
  seconds : List Char
  fraction : Option (List Char)
  hours_of_days : days.isSome → hours.isSome
  minutes_of_hours : hours.isSome → minutes.isSome

/-- A part in front of a colon. -/
def beforeColon (field : Option (List Char)) : List Char :=
  field.elim [] (fun digits => digits ++ [':'])

/-- `[[[DD:]HH:]MM:]SS[.MS]`. -/
def ClockTime.text (clock : ClockTime) : List Char :=
  beforeColon clock.days ++ beforeColon clock.hours ++ beforeColon clock.minutes ++
    clock.seconds ++ clock.fraction.elim [] (fun digits => '.' :: digits)

/-- The number of an optional part. -/
def fieldValue (field : Option (List Char)) : ℤ :=
  field.elim 0 (fun digits => digitsValue 10 digits)

/-- The fraction is at least one half. -/
def ClockTime.RoundsUp (clock : ClockTime) : Prop :=
  ∃ digits ∈ clock.fraction, 10 ^ digits.length ≤ 2 * digitsValue 10 digits

/-- The numbers are decimal, and an `int` holds them and the seconds of the days. -/
structure ClockTime.Proper (clock : ClockTime) : Prop where
  decimal : ∀ digits ∈ clock.days.toList ++ clock.hours.toList ++ clock.minutes.toList
    ++ [clock.seconds], IsDecimal digits ∧ digitsValue 10 digits < 2 ^ 31
  fraction_decimal : ∀ digits ∈ clock.fraction, IsDecimal digits
  days_lt : fieldValue clock.days * 86400 < 2 ^ 31

/-- The seconds of a clock time, without its fraction. -/
def ClockTime.value (clock : ClockTime) : ℤ :=
  fieldValue clock.days * 86400 + fieldValue clock.hours * 3600 + fieldValue clock.minutes * 60
    + digitsValue 10 clock.seconds

/-! ## Components -/

/-- The text of components one after the other. -/
def unitsText (parts : List TimeComponent) : List Char := parts.flatMap TimeComponent.text

/-- A letter belongs to one unit. -/
theorem TimeUnit.marks_unique {unit unit' : TimeUnit} {c : Char} (h : unit.marks c = true)
    (h' : unit'.marks c = true) : unit = unit' := by
  unfold TimeUnit.marks at h h'
  rw [Bool.or_eq_true, beq_iff_eq, beq_iff_eq] at h h'
  rcases h with rfl | rfl <;> cases unit <;> cases unit' <;> simp_all [TimeUnit.letters]

/-- A letter is not a digit. -/
theorem TimeUnit.marks_digit (unit : TimeUnit) {c : Char} (hc : c.isDigit = true) :
    unit.marks c = false := by
  have hnot : ∀ d : Char, d.isDigit = false → (c == d) = false := by
    intro d hd
    rw [beq_eq_false_iff_ne]
    rintro rfl
    rw [hd] at hc
    cases hc
  unfold TimeUnit.marks
  cases unit <;> rw [hnot _ (by decide), hnot _ (by decide)] <;> rfl

/-- The letter a component ends with. -/
theorem TimeComponent.exists_letter (part : TimeComponent) : ∃ letter,
    part.text = part.digits ++ [letter] ∧ part.unit.marks letter = true := by
  refine ⟨_, rfl, ?_⟩
  unfold TimeUnit.marks
  split <;> simp

/-- No other unit is marked in a component. -/
theorem TimeComponent.marks_other {part : TimeComponent} (hdigits : IsDecimal part.digits)
    {unit : TimeUnit} (hne : unit ≠ part.unit) : ∀ c ∈ part.text, unit.marks c = false := by
  intro c hc
  obtain ⟨letter, htext, hletter⟩ := part.exists_letter
  rw [htext, List.mem_append, List.mem_singleton] at hc
  rcases hc with hc | rfl
  · exact unit.marks_digit (hdigits.2 c hc)
  · rw [← Bool.not_eq_true]
    intro h
    exact hne (TimeUnit.marks_unique h hletter)

/-- Nor in components of other units. -/
theorem marks_unitsText {parts : List TimeComponent}
    (hdigits : ∀ part ∈ parts, IsDecimal part.digits) {unit : TimeUnit}
    (hne : unit ∉ parts.map TimeComponent.unit) :
    ∀ c ∈ unitsText parts, unit.marks c = false := by
  intro c hc
  obtain ⟨part, hpart, hc⟩ := List.mem_flatMap.mp hc
  refine TimeComponent.marks_other (hdigits part hpart) ?_ c hc
  rintro rfl
  exact hne (List.mem_map_of_mem hpart)

/-- Components end with a letter that is not the first character. -/
theorem unitsText_end {parts : List TimeComponent}
    (hdigits : ∀ part ∈ parts, IsDecimal part.digits) :
    unitsText parts = [] ∨
      ∃ body letter, unitsText parts = body ++ [letter] ∧ body ≠ [] ∧ letter.isDigit = false := by
  rcases List.eq_nil_or_concat' parts with rfl | ⟨front, part, rfl⟩
  · exact Or.inl rfl
  · obtain ⟨letter, htext, hletter⟩ := part.exists_letter
    have hpart := hdigits part (List.mem_append_right _ (List.mem_singleton_self part))
    refine Or.inr ⟨unitsText front ++ part.digits, letter, ?_, ?_, ?_⟩
    · unfold unitsText
      rw [List.flatMap_append, List.flatMap_singleton, htext, List.append_assoc]
    · exact fun h => hpart.1 (List.append_eq_nil_iff.mp h).2
    · rw [← Bool.not_eq_true]
      intro h
      rw [part.unit.marks_digit h] at hletter
      cases hletter

/-- Going back from the last digit of a component comes to its first one. -/
theorem backOverDigits_component {front digits rest : List Char}
    (hfront : front = [] ∨ ∃ body letter, front = body ++ [letter] ∧ body ≠ [] ∧
      letter.isDigit = false)
    (hdigits : ∀ c ∈ digits, c.isDigit = true) (n : ℕ) : n < digits.length →
      backOverDigits (front ++ digits ++ rest) (front.length + n) = front.length := by
  have hdigit : ∀ n, n < digits.length →
      ((front ++ digits ++ rest)[front.length + n]?).any Char.isDigit = true := by
    intro n hn
    rw [List.append_assoc, List.getElem?_append_right (by omega), Nat.add_sub_cancel_left,
      List.getElem?_append_left hn, List.getElem?_eq_getElem hn]
    exact hdigits _ (List.getElem_mem hn)
  induction n with
  | zero =>
      intro hn
      rcases hfront with rfl | ⟨body, letter, rfl, hbody, hletter⟩
      · rfl
      · obtain ⟨m, hm⟩ := Nat.exists_eq_succ_of_ne_zero
          (fun h => hbody (List.length_eq_zero_iff.mp h))
        have hfirst := hdigit 0 hn
        rw [List.length_append, List.length_singleton, hm] at hfirst ⊢
        have hstop : ((body ++ [letter] ++ digits ++ rest)[m + 1]?).any Char.isDigit = false := by
          rw [List.append_assoc, List.append_assoc, List.getElem?_append_right (by omega), hm,
            Nat.sub_self]
          exact hletter
        show backOverDigits _ (m + 1 + 1) = _
        rw [backOverDigits, if_pos hfirst, backOverDigits, hstop, if_neg Bool.false_ne_true]
  | succ n ih =>
      intro hn
      have hlast := hdigit (n + 1) hn
      rw [← Nat.add_assoc] at hlast ⊢
      rw [backOverDigits, if_pos hlast]
      exact ih (by omega)

/-- A unit without a component contributes nothing. -/
theorem unitTime_absent {parts : List TimeComponent}
    (hdigits : ∀ part ∈ parts, IsDecimal part.digits) {unit : TimeUnit}
    (hne : unit ∉ parts.map TimeComponent.unit) : unitTime (unitsText parts) unit = 0 := by
  unfold unitTime
  rw [List.findIdx?_eq_none_iff.mpr (marks_unitsText hdigits hne)]

/-- The number of a unit's first component is read. -/
theorem unitTime_component {front rest : List TimeComponent} {part : TimeComponent}
    (hdigits : ∀ other ∈ front, IsDecimal other.digits) (hpart : part.Proper)
    (hne : part.unit ∉ front.map TimeComponent.unit) :
    unitTime (unitsText (front ++ part :: rest)) part.unit = part.value := by
  obtain ⟨letter, htext, hletter⟩ := part.exists_letter
  have hsplit : unitsText (front ++ part :: rest)
      = unitsText front ++ part.digits ++ letter :: unitsText rest := by
    unfold unitsText
    rw [List.flatMap_append, List.flatMap_cons, htext]
    simp only [List.append_assoc, List.singleton_append]
  obtain ⟨hdecimal, hlt⟩ := hpart
  -- the mark of the unit is the one behind the digits of this component
  have hfind : (unitsText (front ++ part :: rest)).findIdx? part.unit.marks
      = some ((unitsText front).length + (part.digits.length - 1) + 1) := by
    have hnone : (unitsText front ++ part.digits).findIdx? part.unit.marks = none := by
      rw [List.findIdx?_eq_none_iff]
      intro c hc
      rcases List.mem_append.mp hc with hc | hc
      · exact marks_unitsText hdigits hne c hc
      · exact part.unit.marks_digit (hdecimal.2 c hc)
    have hlength := List.length_pos_iff.mpr hdecimal.1
    rw [hsplit, List.findIdx?_append, hnone, List.findIdx?_cons, hletter, List.length_append]
    simp only [if_true, Option.none_or, Option.map_some, Nat.zero_add]
    congr 1
    omega
  have hlength := List.length_pos_iff.mpr hdecimal.1
  have hseconds : 1 ≤ part.unit.seconds := by
    cases part.unit <;> decide
  have hvalue : (digitsValue 10 part.digits : ℤ) ≤ part.value :=
    le_mul_of_one_le_right (Int.natCast_nonneg _) hseconds
  unfold unitTime
  rw [hfind]
  dsimp only
  rw [hsplit, backOverDigits_component (unitsText_end hdigits) hdecimal.2 _ (by omega),
    List.append_assoc, List.drop_left, atoi_digits hdecimal.1 hdecimal.2 ?_ (by omega)]
  · have hnonneg : 0 ≤ part.value := (Int.natCast_nonneg _).trans hvalue
    exact toInt_of_range (show -(2 ^ 31) ≤ part.value by omega) hlt
  · intro c hc
    cases hc
    rw [← Bool.not_eq_true]
    intro h
    rw [part.unit.marks_digit h] at hletter
    cases hletter

/-- The sum over the components is the sum over the units. -/
theorem sum_unitTime {parts : List TimeComponent} (hproper : ∀ part ∈ parts, part.Proper)
    (hnodup : (parts.map TimeComponent.unit).Nodup) :
    (TimeUnit.all.map (unitTime (unitsText parts))).sum
      = (parts.map TimeComponent.value).sum := by
  have hdigits : ∀ part ∈ parts, IsDecimal part.digits :=
    fun part hpart => (hproper part hpart).digits_decimal
  have hall : ∀ unit : TimeUnit, unit ∈ TimeUnit.all := by
    intro unit
    cases unit <;> decide
  have hvalue : ∀ part ∈ parts, unitTime (unitsText parts) part.unit = part.value := by
    intro part hpart
    obtain ⟨front, rest, rfl⟩ := List.append_of_mem hpart
    rw [List.map_append, List.map_cons, List.nodup_append] at hnodup
    refine unitTime_component
      (fun other hother => hdigits other (List.mem_append_left _ hother)) (hproper part hpart) ?_
    exact fun h => hnodup.2.2 _ h _ List.mem_cons_self rfl
  calc (TimeUnit.all.map (unitTime (unitsText parts))).sum
      = ∑ unit ∈ TimeUnit.all.toFinset, unitTime (unitsText parts) unit :=
        (List.sum_toFinset _ (by decide)).symm
    _ = ∑ unit ∈ (parts.map TimeComponent.unit).toFinset, unitTime (unitsText parts) unit := by
        refine (Finset.sum_subset (fun unit _ => List.mem_toFinset.mpr (hall unit)) ?_).symm
        intro unit _ hne
        exact unitTime_absent hdigits (fun h => hne (List.mem_toFinset.mpr h))
    _ = ((parts.map TimeComponent.unit).map (unitTime (unitsText parts))).sum :=
        List.sum_toFinset _ hnodup
    _ = (parts.map TimeComponent.value).sum := by
        rw [List.map_map]
        exact congrArg List.sum (List.map_congr_left hvalue)

/-! ## Digits -/

/-- A decimal digit is at most nine. -/
theorem digitValue_le {c : Char} (hc : c.isDigit = true) : digitValue c ≤ 9 := by
  unfold digitValue
  rw [if_pos hc]
  rw [Char.isDigit_iff_toNat] at hc
  have hnine : '9'.toNat = 57 := rfl
  omega

/-- The first digit counts for the most. -/
theorem digitsValue_cons (c : Char) (digits : List Char) :
    digitsValue 10 (c :: digits) = digitValue c * 10 ^ digits.length + digitsValue 10 digits := by
  unfold digitsValue
  rw [List.foldl_cons, foldl_digits, Nat.zero_mul, Nat.zero_add]
  rfl

/-- The number of digits bounds the number. -/
theorem digitsValue_lt {digits : List Char} (hdigits : ∀ c ∈ digits, c.isDigit = true) :
    digitsValue 10 digits < 10 ^ digits.length := by
  induction digits with
  | nil => decide
  | cons c digits ih =>
      have hfirst := digitValue_le (hdigits c List.mem_cons_self)
      have hrest := ih (fun d hd => hdigits d (List.mem_cons_of_mem c hd))
      rw [digitsValue_cons, List.length_cons, pow_succ]
      nlinarith

/-- A fraction is at least one half exactly if its first digit is at least five. -/
theorem half_iff {c : Char} {digits : List Char} (hdigits : ∀ d ∈ digits, d.isDigit = true) :
    10 ^ (c :: digits).length ≤ 2 * digitsValue 10 (c :: digits) ↔ 5 ≤ digitValue c := by
  have hrest := digitsValue_lt hdigits
  rw [digitsValue_cons, List.length_cons, pow_succ]
  constructor
  · intro h
    by_contra hlt
    have : digitValue c ≤ 4 := by omega
    nlinarith
  · intro h
    nlinarith

/-- The three digits after the point decide whether to round up. -/
theorem msec_iff {clock : ClockTime} (hdecimal : ∀ digits ∈ clock.fraction, IsDecimal digits) :
    500 ≤ atoi (msec (clock.fraction.getD [])) ↔ clock.RoundsUp := by
  unfold ClockTime.RoundsUp
  cases hfraction : clock.fraction with
  | none =>
      refine iff_of_false (by decide) ?_
      rintro ⟨digits, hdigits, _⟩
      cases hdigits
  | some digits =>
      obtain ⟨hne, hall⟩ := hdecimal digits hfraction
      cases digits with
      | nil => exact absurd rfl hne
      | cons c digits =>
          have hmsec : msec (c :: digits)
              = c :: (digits.take 2 ++ List.replicate (2 - digits.length) '0') := by
            unfold msec
            rw [List.take_succ_cons, List.length_cons, List.cons_append]
            congr 3
            omega
          set rest := digits.take 2 ++ List.replicate (2 - digits.length) '0' with hrest
          have hdigits : ∀ d ∈ digits, d.isDigit = true :=
            fun d hd => hall d (List.mem_cons_of_mem c hd)
          have hrestDigits : ∀ d ∈ rest, d.isDigit = true := by
            intro d hd
            rcases List.mem_append.mp hd with hd | hd
            · exact hdigits d (List.mem_of_mem_take hd)
            · rw [List.eq_of_mem_replicate hd]
              decide
          have hlength : rest.length = 2 := by
            rw [hrest, List.length_append, List.length_take, List.length_replicate]
            omega
          have hmsecDigits : ∀ d ∈ c :: rest, d.isDigit = true :=
            List.forall_mem_cons.mpr ⟨hall c List.mem_cons_self, hrestDigits⟩
          -- the first digit decides: the two behind it make at most 99
          have hlt := digitsValue_lt hmsecDigits
          rw [List.length_cons, hlength] at hlt
          have hatoi : atoi (c :: rest ++ []) = digitsValue 10 (c :: rest) :=
            atoi_digits (List.cons_ne_nil c rest) hmsecDigits
              (fun d hd => absurd hd (Option.not_mem_none d)) (by omega)
          rw [List.append_nil] at hatoi
          have hhalf := half_iff (c := c) hrestDigits
          rw [List.length_cons, hlength] at hhalf
          show 500 ≤ atoi (msec (c :: digits)) ↔ _
          rw [hmsec, hatoi]
          constructor
          · intro h
            exact ⟨_, rfl, (half_iff hdigits).mpr (hhalf.mp (by omega))⟩
          · rintro ⟨_, hsame, h⟩
            cases hsame
            have := hhalf.mpr ((half_iff hdigits).mp h)
            omega

/-! ## The pass -/

/-- Digits are added to `workval`. -/
theorem clockLoop_digits {digits : List Char} (hdigits : ∀ c ∈ digits, c.isDigit = true)
    (rest : List Char) : ∀ st : ClockState,
      clockLoop st (digits ++ rest)
        = clockLoop { st with workval := st.workval ++ digits } rest := by
  induction digits with
  | nil =>
      intro st
      rw [List.append_nil]
      rfl
  | cons c digits ih =>
      intro st
      have hc := hdigits c List.mem_cons_self
      have hcolon : c ≠ ':' := by
        rintro rfl
        cases hc
      have hpoint : c ≠ '.' := by
        rintro rfl
        cases hc
      rw [List.cons_append, clockLoop, if_neg hcolon, if_neg hpoint, if_pos hc,
        ih (fun d hd => hdigits d (List.mem_cons_of_mem c hd)), List.append_assoc]
      rfl

/-- A part in front of a colon is read as a number. -/
theorem clockLoop_beforeColon {digits : List Char} (hdecimal : IsDecimal digits)
    (hlt : digitsValue 10 digits < 2 ^ 31) (rest : List Char) (rv days : ℤ) (useDays : Bool) :
    clockLoop ⟨rv, days, useDays, []⟩ (beforeColon (some digits) ++ rest)
      = if useDays then clockLoop ⟨rv, digitsValue 10 digits, false, []⟩ rest
        else clockLoop ⟨rv * 60 + digitsValue 10 digits, days, false, []⟩ rest := by
  have hatoi : atoi (digits ++ []) = digitsValue 10 digits :=
    atoi_digits hdecimal.1 hdecimal.2 (fun c hc => absurd hc (Option.not_mem_none c)) hlt
  rw [List.append_nil] at hatoi
  show clockLoop _ (digits ++ [':'] ++ rest) = _
  rw [List.append_assoc, clockLoop_digits hdecimal.2]
  dsimp only
  rw [List.nil_append, List.singleton_append, clockLoop, if_pos rfl, hatoi]
  cases useDays <;> rfl

/-- The seconds and the fraction end the pass. -/
theorem clockLoop_end {digits : List Char} (hdecimal : IsDecimal digits)
    (fraction : Option (List Char)) (rv days : ℤ) (useDays : Bool) :
    clockLoop ⟨rv, days, useDays, []⟩ (digits ++ fraction.elim [] (fun digits => '.' :: digits))
      = some (⟨rv, days, useDays, digits⟩, fraction.getD []) := by
  rw [clockLoop_digits hdecimal.2]
  cases fraction with
  | none => rfl
  | some fraction => rfl

/-- A character that the format does not have stops the pass. -/
theorem clockLoop_bad {val : List Char} :
    ∀ {st : ClockState}, (∃ c ∈ val.takeWhile (· ≠ '.'), c ≠ ':' ∧ c.isDigit = false) →
      clockLoop st val = none := by
  induction val with
  | nil =>
      rintro st ⟨c, hc, _⟩
      cases hc
  | cons first val ih =>
      rintro st ⟨c, hc, hcolon, hdigit⟩
      by_cases hpoint : first = '.'
      · subst hpoint
        cases hc
      · rw [List.takeWhile_cons_of_pos (by simpa using hpoint), List.mem_cons] at hc
        rw [clockLoop, if_neg hpoint]
        rcases hc with rfl | hc
        · rw [if_neg hcolon, if_neg (by rw [hdigit]; exact Bool.false_ne_true)]
        · have hrest : ∃ c ∈ val.takeWhile (· ≠ '.'), c ≠ ':' ∧ c.isDigit = false :=
            ⟨c, hc, hcolon, hdigit⟩
          split
          · split
            · exact ih hrest
            · exact ih hrest
          · split
            · exact ih hrest
            · rfl

/-! ## Clock times -/

/-- Each number of a clock time is decimal. -/
theorem ClockTime.Proper.field {clock : ClockTime} (h : clock.Proper) {digits : List Char}
    (hdigits : digits ∈ clock.days ∨ digits ∈ clock.hours ∨ digits ∈ clock.minutes ∨
      digits = clock.seconds) : IsDecimal digits ∧ digitsValue 10 digits < 2 ^ 31 := by
  refine h.decimal digits ?_
  simp only [List.mem_append, Option.mem_toList, List.mem_singleton]
  tauto

/-- The colons of a part. -/
theorem count_beforeColon {field : Option (List Char)}
    (hdecimal : ∀ digits ∈ field, IsDecimal digits) :
    (beforeColon field).count ':' = field.isSome.toNat := by
  cases field with
  | none => rfl
  | some digits =>
      have hnone : digits.count ':' = 0 := by
        rw [List.count_eq_zero]
        intro h
        have := (hdecimal digits rfl).2 _ h
        cases this
      show (digits ++ [':']).count ':' = 1
      rw [List.count_append, hnone]
      rfl

/-- The colons of a clock time. -/
theorem ClockTime.Proper.count_colon {clock : ClockTime} (h : clock.Proper) :
    clock.text.count ':'
      = clock.days.isSome.toNat + clock.hours.isSome.toNat + clock.minutes.isSome.toNat := by
  have hnone : ∀ digits : List Char, (∀ c ∈ digits, c.isDigit = true) → digits.count ':' = 0 := by
    intro digits hdigits
    rw [List.count_eq_zero]
    intro hmem
    cases hdigits _ hmem
  have hfraction : (clock.fraction.elim [] (fun digits => '.' :: digits)).count ':' = 0 := by
    cases hf : clock.fraction with
    | none => rfl
    | some digits =>
        show ('.' :: digits).count ':' = 0
        rw [List.count_cons_of_ne (by decide)]
        exact hnone digits (h.fraction_decimal digits hf).2
  unfold ClockTime.text
  rw [List.count_append, List.count_append, List.count_append, List.count_append, hfraction,
    hnone _ (h.field (Or.inr (Or.inr (Or.inr rfl)))).1.2,
    count_beforeColon (fun digits hd => (h.field (Or.inl hd)).1),
    count_beforeColon (fun digits hd => (h.field (Or.inr (Or.inl hd))).1),
    count_beforeColon (fun digits hd => (h.field (Or.inr (Or.inr (Or.inl hd)))).1)]
  rfl

/-- A clock time has no unit letter. -/
theorem ClockTime.Proper.noUnit {clock : ClockTime} (h : clock.Proper) :
    clock.text.any isUnitLetter = false := by
  have hdigit : ∀ c : Char, c.isDigit = true → isUnitLetter c = false := by
    intro c hc
    unfold isUnitLetter
    rw [List.any_eq_false]
    intro unit _
    rw [unit.marks_digit hc]
    exact Bool.false_ne_true
  have hfield : ∀ field : Option (List Char), (∀ digits ∈ field, IsDecimal digits) →
      ∀ c ∈ beforeColon field, isUnitLetter c = false := by
    rintro (_ | digits) hdecimal c hc
    · cases hc
    · rcases List.mem_append.mp hc with hc | hc
      · exact hdigit c ((hdecimal digits rfl).2 c hc)
      · rw [List.mem_singleton.mp hc]
        decide
  rw [List.any_eq_false]
  intro c hc
  rw [Bool.not_eq_true]
  unfold ClockTime.text at hc
  simp only [List.mem_append] at hc
  rcases hc with (((hc | hc) | hc) | hc) | hc
  · exact hfield _ (fun digits hd => (h.field (Or.inl hd)).1) c hc
  · exact hfield _ (fun digits hd => (h.field (Or.inr (Or.inl hd))).1) c hc
  · exact hfield _ (fun digits hd => (h.field (Or.inr (Or.inr (Or.inl hd)))).1) c hc
  · exact hdigit c ((h.field (Or.inr (Or.inr (Or.inr rfl)))).1.2 c hc)
  · cases hf : clock.fraction with
    | none =>
        rw [hf] at hc
        cases hc
    | some digits =>
        rw [hf] at hc
        rcases List.mem_cons.mp hc with rfl | hc
        · decide
        · exact hdigit c ((h.fraction_decimal digits hf).2 c hc)

/-- What the pass reads of a clock time. -/
theorem ClockTime.Proper.pass {clock : ClockTime} (h : clock.Proper) :
    clockLoop ⟨0, 0, decide (2 < clock.text.count ':'), []⟩ clock.text
      = some (⟨fieldValue clock.hours * 60 + fieldValue clock.minutes, fieldValue clock.days,
          false, clock.seconds⟩, clock.fraction.getD []) := by
  have hseconds := (h.field (Or.inr (Or.inr (Or.inr rfl)))).1
  have hminutes : ∀ digits ∈ clock.minutes, IsDecimal digits ∧ digitsValue 10 digits < 2 ^ 31 :=
    fun digits hd => h.field (Or.inr (Or.inr (Or.inl hd)))
  have hhours : ∀ digits ∈ clock.hours, IsDecimal digits ∧ digitsValue 10 digits < 2 ^ 31 :=
    fun digits hd => h.field (Or.inr (Or.inl hd))
  have hdays : ∀ digits ∈ clock.days, IsDecimal digits ∧ digitsValue 10 digits < 2 ^ 31 :=
    fun digits hd => h.field (Or.inl hd)
  rw [h.count_colon]
  obtain ⟨days, hours, minutes, seconds, fraction, hdaysHours, hhoursMinutes⟩ := clock
  unfold ClockTime.text
  dsimp only at *
  -- the parts that are there: the seconds, the minutes and seconds, and so up to the days
  rcases minutes with _ | minutes
  · rcases hours with _ | hours
    · rcases days with _ | days
      · exact clockLoop_end hseconds fraction _ _ _
      · cases hdaysHours rfl
    · cases hhoursMinutes rfl
  · obtain ⟨hmin, hminLt⟩ := hminutes minutes rfl
    rcases hours with _ | hours
    · rcases days with _ | days
      · show clockLoop _ (beforeColon (some minutes) ++ seconds ++ _) = _
        rw [List.append_assoc, clockLoop_beforeColon hmin hminLt]
        exact clockLoop_end hseconds fraction _ _ _
      · cases hdaysHours rfl
    · obtain ⟨hhour, hhourLt⟩ := hhours hours rfl
      have hrest : beforeColon (some hours) ++ beforeColon (some minutes) ++ seconds
          ++ fraction.elim [] (fun digits => '.' :: digits)
          = beforeColon (some hours) ++ (beforeColon (some minutes) ++ (seconds
            ++ fraction.elim [] (fun digits => '.' :: digits))) := by
        rw [List.append_assoc, List.append_assoc]
      rcases days with _ | days
      · show clockLoop _ (beforeColon (some hours) ++ beforeColon (some minutes) ++ seconds ++ _)
          = _
        rw [hrest, clockLoop_beforeColon hhour hhourLt]
        show clockLoop _ _ = _
        rw [clockLoop_beforeColon hmin hminLt]
        show clockLoop _ _ = _
        rw [clockLoop_end hseconds, Int.zero_mul, Int.zero_add]
        rfl
      · obtain ⟨hday, hdayLt⟩ := hdays days rfl
        rw [List.append_assoc, List.append_assoc, List.append_assoc,
          clockLoop_beforeColon hday hdayLt]
        show clockLoop _ _ = _
        rw [clockLoop_beforeColon hhour hhourLt]
        show clockLoop _ _ = _
        rw [clockLoop_beforeColon hmin hminLt]
        show clockLoop _ _ = _
        rw [clockLoop_end hseconds, Int.zero_mul, Int.zero_add]
        rfl

/-! ## Both formats -/

/-- A text that is not a clock time: too many colons, or a character that is neither a digit
nor a colon in front of the point. -/
def NotClock (val : List Char) : Prop :=
  3 < val.count ':' ∨ ∃ c ∈ val.takeWhile (· ≠ '.'), c ≠ ':' ∧ c.isDigit = false

/-- The pass and the sum for a text without a unit letter. -/
theorem decodeTime_noUnit {PBSE_BADATVAL : ℤ} {val : List Char} (hne : val ≠ [])
    (hunit : val.any isUnitLetter = false) :
    decodeTime PBSE_BADATVAL (some val)
      = if 3 < val.count ':' then PBSE_BADATVAL
        else
          match clockLoop ⟨0, 0, decide (2 < val.count ':'), []⟩ val with
          | none => PBSE_BADATVAL
          | some (st, fraction) =>
              let rv := st.rv * 60 + atoi st.workval
              let rv := if 0 < st.days then rv + toInt (st.days * 24 * 3600) else rv
              if 2 ^ 63 - 1 - 1 < rv then PBSE_BADATVAL
              else if 500 ≤ atoi (msec fraction) then rv + 1 else rv := by
  cases val with
  | nil => exact absurd rfl hne
  | cons c val =>
      unfold decodeTime
      dsimp only
      rw [hunit, if_neg Bool.false_ne_true]

/-- The value of a text with units. -/
theorem decodeTime_unitsText (PBSE_BADATVAL : ℤ) {parts : List TimeComponent} (hne : parts ≠ [])
    (hproper : ∀ part ∈ parts, part.Proper) (hnodup : (parts.map TimeComponent.unit).Nodup) :
    decodeTime PBSE_BADATVAL (some (unitsText parts))
      = (parts.map TimeComponent.value).sum := by
  rw [← sum_unitTime hproper hnodup]
  obtain ⟨part, rest, rfl⟩ := List.exists_cons_of_ne_nil hne
  obtain ⟨letter, htext, hletter⟩ := part.exists_letter
  have hmem : letter ∈ unitsText (part :: rest) := by
    refine List.mem_flatMap.mpr ⟨part, List.mem_cons_self, ?_⟩
    rw [htext]
    exact List.mem_append_right _ (List.mem_singleton_self letter)
  have hunit : (unitsText (part :: rest)).any isUnitLetter = true := by
    refine List.any_eq_true.mpr ⟨letter, hmem, List.any_eq_true.mpr ⟨part.unit, ?_, hletter⟩⟩
    cases part.unit <;> decide
  cases hval : unitsText (part :: rest) with
  | nil =>
      rw [hval] at hmem
      cases hmem
  | cons c val =>
      rw [hval] at hunit
      unfold decodeTime
      dsimp only
      rw [if_pos hunit]

/-- The value of a clock time. -/
theorem decodeTime_clock (PBSE_BADATVAL : ℤ) {clock : ClockTime} (h : clock.Proper) {up : ℤ}
    (hup : (up = 1 ∧ clock.RoundsUp) ∨ (up = 0 ∧ ¬ clock.RoundsUp)) :
    decodeTime PBSE_BADATVAL (some clock.text) = clock.value + up := by
  obtain ⟨hdecimal, hlt⟩ := h.field (Or.inr (Or.inr (Or.inr rfl)))
  have hne : clock.text ≠ [] := by
    unfold ClockTime.text
    intro hnil
    rw [List.append_eq_nil_iff, List.append_eq_nil_iff] at hnil
    exact hdecimal.1 hnil.1.2
  have hcount : ¬ 3 < clock.text.count ':' := by
    rw [h.count_colon]
    have hdays := Bool.toNat_le clock.days.isSome
    have hhours := Bool.toNat_le clock.hours.isSome
    have hminutes := Bool.toNat_le clock.minutes.isSome
    omega
  have hatoi : atoi (clock.seconds ++ []) = digitsValue 10 clock.seconds :=
    atoi_digits hdecimal.1 hdecimal.2 (fun c hc => absurd hc (Option.not_mem_none c)) hlt
  rw [List.append_nil] at hatoi
  have hrange : ∀ field : Option (List Char),
      (∀ digits ∈ field, IsDecimal digits ∧ digitsValue 10 digits < 2 ^ 31) →
      0 ≤ fieldValue field ∧ fieldValue field < 2 ^ 31 := by
    rintro (_ | digits) hfield
    · exact ⟨le_rfl, by decide⟩
    · have := (hfield digits rfl).2
      show 0 ≤ (digitsValue 10 digits : ℤ) ∧ (digitsValue 10 digits : ℤ) < 2 ^ 31
      omega
  have hdays := hrange clock.days (fun digits hd => h.field (Or.inl hd))
  have hhours := hrange clock.hours (fun digits hd => h.field (Or.inr (Or.inl hd)))
  have hminutes := hrange clock.minutes (fun digits hd => h.field (Or.inr (Or.inr (Or.inl hd))))
  have hdaysLt := h.days_lt
  rw [decodeTime_noUnit hne h.noUnit, if_neg hcount, h.pass]
  dsimp only
  rw [hatoi, toInt_of_range (by omega) (by omega)]
  -- the branch of the code for the days adds nothing where there are none
  have hsum : (if 0 < fieldValue clock.days then
      (fieldValue clock.hours * 60 + fieldValue clock.minutes) * 60
        + (digitsValue 10 clock.seconds : ℤ) + fieldValue clock.days * 24 * 3600
      else (fieldValue clock.hours * 60 + fieldValue clock.minutes) * 60
        + (digitsValue 10 clock.seconds : ℤ)) = clock.value := by
    unfold ClockTime.value
    split <;> omega
  rw [hsum]
  have hsmall : ¬ 2 ^ 63 - 1 - 1 < clock.value := by
    unfold ClockTime.value
    omega
  rw [if_neg hsmall]
  rcases hup with ⟨rfl, hhalf⟩ | ⟨rfl, hhalf⟩
  · rw [if_pos ((msec_iff h.fraction_decimal).mpr hhalf)]
  · rw [if_neg (fun hge => hhalf ((msec_iff h.fraction_decimal).mp hge)), Int.add_zero]

/-- Any other text without a unit letter is refused. -/
theorem decodeTime_notClock (PBSE_BADATVAL : ℤ) {val : List Char}
    (hunit : val.any isUnitLetter = false) (hbad : NotClock val) :
    decodeTime PBSE_BADATVAL (some val) = PBSE_BADATVAL := by
  have hne : val ≠ [] := by
    rintro rfl
    rcases hbad with hcount | ⟨c, hc, _⟩
    · exact absurd hcount (by decide)
    · cases hc
  rw [decodeTime_noUnit hne hunit]
  rcases hbad with hcount | hbad
  · rw [if_pos hcount]
  · rw [clockLoop_bad hbad, ite_self]

/-- Both formats are read as what they stand for, and other texts without a unit letter are
refused. -/
theorem decodeTime_formats (PBSE_BADATVAL : ℤ) :
    (∀ parts : List TimeComponent, parts ≠ [] → (∀ part ∈ parts, part.Proper) →
      (parts.map TimeComponent.unit).Sublist [.week, .day, .hour, .minute, .second] →
        decodeTime PBSE_BADATVAL (some (unitsText parts))
          = (parts.map TimeComponent.value).sum) ∧
    (∀ clock : ClockTime, clock.Proper →
      (clock.RoundsUp → decodeTime PBSE_BADATVAL (some clock.text) = clock.value + 1) ∧
      (¬ clock.RoundsUp → decodeTime PBSE_BADATVAL (some clock.text) = clock.value)) ∧
    (∀ val : List Char, val.any isUnitLetter = false → NotClock val →
      decodeTime PBSE_BADATVAL (some val) = PBSE_BADATVAL) := by
  refine ⟨?_, ?_, ?_⟩
  · intro parts hne hproper hsub
    exact decodeTime_unitsText PBSE_BADATVAL hne hproper (hsub.nodup (by decide))
  · intro clock hclock
    refine ⟨fun h => decodeTime_clock PBSE_BADATVAL hclock (Or.inl ⟨rfl, h⟩), fun h => ?_⟩
    rw [decodeTime_clock PBSE_BADATVAL hclock (Or.inr ⟨rfl, h⟩), Int.add_zero]
  · intro val hunit hbad
    exact decodeTime_notClock PBSE_BADATVAL hunit hbad

/-- `2h` and `7` seconds and a half, and a text that is neither. -/
theorem decodeTime_formats_short :
    decodeTime (-1) (some ['2', 'h']) = 7200 ∧ decodeTime (-1) (some ['7', '.', '5']) = 8 ∧
      decodeTime (-1) (some ['x']) = -1 := by
  obtain ⟨hunits, hclock, hbad⟩ := decodeTime_formats (-1)
  refine ⟨?_, ?_, ?_⟩
  · refine hunits [⟨['2'], .hour, false⟩] (by simp) ?_ (by decide)
    intro part hpart
    rw [List.mem_singleton.mp hpart]
    refine ⟨⟨by simp, by simp⟩, ?_⟩
    show (7200 : ℤ) < 2 ^ 31
    norm_num
  · refine (hclock ⟨none, none, none, ['7'], some ['5'], by simp, by simp⟩
      ⟨?_, ?_, by norm_num [fieldValue]⟩).1
      ⟨['5'], rfl, by decide⟩
    · intro digits hdigits
      rw [List.mem_singleton.mp hdigits]
      refine ⟨⟨by simp, by simp⟩, ?_⟩
      show 7 < 2 ^ 31
      norm_num
    · intro digits hdigits
      cases hdigits
      exact ⟨by simp, by simp⟩
  · exact hbad ['x'] (by decide) (Or.inr ⟨'x', by decide, by decide, by decide⟩)

end PlanSched
