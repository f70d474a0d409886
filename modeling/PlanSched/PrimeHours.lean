/-
# The hours of prime time

Models what the tables of `load_day` mean and compares it with `check_prime`
(`prime.cpp`): a flag decides for the whole day, otherwise prime time runs from one start
to the other, over midnight if need be.

The first four cases of `check_prime` are overwritten, because the `else` before the fifth
one is missing, and the start of prime time and the last minutes before the other time
are decided by the hour alone.

* `circularIco`: the half-open interval on a circle;
* `check_prime_iff`: the times at which `check_prime` says what the table means.
-/
import Mathlib.Data.Prod.Lex
import PlanSched.Reload

namespace PlanSched

/-! ## The interval on a circle -/

/-- The points from `a` on and before `b`, going past the end if `b` comes first. -/
def circularIco {α : Type*} [LinearOrder α] (a b : α) : Set α :=
  { x | if a ≤ b then a ≤ x ∧ x < b else a ≤ x ∨ x < b }

theorem mem_circularIco {α : Type*} [LinearOrder α] {a b x : α} :
    x ∈ circularIco a b ↔ (a ≤ b ∧ a ≤ x ∧ x < b) ∨ (b < a ∧ (a ≤ x ∨ x < b)) := by
  unfold circularIco
  rw [Set.mem_ofPred_eq]
  by_cases h : a ≤ b
  · rw [if_pos h]
    have hnot : ¬ b < a := not_lt.mpr h
    tauto
  · rw [if_neg h]
    have hlt : b < a := not_le.mp h
    tauto

/-! ## What a table means -/

/-- The flag that decides, in the order of the first four cases. -/
def DayTable.flag (table : DayTable) : Option PrimeTime :=
  if table.prime.all then some .prime
  else if table.nonPrime.all then some .nonPrime
  else if table.prime.none then some .nonPrime
  else if table.nonPrime.none then some .prime
  else none

/-- A start of a table, as a point of the day. -/
def DayTime.clockTime (time : DayTime) : ℤ ×ₗ ℤ := toLex (time.hour, time.min)

/-- The hour and the minute of a time. -/
def LocalTime.clockTime (t : LocalTime) : ℤ ×ₗ ℤ := toLex (t.hour, t.min)

/-- `period` is what the table means for the time `t`. -/
def DayTable.Means (table : DayTable) (t : LocalTime) (period : PrimeTime) : Prop :=
  match table.flag with
  | some flag => period = flag
  | none => period = .prime ↔
      t.clockTime ∈ circularIco table.prime.clockTime table.nonPrime.clockTime

/-! ## What check_prime computes -/

/-- The hours of prime time as `check_prime` has them: the first minute of the first hour
is missing, and so is the hour in which the other time starts. -/
def DayTable.Hours (table : DayTable) (t : LocalTime) : Prop :=
  (table.prime.hour < t.hour ∧ t.hour < table.nonPrime.hour) ∨
  (table.prime.hour < table.nonPrime.hour ∧ t.hour = table.prime.hour ∧
    table.prime.min < t.min) ∨
  (table.prime.hour = table.nonPrime.hour ∧ t.hour = table.prime.hour ∧
    table.prime.min ≤ t.min ∧ t.min < table.nonPrime.min) ∨
  (table.nonPrime.hour < table.prime.hour ∧
    (table.prime.hour < t.hour ∨ t.hour < table.nonPrime.hour))

/-- `check_prime` looks at the hours only, not at the flags. -/
theorem checkPrime_eq_prime {table : DayTable} {t : LocalTime} :
    checkPrime table t = .prime ↔ table.Hours t := by
  unfold checkPrime DayTable.Hours
  split_ifs <;> simp <;> omega

/-! ## Where the two agree -/

/-- No point near the starts at which the hours and the interval differ: a first hour
before the minute that starts the other period, or a start in the very first minute. -/
def DayTable.OffBoundary (table : DayTable) (t : LocalTime) : Prop :=
  (table.prime.hour < table.nonPrime.hour →
    ¬ (t.hour = table.prime.hour ∧ t.min = table.prime.min) ∧
    ¬ (t.hour = table.nonPrime.hour ∧ t.min < table.nonPrime.min)) ∧
  (table.prime.hour = table.nonPrime.hour → table.nonPrime.min < table.prime.min →
    t.hour = table.prime.hour ∧ table.nonPrime.min ≤ t.min ∧ t.min < table.prime.min) ∧
  (table.nonPrime.hour < table.prime.hour →
    ¬ (t.hour = table.prime.hour ∧ table.prime.min ≤ t.min) ∧
    ¬ (t.hour = table.nonPrime.hour ∧ t.min < table.nonPrime.min))

/-- A flag for prime time needs a time within the hours, a flag against it one outside
them; without a flag the time must keep off the boundaries. -/
def DayTable.Agrees (table : DayTable) (t : LocalTime) : Prop :=
  match table.flag with
  | some flag => flag = .prime ↔ table.Hours t
  | none => table.OffBoundary t

/-- The flags stand for the two periods only. -/
theorem DayTable.flag_cases (table : DayTable) :
    table.flag = none ∨ table.flag = some .prime ∨ table.flag = some .nonPrime := by
  unfold DayTable.flag
  split_ifs <;> simp

/-- `check_prime` has two answers. -/
theorem checkPrime_cases (table : DayTable) (t : LocalTime) :
    checkPrime table t = .prime ∨ checkPrime table t = .nonPrime := by
  unfold checkPrime
  split_ifs <;> simp

/-- Off the boundaries the hours are the interval. -/
theorem DayTable.hours_iff_mem {table : DayTable} {t : LocalTime} :
    (table.Hours t ↔ t.clockTime ∈ circularIco table.prime.clockTime table.nonPrime.clockTime) ↔
      table.OffBoundary t := by
  rw [mem_circularIco]
  unfold DayTable.Hours DayTable.OffBoundary DayTime.clockTime LocalTime.clockTime
  simp only [Prod.Lex.toLex_le_toLex, Prod.Lex.toLex_lt_toLex]
  -- the order of the two hours decides which of the cases are left
  rcases lt_trichotomy table.prime.hour table.nonPrime.hour with h | h | h
  · simp only [h, h.ne, h.ne', h.not_gt, true_and, false_and, or_false, forall_const,
      IsEmpty.forall_iff, and_true]
    omega
  · simp only [h, lt_irrefl, true_and, false_and, or_false, false_or, forall_const,
      IsEmpty.forall_iff, and_true]
    omega
  · simp only [h, h.ne, h.ne', h.not_gt, true_and, false_and, or_false, false_or, forall_const,
      IsEmpty.forall_iff]
    omega

/-- `check_prime` gives what the table means exactly if the time agrees with its flags
and keeps off its boundaries. -/
theorem check_prime_iff (table : DayTable) (t : LocalTime) :
    table.Means t (checkPrime table t) ↔ table.Agrees t := by
  unfold DayTable.Means DayTable.Agrees
  rcases table.flag_cases with hflag | hflag | hflag
  · simp only [hflag]
    rw [checkPrime_eq_prime, DayTable.hours_iff_mem]
  · simp only [hflag, true_iff]
    exact checkPrime_eq_prime
  · simp only [hflag, reduceCtorEq, false_iff]
    rw [← checkPrime_eq_prime]
    rcases checkPrime_cases table t with hcase | hcase
    · simp [hcase]
    · simp [hcase]

/-- A line that declares the whole day prime time gives none at all, and the minute in
which prime time starts is not prime time. -/
theorem check_prime_misses :
    (∃ t, ¬ (loadDay Tables.zero .weekday " all none".toList).weekday.Means t
      (checkPrime (loadDay Tables.zero .weekday " all none".toList).weekday t)) ∧
    (∃ t, ¬ (loadDay Tables.zero .weekday " 0800 1700".toList).weekday.Means t
      (checkPrime (loadDay Tables.zero .weekday " 0800 1700".toList).weekday t)) := by
  have hall : (loadDay Tables.zero .weekday " all none".toList).weekday =
      ⟨⟨0, 0, false, true⟩, ⟨0, 0, true, false⟩⟩ := by decide +kernel
  have hday : (loadDay Tables.zero .weekday " 0800 1700".toList).weekday =
      ⟨⟨8, 0, false, false⟩, ⟨17, 0, false, false⟩⟩ := by decide +kernel
  rw [hall, hday]
  refine ⟨⟨⟨0, 0, 1, 12, 0⟩, ?_⟩, ⟨⟨0, 0, 1, 8, 0⟩, ?_⟩⟩
  · unfold DayTable.Means
    simp only [show (⟨⟨0, 0, false, true⟩, ⟨0, 0, true, false⟩⟩ : DayTable).flag = some .prime
      from rfl]
    decide
  · unfold DayTable.Means
    simp only [show (⟨⟨8, 0, false, false⟩, ⟨17, 0, false, false⟩⟩ : DayTable).flag = none from rfl]
    rw [mem_circularIco]
    simp [checkPrime, LocalTime.clockTime, DayTime.clockTime, Prod.Lex.toLex_le_toLex,
      Prod.Lex.toLex_lt_toLex]

end PlanSched
