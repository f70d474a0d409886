/-
# Dedicated time

The intervals of dedicated time are read once, by `parse_ded_file`, into an array that
is sorted by their starts; from then on `is_ded_time` looks at the first entry only, and
`update_cycle_status` retires it when a cycle outside follows a cycle inside it.

* `fileIntervals` are the intervals of the file, both ends read by the same rule, and
  `writtenIntervals` those of the code, which takes a short end year as it stands;
* `startOrder` is the array after parsing (`parseDedFile_eq`), `Table` the array after a
  number of retirements, and `due` the entry that is then looked at;
* `endings` counts the cycles that ended a dedicated time;
* `dedTime_recognised_iff` says exactly when the mark is right in every cycle.
-/
import PlanSched.Reload

namespace PlanSched

open CheckedRun CText

/-! ## The intervals of the file -/

/-- The two dates of a line, if the line is not skipped and has them. -/
def readDedLine (line : List Char) : Option (BrokenDate × BrokenDate) :=
  if skipLine line then none
  else do
    let (first, s) ← scanDate line
    let (second, _) ← scanDate (s.dropWhile isspace)
    return (first, second)

/-- The lines of the file that have two dates. -/
def dedLines (text : List Char) : List (BrokenDate × BrokenDate) :=
  (fgetsLines text []).filterMap readDedLine

/-- The intervals of the file: years with two or four digits, by one rule for both ends. -/
def fileIntervals (clock : Clock) (text : List Char) : List Timegap :=
  (dedLines text).map fun dates =>
    ⟨clock.mktime (fullYear dates.1), clock.mktime (fullYear dates.2)⟩

/-- The interval of a line as the code reads it: an end year with two digits stays as it is. -/
def writtenInterval (clock : Clock) (dates : BrokenDate × BrokenDate) : Timegap :=
  ⟨clock.mktime (fullYear dates.1), clock.mktime (fourDigitYear dates.2)⟩

/-- The interval has passed. -/
def Timegap.Passed (interval : Timegap) (now : ℤ) : Prop :=
  interval.start < now ∧ interval.stop < now

instance (interval : Timegap) (now : ℤ) : Decidable (interval.Passed now) :=
  inferInstanceAs (Decidable (_ ∧ _))

/-- The intervals that are kept when the file is parsed. -/
def keptIntervals (clock : Clock) (now : ℤ) (text : List Char) : List Timegap :=
  ((dedLines text).map (writtenInterval clock)).filter (fun interval => ¬ interval.Passed now)

/-- The kept intervals by their starts. -/
def startOrder (clock : Clock) (now : ℤ) (text : List Char) : List Timegap :=
  (keptIntervals clock now text).mergeSort dedTimeLe

/-- The time lies strictly inside the interval. -/
def Timegap.Inside (interval : Timegap) (t : ℤ) : Prop := interval.start < t ∧ t < interval.stop

instance (interval : Timegap) (t : ℤ) : Decidable (interval.Inside t) :=
  inferInstanceAs (Decidable (_ ∧ _))

/-- The time lies strictly inside one of the intervals. -/
def InSome (intervals : List Timegap) (t : ℤ) : Prop := ∃ interval ∈ intervals, interval.Inside t

instance (intervals : List Timegap) (t : ℤ) : Decidable (InSome intervals t) :=
  inferInstanceAs (Decidable (∃ interval ∈ intervals, _))

/-- The empty entry. -/
def noInterval : Timegap := ⟨0, 0⟩

/-- The entry that is looked at after `p` retirements.  An interval that starts at time 0 counts
as an empty one for the sort, so it is looked at only where it stands first from the beginning. -/
def due (order : List Timegap) (p : ℕ) : Timegap :=
  match order[p]? with
  | some interval => if interval.start ≠ 0 ∨ p = 0 then interval else noInterval
  | none => noInterval

/-- The number of times, among these cycles, that a cycle outside follows a cycle inside. -/
def endings (intervals : List Timegap) : List ℤ → ℕ
  | [] => 0
  | [_] => 0
  | t :: t' :: times =>
      (if InSome intervals t ∧ ¬ InSome intervals t' then 1 else 0) +
        endings intervals (t' :: times)

/-! ## The order of the array -/

/-- The comparison is transitive. -/
theorem dedTimeLe_trans (a b c : Timegap) (hab : dedTimeLe a b) (hbc : dedTimeLe b c) :
    dedTimeLe a c := by
  unfold dedTimeLe at *
  split_ifs at *
  all_goals first
    | rfl
    | (simp only [decide_eq_true_eq] at *; omega)

/-- The comparison decides every pair. -/
theorem dedTimeLe_total (a b : Timegap) : dedTimeLe a b || dedTimeLe b a := by
  unfold dedTimeLe
  split_ifs
  all_goals first
    | rfl
    | (simp only [Bool.or_eq_true, decide_eq_true_eq]; omega)

/-- Every entry may stand before an empty one. -/
theorem dedTimeLe_zero (a : Timegap) {b : Timegap} (hb : b.start = 0) : dedTimeLe a b = true := by
  unfold dedTimeLe
  rw [hb]
  by_cases ha : a.start = 0
  · simp [ha]
  · simp [ha]

/-- An empty entry stands only before empty ones. -/
theorem dedTimeLe_of_zero {a b : Timegap} (ha : a.start = 0) :
    dedTimeLe a b = true ↔ b.start = 0 := by
  unfold dedTimeLe
  rw [ha]
  by_cases hb : b.start = 0
  · simp [hb]
  · simp [hb]

/-- A list whose first element fails the test ends the run of those that pass it. -/
theorem takeWhile_append_stop {α : Type} {p : α → Bool} {ys : List α}
    (h : ∀ y, ys.head? = some y → p y = false) (xs : List α) :
    (xs ++ ys).takeWhile p = xs.takeWhile p ∧
      (xs ++ ys).dropWhile p = xs.dropWhile p ++ ys := by
  induction xs with
  | nil =>
      cases ys with
      | nil => exact ⟨rfl, rfl⟩
      | cons y ys => simp [h y rfl]
  | cons x xs ih =>
      by_cases hx : p x = true
      · simp [hx, ih.1, ih.2]
      · simp [hx]

/-- A stable sort puts a first element behind those that must stand before it. -/
theorem mergeSort_insert {α : Type} {le : α → α → Bool}
    (htrans : ∀ a b c, le a b → le b c → le a c) (htotal : ∀ a b, le a b || le b a) (a : α)
    (xs : List α) :
    (a :: xs).mergeSort le = (xs.mergeSort le).takeWhile (fun b => !le a b) ++
      a :: (xs.mergeSort le).dropWhile (fun b => !le a b) := by
  obtain ⟨before, after, hcons, hrest, hbefore⟩ := List.mergeSort_cons htrans htotal a xs
  have hsorted := List.pairwise_mergeSort htrans htotal (a :: xs)
  rw [hcons] at hsorted
  have hafter : ∀ b, after.head? = some b → (!le a b) = false := by
    intro b hb
    have hle := (List.pairwise_cons.mp (List.pairwise_append.mp hsorted).2.1).1 b
      (List.mem_of_head? hb)
    simp [hle]
  obtain ⟨htake, hdrop⟩ := takeWhile_append_stop hafter before
  have hall : before.takeWhile (fun b => !le a b) = before ∧
      before.dropWhile (fun b => !le a b) = [] := by
    rw [List.takeWhile_eq_self_iff, List.dropWhile_eq_nil_iff]
    exact ⟨hbefore, hbefore⟩
  rw [hcons, hrest, htake, hdrop, hall.1, hall.2, List.nil_append]

/-- Empty entries at the end stay there. -/
theorem mergeSort_append_empty (xs : List Timegap) (k : ℕ) :
    (xs ++ List.replicate k noInterval).mergeSort dedTimeLe =
      xs.mergeSort dedTimeLe ++ List.replicate k noInterval := by
  induction xs with
  | nil =>
      rw [List.nil_append, List.mergeSort_nil, List.nil_append]
      apply List.mergeSort_of_pairwise
      rw [List.pairwise_replicate]
      right
      exact dedTimeLe_zero _ rfl
  | cons a xs ih =>
      have hstop : ∀ b, (List.replicate k noInterval).head? = some b →
          (!dedTimeLe a b) = false := by
        intro b hb
        rw [List.eq_of_mem_replicate (List.mem_of_head? hb)]
        simp [dedTimeLe_zero a (b := noInterval) rfl]
      obtain ⟨htake, hdrop⟩ := takeWhile_append_stop hstop (xs.mergeSort dedTimeLe)
      rw [List.cons_append, mergeSort_insert dedTimeLe_trans dedTimeLe_total, ih, htake, hdrop,
        mergeSort_insert dedTimeLe_trans dedTimeLe_total a xs, List.append_assoc]
      rfl

/-- An empty entry at the front goes behind the others. -/
theorem mergeSort_retired {others empties : List Timegap}
    (hsorted : others.Pairwise (fun a b => dedTimeLe a b)) (hothers : ∀ a ∈ others, a.start ≠ 0)
    (hempties : ∀ a ∈ empties, a.start = 0) :
    (noInterval :: (others ++ empties)).mergeSort dedTimeLe = others ++ noInterval :: empties := by
  have hpairwise : (others ++ empties).Pairwise (fun a b => dedTimeLe a b) := by
    rw [List.pairwise_append]
    refine ⟨hsorted, ?_, ?_⟩
    · rw [List.pairwise_iff_forall_sublist]
      intro a b hab
      exact dedTimeLe_zero a (hempties b (hab.subset (by simp)))
    · intro a _ b hb
      exact dedTimeLe_zero a (hempties b hb)
  have hstop : ∀ b, empties.head? = some b → (!dedTimeLe noInterval b) = false := by
    intro b hb
    simp [dedTimeLe_zero noInterval (hempties b (List.mem_of_head? hb))]
  obtain ⟨htake, hdrop⟩ := takeWhile_append_stop hstop others
  have hall : ∀ b ∈ others, (!dedTimeLe noInterval b) = true := by
    intro b hb
    have hnot : ¬ dedTimeLe noInterval b = true := fun h =>
      hothers b hb ((dedTimeLe_of_zero rfl).mp h)
    simpa using hnot
  rw [mergeSort_insert dedTimeLe_trans dedTimeLe_total, List.mergeSort_of_pairwise hpairwise,
    htake, hdrop, List.takeWhile_eq_self_iff.mpr hall, List.dropWhile_eq_nil_iff.mpr hall,
    List.nil_append]

/-! ## The array after some retirements -/

/-- The intervals that the sort does not take for empty entries. -/
def nonEmpty (order : List Timegap) : List Timegap :=
  order.takeWhile (fun interval => interval.start ≠ 0)

/-- The array after `p` retirements: what is left of the intervals, then empty entries. -/
structure Table (order : List Timegap) (p : ℕ) (table : List Timegap) : Prop where
  split : ∃ empties, table = (nonEmpty order).drop p ++ empties ∧ (∀ e ∈ empties, e.start = 0) ∧
    (0 < p → ∀ e, empties.head? = some e → e = noInterval)
  fresh : p = 0 → ∃ k, table = order ++ List.replicate k noInterval

variable {order table : List Timegap} {p : ℕ}

/-- In a sorted array only empty entries follow an empty one. -/
theorem sorted_split (hsorted : order.Pairwise (fun a b => dedTimeLe a b)) :
    ∃ empties, order = nonEmpty order ++ empties ∧ ∀ e ∈ empties, e.start = 0 := by
  refine ⟨order.dropWhile (fun interval => interval.start ≠ 0),
    List.takeWhile_append_dropWhile.symm, ?_⟩
  have hdrop := hsorted.sublist (List.dropWhile_sublist (fun interval => interval.start ≠ 0))
  cases hrest : order.dropWhile (fun interval => interval.start ≠ 0) with
  | nil => simp
  | cons first rest =>
      rw [hrest] at hdrop
      have hfirst : first.start = 0 := by
        have hnot := List.head?_dropWhile_not (fun interval : Timegap => interval.start ≠ 0) order
        rw [hrest] at hnot
        simpa using hnot
      intro e he
      rcases List.mem_cons.mp he with rfl | he
      · exact hfirst
      · exact (dedTimeLe_of_zero hfirst).mp ((List.pairwise_cons.mp hdrop).1 e he)

/-- The array as it is parsed. -/
theorem table_start (hsorted : order.Pairwise (fun a b => dedTimeLe a b)) (k : ℕ) :
    Table order 0 (order ++ List.replicate k noInterval) := by
  refine ⟨?_, fun _ => ⟨k, rfl⟩⟩
  obtain ⟨empties, hsplit, hempties⟩ := sorted_split hsorted
  refine ⟨empties ++ List.replicate k noInterval, ?_, ?_, ?_⟩
  · rw [List.drop_zero, ← List.append_assoc, ← hsplit]
  · intro e he
    rcases List.mem_append.mp he with he | he
    · exact hempties e he
    · rw [List.eq_of_mem_replicate he]
      rfl
  · intro h
    omega

/-- Retiring the first entry. -/
theorem Table.retire (hsorted : order.Pairwise (fun a b => dedTimeLe a b))
    (h : Table order p table) :
    Table order (p + 1) ((table.set 0 noInterval).mergeSort dedTimeLe) := by
  obtain ⟨empties, htable, hempties, -⟩ := h.split
  refine ⟨?_, fun hp => absurd hp (Nat.succ_ne_zero p)⟩
  have hnonEmpty : ∀ a ∈ nonEmpty order, a.start ≠ 0 := by
    intro a ha
    simpa using List.mem_takeWhile_imp ha
  cases hrest : (nonEmpty order).drop p with
  | nil =>
      rw [hrest, List.nil_append] at htable
      have hdrop : (nonEmpty order).drop (p + 1) = [] := by
        rw [← List.drop_drop, hrest]
        rfl
      rw [hdrop, htable]
      cases empties with
      | nil => exact ⟨[], by simp, by simp, by simp⟩
      | cons e empties =>
          -- all entries are empty: the array is sorted already
          have hsort : (noInterval :: ([] ++ empties)).mergeSort dedTimeLe =
              [] ++ noInterval :: empties :=
            mergeSort_retired List.Pairwise.nil (by simp)
              (fun a ha => hempties a (List.mem_cons_of_mem _ ha))
          refine ⟨noInterval :: empties, ?_, ?_, ?_⟩
          · simpa using hsort
          · intro a ha
            rcases List.mem_cons.mp ha with rfl | ha
            · rfl
            · exact hempties a (List.mem_cons_of_mem _ ha)
          · intro _ a ha
            exact (Option.some.inj ha).symm
  | cons first others =>
      have hdrop : (nonEmpty order).drop (p + 1) = others := by
        rw [← List.drop_drop, hrest]
        rfl
      have hsub : others.Sublist (nonEmpty order) := by
        rw [← hdrop]
        exact List.drop_sublist _ _
      have hpairwise : others.Pairwise (fun a b => dedTimeLe a b) :=
        hsorted.sublist (hsub.trans (List.takeWhile_sublist _))
      have hsort := mergeSort_retired hpairwise (fun a ha => hnonEmpty a (hsub.subset ha)) hempties
      rw [hrest] at htable
      rw [hdrop, htable]
      refine ⟨noInterval :: empties, hsort, ?_, ?_⟩
      · intro a ha
        rcases List.mem_cons.mp ha with rfl | ha
        · rfl
        · exact hempties a ha
      · intro _ a ha
        exact (Option.some.inj ha).symm

/-- The first entry is the one that is due. -/
theorem Table.head (hsorted : order.Pairwise (fun a b => dedTimeLe a b))
    (h : Table order p table) : table.head?.getD noInterval = due order p := by
  obtain ⟨empties, htable, hempties, hfirst⟩ := h.split
  obtain ⟨rest, horder, hrest⟩ := sorted_split hsorted
  by_cases hp : p < (nonEmpty order).length
  · -- an interval is left
    have hget : order[p]? = some (nonEmpty order)[p] := by
      conv_lhs => rw [horder]
      rw [List.getElem?_append_left hp, List.getElem?_eq_getElem hp]
    have hstart : (nonEmpty order)[p].start ≠ 0 := by
      simpa using List.mem_takeWhile_imp (List.getElem_mem hp)
    rw [htable, List.drop_eq_getElem_cons hp, due, hget]
    show (nonEmpty order)[p] = if (nonEmpty order)[p].start ≠ 0 ∨ p = 0 then _ else _
    rw [if_pos (Or.inl hstart)]
  · have hnil : (nonEmpty order).drop p = [] := List.drop_eq_nil_of_le (by omega)
    rcases Nat.eq_zero_or_pos p with rfl | hpos
    · -- nothing but empty entries from the beginning
      obtain ⟨k, hk⟩ := h.fresh rfl
      rw [hk, due]
      cases order with
      | nil =>
          cases k with
          | zero => rfl
          | succ k => rfl
      | cons first order => simp
    · rw [hnil, List.nil_append] at htable
      have hdue : due order p = noInterval := by
        unfold due
        split
        · rename_i interval hget
          have hin : interval ∈ rest := by
            rw [horder, List.getElem?_append_right (by omega)] at hget
            exact List.mem_of_getElem? hget
          rw [if_neg]
          rw [not_or, not_not]
          exact ⟨hrest interval hin, by omega⟩
        · rfl
      rw [hdue, htable]
      cases hhead : empties.head? with
      | none => rfl
      | some e => exact hfirst hpos e hhead

/-- The mark is read off the first entry. -/
theorem isDedTime_iff (table : List Timegap) (t : ℤ) :
    isDedTime table t = true ↔ (table.head?.getD noInterval).Inside t := by
  cases table with
  | nil =>
      simp only [isDedTime, List.head?_nil, Option.getD_none, Timegap.Inside, noInterval]
      constructor
      · intro h
        cases h
      · intro h
        omega
  | cons first rest => simp [isDedTime, Timegap.Inside]

/-! ## Parsing -/

/-- A line with two dates is read as its interval. -/
theorem parseDedLine_eq (clock : Clock) (now : ℤ) (st : List Timegap × ℕ) (line : List Char) :
    parseDedLine clock now st line =
      match readDedLine line with
      | none => .ok st
      | some dates =>
          if (writtenInterval clock dates).Passed now then .ok st
          else if st.2 < st.1.length then
            .ok (st.1.set st.2 (writtenInterval clock dates), st.2 + 1)
          else .error .badIndex := by
  unfold parseDedLine readDedLine
  by_cases hskip : skipLine line = true
  · rw [if_pos hskip, if_pos hskip]
  · rw [if_neg hskip, if_neg hskip]
    split
    · rename_i hscan
      rw [hscan]
    · rename_i hscan
      rw [hscan]
      rfl

/-- The array with the first intervals filled in. -/
def filled (intervals : List Timegap) : List Timegap :=
  intervals ++ List.replicate (50 - intervals.length) noInterval

/-- The lines fill the array from the front, as long as there is room. -/
theorem parseDedLines_eq (clock : Clock) (now : ℤ) (lines : List (List Char)) :
    ∀ intervals : List Timegap,
      intervals.length + (lines.filterMap readDedLine).length ≤ 50 →
      lines.foldlM (parseDedLine clock now) (filled intervals, intervals.length) =
        .ok (filled (intervals ++ ((lines.filterMap readDedLine).map (writtenInterval clock)).filter
            (fun interval => ¬ interval.Passed now)),
          (intervals ++ ((lines.filterMap readDedLine).map (writtenInterval clock)).filter
            (fun interval => ¬ interval.Passed now)).length) := by
  induction lines with
  | nil =>
      intro intervals _
      simp
      rfl
  | cons line lines ih =>
      intro intervals hroom
      rw [List.foldlM_cons, parseDedLine_eq]
      cases hread : readDedLine line with
      | none =>
          rw [List.filterMap_cons_none hread] at hroom ⊢
          exact ih intervals hroom
      | some dates =>
          rw [List.filterMap_cons_some hread] at hroom ⊢
          rw [List.length_cons] at hroom
          -- the cell of an interval that has passed is written again by the next line
          by_cases hpassed : (writtenInterval clock dates).Passed now
          · simp only [hpassed, if_true, List.map_cons, List.filter_cons, not_true_eq_false,
              decide_false, Bool.false_eq_true, if_false]
            exact ih intervals (by omega)
          · have hlt : intervals.length < (filled intervals).length := by
              rw [filled, List.length_append, List.length_replicate]
              omega
            have hset : (filled intervals).set intervals.length (writtenInterval clock dates) =
                filled (intervals ++ [writtenInterval clock dates]) := by
              have hsucc : 50 - intervals.length = (50 - (intervals.length + 1)) + 1 := by omega
              rw [filled, filled, List.set_append_right _ _ (Nat.le_refl _), Nat.sub_self, hsucc,
                List.replicate_succ, List.set_cons_zero, List.length_append,
                List.length_singleton, List.append_assoc]
              rfl
            have hlength : intervals.length + 1 =
                (intervals ++ [writtenInterval clock dates]).length := by simp
            simp only [hpassed, if_false, if_pos hlt, List.map_cons, List.filter_cons,
              not_false_eq_true, decide_true, if_true, hset, hlength]
            have hnext := ih (intervals ++ [writtenInterval clock dates])
              (by rw [← hlength]; omega)
            rw [List.append_assoc] at hnext
            exact hnext

/-- **Parsing**: the kept intervals in the order of their starts, then empty entries. -/
theorem parseDedFile_eq (clock : Clock) (now : ℤ) {text : List Char}
    (hsize : (dedLines text).length ≤ 50) :
    parseDedFile clock now (some text) Tables.zero.dedTime =
      .ok (startOrder clock now text ++
        List.replicate (50 - (keptIntervals clock now text).length) noInterval) := by
  have hlines := parseDedLines_eq clock now (fgetsLines text []) []
    (by simpa [dedLines] using hsize)
  have hzero : (Tables.zero.dedTime, 0) = (filled [], ([] : List Timegap).length) := rfl
  rw [parseDedFile, hzero, hlines]
  show Except.ok ((filled (keptIntervals clock now text)).mergeSort dedTimeLe) = _
  rw [filled, mergeSort_append_empty]
  rfl

/-- The kept intervals are sorted. -/
theorem startOrder_sorted (clock : Clock) (now : ℤ) (text : List Char) :
    (startOrder clock now text).Pairwise (fun a b => dedTimeLe a b) :=
  List.pairwise_mergeSort dedTimeLe_trans dedTimeLe_total _

/-- Loading a day keeps whatever does not look at the tables of days. -/
theorem loadDay_keeps {β : Type} (f : Tables → β)
    (hf : ∀ tables day table, f (Tables.setDay tables day table) = f tables) (tables : Tables)
    (day : Day) (rest : List Char) : f (loadDay tables day rest) = f tables := by
  unfold loadDay
  simp only
  split
  · rfl
  · split
    · rw [hf]
    · rw [hf, hf]

/-- So does loading a day if a condition holds. -/
theorem loadDay_if_keeps {β : Type} (f : Tables → β)
    (hf : ∀ tables day table, f (Tables.setDay tables day table) = f tables) (tables : Tables)
    (day : Day) (rest : List Char) (p : Prop) [Decidable p] :
    f (if p then loadDay tables day rest else tables) = f tables := by
  split
  · exact loadDay_keeps f hf tables day rest
  · rfl

/-- The table of a day holds no dedicated times. -/
theorem setDay_dedTime (tables : Tables) (day : Day) (table : DayTable) :
    (tables.setDay day table).dedTime = tables.dedTime := by
  cases day <;> rfl

/-- Loading a day does not touch the dedicated times. -/
theorem loadDay_dedTime (tables : Tables) (day : Day) (rest : List Char) :
    (loadDay tables day rest).dedTime = tables.dedTime :=
  loadDay_keeps Tables.dedTime setDay_dedTime tables day rest

/-- A line of the holidays file does not touch the dedicated times. -/
theorem parseHolidayLine_dedTime {st st' : Tables × ℕ} {line : List Char}
    (h : parseHolidayLine st line = .ok st') : st'.1.dedTime = st.1.dedTime := by
  unfold parseHolidayLine at h
  simp only at h
  split at h
  · cases h
    rfl
  · split at h
    · cases h
      rfl
    · rename_i name rest _
      -- a number of four digits loads a day first
      generalize htables : (if name.length = 4 ∧ name.all Char.isDigit then
        loadDay st.1 .weekday rest else st.1) = tables at h
      have hded : tables.dedTime = st.1.dedTime := by
        rw [← htables]
        exact loadDay_if_keeps Tables.dedTime setDay_dedTime ..
      rw [← hded]
      split at h
      · cases h
        rfl
      · split at h
        · cases h
          rfl
        · split at h
          · cases h
            rfl
          · cases h
            rfl
      · cases h
        exact loadDay_dedTime ..
      · cases h
        exact loadDay_dedTime ..
      · cases h
        exact loadDay_dedTime ..
      · split at h
        · cases h
          rfl
        · cases h

/-- The holidays file does not touch the dedicated times. -/
theorem parseHolidays_dedTime {file : Option (List Char)} {tables tables' : Tables}
    (h : parseHolidays file tables = .ok tables') : tables'.dedTime = tables.dedTime := by
  cases file with
  | none =>
      cases h
      rfl
  | some text =>
      obtain ⟨⟨tables₁, holIndex⟩, hlines, h⟩ := bind_ok.mp h
      cases h
      refine foldlM_invariant (fun st => st.1.dedTime = tables.dedTime) parseHolidayLine _
        (tables, 0) (tables₁, holIndex) ?_ rfl hlines
      intro st line st' _ hst hline
      rw [parseHolidayLine_dedTime hline, hst]

/-- What `schedinit` leaves of the dedicated times. -/
theorem schedinit_dedTime {clock : Clock} {files : Files} {now : ℤ} {st : Globals}
    {text : List Char} (hfile : files.dedTime = some text) (hsize : (dedLines text).length ≤ 50)
    (h : schedinit clock files now = .ok st) :
    st.cstat.isDedTime = false ∧ Table (startOrder clock now text) 0 st.conf.tables.dedTime := by
  unfold schedinit loadConfig at h
  simp only [initConfig_eq, bind_assoc, pure_bind] at h
  obtain ⟨settings, -, h⟩ := bind_ok.mp h
  obtain ⟨tables, htables, h⟩ := bind_ok.mp h
  obtain ⟨dedTime, hded, h⟩ := bind_ok.mp h
  have hst := pure_ok.mp h
  subst hst
  have hzero : tables.dedTime = Tables.zero.dedTime := parseHolidays_dedTime htables
  simp only [hfile, hzero, parseDedFile_eq clock now hsize, Except.ok.injEq] at hded
  refine ⟨rfl, ?_⟩
  show Table _ 0 dedTime
  rw [← hded]
  exact table_start (startOrder_sorted clock now text) _

/-! ## The cycles -/

/-- The cycles at these times, one `update_cycle_status` each. -/
def cycles (clock : Clock) (st : Globals) (times : List ℤ) : Globals :=
  times.foldl (fun st now => updateCycleStatus clock now st) st

/-- One more cycle. -/
theorem cycles_snoc (clock : Clock) (st : Globals) (times : List ℤ) (t : ℤ) :
    cycles clock st (times ++ [t]) = updateCycleStatus clock t (cycles clock st times) := by
  rw [cycles, List.foldl_append]
  rfl

/-- The array after a cycle: the first entry is retired when its dedicated time has ended. -/
theorem updateCycleStatus_dedTime (clock : Clock) (now : ℤ) (st : Globals) :
    (updateCycleStatus clock now st).conf.tables.dedTime =
      if st.cstat.isDedTime && !isDedTime st.conf.tables.dedTime now then
        (st.conf.tables.dedTime.set 0 noInterval).mergeSort dedTimeLe
      else st.conf.tables.dedTime := by
  rfl

/-- One more cycle can end a dedicated time. -/
theorem endings_snoc (intervals : List Timegap) (times : List ℤ) (t t' : ℤ) :
    endings intervals (times ++ [t, t']) =
      endings intervals (times ++ [t]) +
        if InSome intervals t ∧ ¬ InSome intervals t' then 1 else 0 := by
  induction times with
  | nil => simp [endings]
  | cons s times ih =>
      cases times with
      | nil =>
          simp only [List.cons_append, List.nil_append, endings]
          omega
      | cons s' times =>
          simp only [List.cons_append, endings] at ih ⊢
          omega

section Cycles

variable {clock : Clock} {st : Globals} {intervals order : List Timegap}

/-- As long as the mark was right, the number of retirements is the number of ended times. -/
theorem table_of_recognised (hsorted : order.Pairwise (fun a b => dedTimeLe a b))
    (hstart : Table order 0 st.conf.tables.dedTime) (hmark : st.cstat.isDedTime = false)
    (times : List ℤ) :
    (∀ done t rest, times = done ++ t :: rest →
      ((cycles clock st (done ++ [t])).cstat.isDedTime = true ↔ InSome intervals t)) →
    Table order (endings intervals times) (cycles clock st times).conf.tables.dedTime := by
  induction times using List.reverseRecOn with
  | nil =>
      intro _
      exact hstart
  | append_singleton times t ih =>
      intro hright
      have htable := ih (by
        intro done s rest hsplit
        exact hright done s (rest ++ [t]) (by rw [hsplit]; simp))
      have hnow := hright times t [] rfl
      rw [cycles_snoc, updateCycleStatus_isDedTime] at hnow
      rw [cycles_snoc, updateCycleStatus_dedTime]
      rcases List.eq_nil_or_concat' times with rfl | ⟨before, s, rfl⟩
      · -- the first cycle ends nothing
        rw [show (cycles clock st []).cstat.isDedTime = false from hmark]
        exact hstart
      · have hlast := hright before s [t] (by simp)
        rw [List.append_assoc, show [s] ++ [t] = [s, t] from rfl, endings_snoc]
        by_cases hends : InSome intervals s ∧ ¬ InSome intervals t
        · have hdown : isDedTime (cycles clock st (before ++ [s])).conf.tables.dedTime t
              = false := by
            rw [← Bool.not_eq_true, hnow]
            exact hends.2
          rw [if_pos hends, hlast.mpr hends.1, hdown]
          exact htable.retire hsorted
        · rw [if_neg hends, Nat.add_zero, if_neg]
          · exact htable
          · rw [Bool.and_eq_true, Bool.not_eq_true', hlast]
            intro hcontra
            apply hends
            refine ⟨hcontra.1, ?_⟩
            rw [← hnow, hcontra.2]
            exact Bool.false_ne_true

/-- The mark of a cycle, as long as the marks before it were right. -/
theorem mark_of_recognised (hsorted : order.Pairwise (fun a b => dedTimeLe a b))
    (hstart : Table order 0 st.conf.tables.dedTime) (hmark : st.cstat.isDedTime = false)
    (times : List ℤ) (t : ℤ)
    (hright : ∀ done s rest, times = done ++ s :: rest →
      ((cycles clock st (done ++ [s])).cstat.isDedTime = true ↔ InSome intervals s)) :
    (cycles clock st (times ++ [t])).cstat.isDedTime = true ↔
      (due order (endings intervals times)).Inside t := by
  have htable := table_of_recognised hsorted hstart hmark times hright
  rw [cycles_snoc, updateCycleStatus_isDedTime, isDedTime_iff, htable.head hsorted]

/-- **The mark is right in every cycle exactly if the entry that is due always decides.** -/
theorem recognised_iff (hsorted : order.Pairwise (fun a b => dedTimeLe a b))
    (hstart : Table order 0 st.conf.tables.dedTime) (hmark : st.cstat.isDedTime = false)
    (times : List ℤ) :
    (∀ done t rest, times = done ++ t :: rest →
      ((cycles clock st (done ++ [t])).cstat.isDedTime = true ↔ InSome intervals t)) ↔
    ∀ done t rest, times = done ++ t :: rest →
      (InSome intervals t ↔ (due order (endings intervals done)).Inside t) := by
  constructor
  · intro hright done t rest hsplit
    rw [← hright done t rest hsplit]
    apply mark_of_recognised hsorted hstart hmark
    intro front s back hfront
    exact hright front s (back ++ t :: rest) (by rw [hsplit, hfront]; simp)
  · intro hdue done
    -- by induction on the number of cycles before
    induction hn : done.length using Nat.strong_induction_on generalizing done with
    | _ n ih =>
        intro t rest hsplit
        rw [hdue done t rest hsplit]
        apply mark_of_recognised hsorted hstart hmark
        intro front s back hfront
        apply ih front.length _ front rfl s (back ++ t :: rest)
        · rw [hsplit, hfront]
          simp
        · rw [← hn, hfront, List.length_append, List.length_cons]
          omega

end Cycles

/-- **When dedicated time is recognised**: for every file with room in the array and every
sequence of cycles, the mark is right in every cycle exactly if in every cycle the interval that
is due decides whether the time is in an interval of the file. -/
theorem dedTime_recognised_iff {clock : Clock} {files : Files} {now : ℤ} {st : Globals}
    {text : List Char} (hfile : files.dedTime = some text) (hsize : (dedLines text).length ≤ 50)
    (hinit : schedinit clock files now = .ok st) (times : List ℤ) :
    (∀ done t rest, times = done ++ t :: rest →
      ((cycles clock st (done ++ [t])).cstat.isDedTime = true ↔
        InSome (fileIntervals clock text) t)) ↔
    ∀ done t rest, times = done ++ t :: rest →
      (InSome (fileIntervals clock text) t ↔
        (due (startOrder clock now text)
          (endings (fileIntervals clock text) done)).Inside t) := by
  obtain ⟨hmark, htable⟩ := schedinit_dedTime hfile hsize hinit
  exact recognised_iff (startOrder_sorted clock now text) htable hmark times

/-- With end years the code reads in full, a time in the interval that is due is in one of the
file: then only the times the code misses remain. -/
theorem due_inside_file {clock : Clock} {now : ℤ} {text : List Char}
    (hyears : ∀ dates ∈ dedLines text, 90 ≤ dates.2.year) {p : ℕ} {t : ℤ}
    (h : (due (startOrder clock now text) p).Inside t) : InSome (fileIntervals clock text) t := by
  unfold due at h
  split at h
  · rename_i interval hget
    split at h
    · have hkept : interval ∈ keptIntervals clock now text := by
        have hmem := List.mem_of_getElem? hget
        exact (List.mergeSort_perm _ _).mem_iff.mp hmem
      obtain ⟨dates, hdates, rfl⟩ := List.mem_map.mp (List.mem_filter.mp hkept).1
      have hyear : ¬ dates.2.year < 90 := by
        have := hyears dates hdates
        omega
      have hfull : fullYear dates.2 = fourDigitYear dates.2 := by
        simp only [fullYear, fourDigitYear, if_neg hyear]
      refine ⟨⟨clock.mktime (fullYear dates.1), clock.mktime (fullYear dates.2)⟩,
        List.mem_map_of_mem hdates, ?_⟩
      rw [hfull]
      exact h
    · exact absurd h (by simp only [Timegap.Inside, noInterval]; omega)
  · exact absurd h (by simp only [Timegap.Inside, noInterval]; omega)

/-! ## Two files -/

/-- Days since the epoch of a date of the civil calendar; the month counts from 0. -/
def daysFromCivil (year mon mday : ℤ) : ℤ :=
  let year := year + mon / 12
  let mon := mon % 12 + 1
  let year := if mon ≤ 2 then year - 1 else year
  let doy := (153 * (if mon > 2 then mon - 3 else mon + 9) + 2) / 5 + mday - 1
  year * 365 + year / 4 - year / 100 + year / 400 + doy - 719468

/-- The year of a day since the epoch. -/
def civilYear (days : ℤ) : ℤ :=
  let z := days + 719468
  let doe := z % 146097
  let yoe := (doe - doe / 1460 + doe / 36524 - doe / 146096) / 365
  let doy := doe - (365 * yoe + yoe / 4 - yoe / 100)
  yoe + z / 146097 * 400 + if (5 * doy + 2) / 153 < 10 then 0 else 1

/-- The clock of a machine in UTC. -/
def utcClock : Clock where
  localtime t :=
    let days := t / 86400
    { year := civilYear days - 1900
      yday := days - daysFromCivil (civilYear days) 0 1
      wday := (days + 4) % 7
      hour := t % 86400 / 3600
      min := t % 3600 / 60 }
  mktime date :=
    (daysFromCivil (date.year + 1900) date.mon date.mday * 24 + date.hour) * 3600 + date.min * 60

/-- Only a file of dedicated times. -/
def onlyDedTime (text : String) : Files where
  config := none
  mtime := 0
  holidays := none
  dedTime := some text.toList

/-- With that file alone the scheduler starts. -/
theorem schedinit_onlyDedTime (clock : Clock) {text : String} (now : ℤ)
    (hsize : (dedLines text.toList).length ≤ 50) :
    ∃ st, schedinit clock (onlyDedTime text) now = .ok st := by
  unfold schedinit loadConfig
  simp only [initConfig_eq, onlyDedTime]
  rw [show parseConfig none Settings.init = .ok Settings.init from rfl]
  simp only [bind, Except.bind, pure, Except.pure, parseHolidays]
  rw [parseDedFile_eq clock now hsize]
  exact ⟨_, rfl⟩

/-- One dedicated time. -/
def oneDedTime : String := "05/01/2012 08:00 05/01/2012 10:00\n"

/-- Cycles before, in and after the one dedicated time: the mark is right in all of them. -/
theorem dedTime_recognised_iff_one :
    ∃ st, schedinit utcClock (onlyDedTime oneDedTime) 1335855600 = .ok st ∧
      ∀ done t rest, [1335855600, 1335862800, 1335870000] = done ++ t :: rest →
        ((cycles utcClock st (done ++ [t])).cstat.isDedTime = true ↔
          InSome (fileIntervals utcClock oneDedTime.toList) t) := by
  have hsize : (dedLines oneDedTime.toList).length ≤ 50 := by decide +kernel
  have hkept : keptIntervals utcClock 1335855600 oneDedTime.toList =
      [⟨1335859200, 1335866400⟩] := by decide +kernel
  have hfile : fileIntervals utcClock oneDedTime.toList = [⟨1335859200, 1335866400⟩] := by
    decide +kernel
  obtain ⟨st, hst⟩ := schedinit_onlyDedTime utcClock 1335855600 hsize
  refine ⟨st, hst, (dedTime_recognised_iff rfl hsize hst _).mpr ?_⟩
  rw [startOrder, hkept, List.mergeSort_singleton, hfile]
  intro done t rest hsplit
  match done with
  | [] =>
      cases hsplit
      decide
  | [_] =>
      cases hsplit
      decide
  | [_, _] =>
      cases hsplit
      decide
  | _ :: _ :: _ :: _ => simp at hsplit

/-- Two dedicated times. -/
def twoDedTimes : String :=
  "05/01/2012 08:00 05/01/2012 10:00\n05/02/2012 08:00 05/02/2012 10:00\n"

/-- No cycle falls into the first dedicated time, so it is never retired: in the second one the
mark is still looked up there, and it is not set. -/
theorem second_dedTime_missed :
    ∃ st, schedinit utcClock (onlyDedTime twoDedTimes) 1335855600 = .ok st ∧
      InSome (fileIntervals utcClock twoDedTimes.toList) 1335949200 ∧
      (cycles utcClock st [1335855600, 1335949200]).cstat.isDedTime = false := by
  have hsize : (dedLines twoDedTimes.toList).length ≤ 50 := by decide +kernel
  have hkept : keptIntervals utcClock 1335855600 twoDedTimes.toList =
      [⟨1335859200, 1335866400⟩, ⟨1335945600, 1335952800⟩] := by decide +kernel
  have hfile : fileIntervals utcClock twoDedTimes.toList =
      [⟨1335859200, 1335866400⟩, ⟨1335945600, 1335952800⟩] := by decide +kernel
  have horder : startOrder utcClock 1335855600 twoDedTimes.toList =
      [⟨1335859200, 1335866400⟩, ⟨1335945600, 1335952800⟩] := by
    rw [startOrder, hkept]
    exact List.mergeSort_of_pairwise (by decide)
  obtain ⟨st, hst⟩ := schedinit_onlyDedTime utcClock 1335855600 hsize
  obtain ⟨hmark, htable⟩ := schedinit_dedTime rfl hsize hst
  have hsorted := startOrder_sorted utcClock 1335855600 twoDedTimes.toList
  rw [horder] at htable hsorted
  refine ⟨st, hst, by rw [hfile]; decide, ?_⟩
  have hnone : ∀ done t rest, ([] : List ℤ) = done ++ t :: rest →
      ((cycles utcClock st (done ++ [t])).cstat.isDedTime = true ↔
        InSome (fileIntervals utcClock twoDedTimes.toList) t) := by simp
  -- the first cycle is outside every interval and marked so
  have hfirst : ∀ done t rest, [1335855600] = done ++ t :: rest →
      ((cycles utcClock st (done ++ [t])).cstat.isDedTime = true ↔
        InSome (fileIntervals utcClock twoDedTimes.toList) t) := by
    intro done t rest hsplit
    match done with
    | [] =>
        cases hsplit
        rw [mark_of_recognised hsorted htable hmark [] 1335855600 hnone, hfile]
        decide
    | _ :: _ => simp at hsplit
  have hsecond := mark_of_recognised hsorted htable hmark [1335855600] 1335949200 hfirst
  rw [← Bool.not_eq_true]
  show ¬ (cycles utcClock st ([1335855600] ++ [1335949200])).cstat.isDedTime = true
  rw [hsecond]
  decide

end PlanSched
