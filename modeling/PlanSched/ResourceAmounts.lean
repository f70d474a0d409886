/-
# Sizes and times of resources

`res_to_num` (`base/MiscHelpers.cpp`) turns the text of a resource into a number: a size into
kilobytes, a time into seconds.  The letter behind the number selects a multiplier, a second
letter `w` makes words of eight bytes of it.  A number of bytes or of bare words is divided by
1024 first, and the words are multiplied by eight behind that: what was cut off is lost.

`resToNumLong` computes in `long long` and has no result where the arithmetic overflows;
`resToNum`, which the readers of the configuration use, is the same function without overflow
(`resToNum_of_long`).

* `AmountText`: the sizes and times as they are written, with the number they stand for;
* `resToNumLong_size`, `resToNumLong_hours`, `resToNumLong_minutes`: what each form gives;
* `res_to_num_iff`: the number is right exactly if it is no number of bare words whose rest
  modulo 1024 is 128 or more.
-/
import PlanSched.Configuration

namespace PlanSched

open CText

/-! ## The function -/

/-- A result of `long long` arithmetic; there is none if it does not fit. -/
def longLong (v : ℤ) : Option ℤ := if -(2 ^ 63) ≤ v ∧ v < 2 ^ 63 then some v else none

/-- The count and the multiplier that the character behind the number selects.  The division by
`KILO` is one of `unsigned long`s. -/
def sizeMultiplier (count : ℤ) (endp : Option Char) : ℤ × ℤ :=
  if endp = some 'k' ∨ endp = some 'K' then (count, 1)
  else if endp = some 'm' ∨ endp = some 'M' then (count, 1024)
  else if endp = some 'g' ∨ endp = some 'G' then (count, 1048576)
  else if endp = some 't' ∨ endp = some 'T' then (count, 1073741824)
  else if endp = some 'b' ∨ endp = some 'B' then (count % 2 ^ 64 / 1024, 1)
  else if endp = some 'w' then (count % 2 ^ 64 / 1024, 8)
  else (count, 1)

/-- The branches of `res_to_num` on the text behind the number: the count, `endp` and the
multiplier they leave. -/
def countAndMultiplier (count : ℤ) (endp : List Char) : Option (ℤ × List Char × ℤ) :=
  if endp.head? = some ':' then do
    let (count2, endp2) := strtol endp.tail
    if endp2.head? = some ':' then do
      -- form of HH:MM:SS; what stands behind the seconds makes it unspecified
      let count ← longLong (count * 3600)
      let minutes ← longLong (count2 * 60)
      let count ← longLong (count + minutes)
      let (seconds, endp) := strtol endp2.tail
      let count ← longLong (count + seconds)
      return (if endp ≠ [] then -1 else count, endp, 1)
    else do
      -- form of MM:SS; `endp` stays at the colon
      let count ← longLong (count * 60)
      let count ← longLong (count + count2)
      return (count, endp, 1)
  else
    let (count, multiplier) := sizeMultiplier count endp.head?
    some (count, endp, multiplier)

/-- `res_to_num`; `none` if the arithmetic overflows. -/
def resToNumLong (resStr : List Char) : Option ℤ := do
  let (count, endp) := strtol resStr
  let (count, endp, multiplier) ← countAndMultiplier count endp
  let multiplier :=
    if endp ≠ [] ∧ endp.tail.head? = some 'w' then multiplier * 8 else multiplier
  longLong (count * multiplier)

/-! ## Sizes and times as they are written -/

/-- A non-negative decimal number. -/
structure Numeral : Type where
  digits : List Char
  ne_nil : digits ≠ []
  isDigit : ∀ c ∈ digits, c.isDigit = true

/-- The number it stands for. -/
def Numeral.value (n : Numeral) : ℕ := digitsValue 10 n.digits

/-- The letters that scale bytes and words. -/
inductive SizeScale : Type where
  | kilo
  | mega
  | giga
  | tera
  deriving DecidableEq, Repr

/-- The letter, in either case. -/
def SizeScale.letter : SizeScale → Bool → Char
  | .kilo, upper => if upper then 'K' else 'k'
  | .mega, upper => if upper then 'M' else 'm'
  | .giga, upper => if upper then 'G' else 'g'
  | .tera, upper => if upper then 'T' else 't'

/-- How many thousands (of 1024) it stands for. -/
def SizeScale.kilos : SizeScale → ℕ
  | .kilo => 1
  | .mega => 1024
  | .giga => 1024 ^ 2
  | .tera => 1024 ^ 3

/-- The suffix of a size: `b`, `k` and `kb` and so on in either case, `w`, or `kw` and so on. -/
inductive SizeSuffix : Type where
  | bytes (upper : Bool)
  | scaled (scale : SizeScale) (upper : Bool)
  | scaledBytes (scale : SizeScale) (upper upperByte : Bool)
  | words
  | scaledWords (scale : SizeScale)
  deriving DecidableEq, Repr

/-- The suffix as it is written. -/
def SizeSuffix.text : SizeSuffix → List Char
  | .bytes upper => [if upper then 'B' else 'b']
  | .scaled scale upper => [scale.letter upper]
  | .scaledBytes scale upper upperByte => [scale.letter upper, if upperByte then 'B' else 'b']
  | .words => ['w']
  | .scaledWords scale => [scale.letter false, 'w']

/-- The bytes of one unit. -/
def SizeSuffix.unit : SizeSuffix → ℕ
  | .bytes _ => 1
  | .scaled scale _ => scale.kilos * 1024
  | .scaledBytes scale _ _ => scale.kilos * 1024
  | .words => 8
  | .scaledWords scale => scale.kilos * 1024 * 8

/-- A size with a suffix, or a time `HH:MM:SS` or `MM:SS`. -/
inductive AmountText : Type where
  | size (n : Numeral) (suffix : SizeSuffix)
  | hours (h m s : Numeral)
  | minutes (m s : Numeral)

/-- The amount as it is written. -/
def AmountText.text : AmountText → List Char
  | .size n suffix => n.digits ++ suffix.text
  | .hours h m s => h.digits ++ ':' :: (m.digits ++ ':' :: s.digits)
  | .minutes m s => m.digits ++ ':' :: s.digits

/-- The whole kilobytes of a size, the seconds of a time. -/
def AmountText.exact : AmountText → ℕ
  | .size n suffix => n.value * suffix.unit / 1024
  | .hours h m s => h.value * 3600 + m.value * 60 + s.value
  | .minutes m s => m.value * 60 + s.value

/-- A number of bytes or bare words that a `long` can hold; of words, the ones beyond the last
multiple of 1024 are not a kilobyte. -/
def AmountText.Converts : AmountText → Prop
  | .size n (.bytes _) => n.value < 2 ^ 63
  | .size n .words => n.value < 2 ^ 63 ∧ n.value % 1024 < 128
  | _ => True

/-! ## Arithmetic that fits -/

/-- What fits is the result. -/
theorem longLong_of_fits {v : ℤ} (hlow : -(2 ^ 63) ≤ v) (hhigh : v < 2 ^ 63) :
    longLong v = some v := if_pos ⟨hlow, hhigh⟩

/-- A result is the value itself. -/
theorem longLong_eq_some {v w : ℤ} (h : longLong v = some w) : v = w := by
  unfold longLong at h
  split at h
  · exact Option.some.inj h
  · cases h

/-- `strtol` reads a numeral up to what is no digit. -/
theorem strtol_numeral (n : Numeral) (rest : List Char)
    (hrest : ∀ c ∈ rest.head?, c.isDigit = false) :
    strtol (n.digits ++ rest) = (clampLong n.value, rest) :=
  strtol_digits n.ne_nil n.isDigit hrest

/-- At the end of the text as well. -/
theorem strtol_numeral_end (n : Numeral) : strtol n.digits = (clampLong n.value, []) := by
  have h := strtol_numeral n [] (fun c hc => nomatch hc)
  rwa [List.append_nil] at h

/-! ## What each form gives -/

/-- What `res_to_num` makes of a count with the suffix. -/
def SizeSuffix.counted (count : ℤ) : SizeSuffix → ℤ
  | .bytes _ => count % 2 ^ 64 / 1024
  | .scaled scale _ => count * scale.kilos
  | .scaledBytes scale _ _ => count * scale.kilos
  | .words => count % 2 ^ 64 / 1024 * 8
  | .scaledWords scale => count * (scale.kilos * 8)

/-- No suffix begins with a digit. -/
theorem SizeSuffix.head_text (suffix : SizeSuffix) :
    ∀ c ∈ suffix.text.head?, c.isDigit = false := by
  have hletter : ∀ scale upper, (SizeScale.letter scale upper).isDigit = false := by
    intro scale upper
    cases scale <;> cases upper <;> rfl
  intro c hc
  cases suffix with
  | bytes upper =>
      cases hc
      cases upper <;> rfl
  | scaled scale upper =>
      cases hc
      exact hletter scale upper
  | scaledBytes scale upper upperByte =>
      cases hc
      exact hletter scale upper
  | words =>
      cases hc
      rfl
  | scaledWords scale =>
      cases hc
      exact hletter scale false

/-- A suffix selects its count and its multiplier. -/
theorem SizeSuffix.select (suffix : SizeSuffix) (count : ℤ) :
    ∃ count' multiplier, countAndMultiplier count suffix.text =
        some (count', suffix.text, multiplier) ∧
      count' * (if suffix.text ≠ [] ∧ suffix.text.tail.head? = some 'w' then multiplier * 8
        else multiplier) = suffix.counted count := by
  cases suffix with
  | bytes upper =>
      refine ⟨count % 2 ^ 64 / 1024, 1, ?_, ?_⟩
      · cases upper <;> rfl
      · cases upper <;> exact mul_one _
  | scaled scale upper =>
      refine ⟨count, scale.kilos, ?_, ?_⟩
      · cases scale <;> cases upper <;> rfl
      · cases scale <;> cases upper <;> rfl
  | scaledBytes scale upper upperByte =>
      refine ⟨count, scale.kilos, ?_, ?_⟩
      · cases scale <;> cases upper <;> rfl
      · cases scale <;> cases upper <;> cases upperByte <;> rfl
  | words => exact ⟨count % 2 ^ 64 / 1024, 8, rfl, rfl⟩
  | scaledWords scale =>
      refine ⟨count, scale.kilos, ?_, ?_⟩
      · cases scale <;> rfl
      · cases scale <;> rfl

/-- **What a size gives.** -/
theorem resToNumLong_size (n : Numeral) (suffix : SizeSuffix) :
    resToNumLong (n.digits ++ suffix.text) = longLong (suffix.counted (clampLong n.value)) := by
  obtain ⟨count, multiplier, hselect, hcounted⟩ := suffix.select (clampLong n.value)
  unfold resToNumLong
  rw [strtol_numeral n _ suffix.head_text]
  dsimp only
  rw [hselect]
  exact congrArg longLong hcounted

/-- What stands behind a number in front of a colon. -/
theorem isDigit_colon (rest : List Char) : ∀ c ∈ (':' :: rest).head?, c.isDigit = false := by
  intro c hc
  cases hc
  rfl

/-- The branch for `HH:MM:SS`, if no step overflows. -/
theorem countAndMultiplier_hours (count : ℤ) (m s : Numeral)
    {hourSeconds minuteSeconds both all : ℤ}
    (hhours : longLong (count * 3600) = some hourSeconds)
    (hminutes : longLong (clampLong m.value * 60) = some minuteSeconds)
    (hboth : longLong (hourSeconds + minuteSeconds) = some both)
    (hall : longLong (both + clampLong s.value) = some all) :
    countAndMultiplier count (':' :: (m.digits ++ ':' :: s.digits)) = some (all, [], 1) := by
  unfold countAndMultiplier
  rw [if_pos List.head?_cons, List.tail_cons, strtol_numeral m _ (isDigit_colon _)]
  dsimp only
  rw [if_pos List.head?_cons, List.tail_cons, strtol_numeral_end, hhours, hminutes]
  dsimp only [Option.bind_eq_bind, Option.bind_some]
  rw [hboth]
  dsimp only [Option.bind_some]
  rw [hall]
  rfl

/-- The branch for `MM:SS`, if no step overflows. -/
theorem countAndMultiplier_minutes (count : ℤ) (s : Numeral) {minuteSeconds all : ℤ}
    (hminutes : longLong (count * 60) = some minuteSeconds)
    (hall : longLong (minuteSeconds + clampLong s.value) = some all) :
    countAndMultiplier count (':' :: s.digits) = some (all, ':' :: s.digits, 1) := by
  unfold countAndMultiplier
  rw [if_pos List.head?_cons, List.tail_cons, strtol_numeral_end]
  dsimp only
  rw [if_neg (fun hcolon => nomatch hcolon), hminutes]
  dsimp only [Option.bind_eq_bind, Option.bind_some]
  rw [hall]
  rfl

/-- **What a time `HH:MM:SS` gives**: every intermediate result is part of a sum that fits. -/
theorem resToNumLong_hours (h m s : Numeral)
    (hfits : h.value * 3600 + m.value * 60 + s.value < 2 ^ 63) :
    resToNumLong (h.digits ++ ':' :: (m.digits ++ ':' :: s.digits)) =
      some ((h.value * 3600 + m.value * 60 + s.value : ℕ) : ℤ) := by
  have hhours : clampLong h.value = h.value := clampLong_of_lt (by omega)
  have hminutes : clampLong m.value = m.value := clampLong_of_lt (by omega)
  have hseconds : clampLong s.value = s.value := clampLong_of_lt (by omega)
  have hcount := countAndMultiplier_hours (clampLong h.value) m s
    (longLong_of_fits (by omega) (by omega)) (longLong_of_fits (by omega) (by omega))
    (longLong_of_fits (by omega) (by omega)) (longLong_of_fits (by omega) (by omega))
  unfold resToNumLong
  rw [strtol_numeral h _ (isDigit_colon _)]
  dsimp only
  rw [hcount, Option.bind_eq_bind, Option.bind_some]
  dsimp only
  rw [if_neg (fun hword => hword.1 rfl), mul_one, hhours, hminutes, hseconds]
  push_cast
  exact longLong_of_fits (by omega) (by omega)

/-- **What a time `MM:SS` gives.** -/
theorem resToNumLong_minutes (m s : Numeral) (hfits : m.value * 60 + s.value < 2 ^ 63) :
    resToNumLong (m.digits ++ ':' :: s.digits) =
      some ((m.value * 60 + s.value : ℕ) : ℤ) := by
  have hminutes : clampLong m.value = m.value := clampLong_of_lt (by omega)
  have hseconds : clampLong s.value = s.value := clampLong_of_lt (by omega)
  have hcount := countAndMultiplier_minutes (clampLong m.value) s
    (longLong_of_fits (by omega) (by omega)) (longLong_of_fits (by omega) (by omega))
  -- a digit stands behind the colon, so the minutes are not words
  have hword : ¬ (':' :: s.digits ≠ [] ∧ (':' :: s.digits).tail.head? = some 'w') := by
    rintro ⟨-, hhead⟩
    have hdigit := s.isDigit 'w' (List.mem_of_mem_head? hhead)
    cases hdigit
  unfold resToNumLong
  rw [strtol_numeral m _ (isDigit_colon _)]
  dsimp only
  rw [hcount, Option.bind_eq_bind, Option.bind_some]
  dsimp only
  rw [if_neg hword, mul_one, hminutes, hseconds]
  push_cast
  exact longLong_of_fits (by omega) (by omega)

/-! ## When the number is right -/

/-- A multiple of a count is right if it fits. -/
theorem longLong_scaled {n k : ℕ} (hk : 0 < k) (hfits : n * k < 2 ^ 63) :
    longLong (clampLong n * k) = some ((n * k : ℕ) : ℤ) := by
  have hn : n < 2 ^ 63 := (Nat.le_mul_of_pos_right n hk).trans_lt hfits
  rw [clampLong_of_lt hn, ← Nat.cast_mul]
  exact longLong_of_fits (by omega) (by omega)

/-- Scaled units are whole kilobytes. -/
theorem kilobytes_scaled (n k : ℕ) : n * (k * 1024) / 1024 = n * k := by
  rw [← mul_assoc, Nat.mul_div_cancel _ (by decide)]

/-- No letter stands for nothing. -/
theorem SizeScale.kilos_pos (scale : SizeScale) : 0 < scale.kilos := by
  cases scale <;> decide

/-- A count of bytes or words that a `long` can hold loses its rest modulo 1024. -/
theorem longLong_divided (n k : ℕ) (hk : k ≤ 8) (exact : ℕ) :
    longLong (clampLong n % 2 ^ 64 / 1024 * k) = some (exact : ℤ) ↔
      min n (2 ^ 63 - 1) / 1024 * k = exact := by
  have hvalue : clampLong n % 2 ^ 64 / 1024 * k = ((min n (2 ^ 63 - 1) / 1024 * k : ℕ) : ℤ) := by
    have hclamp : clampLong n = ((min n (2 ^ 63 - 1) : ℕ) : ℤ) := by
      unfold clampLong
      omega
    rw [hclamp, Int.emod_eq_of_lt (by omega) (by omega)]
    push_cast
    rfl
  have hsmall : min n (2 ^ 63 - 1) / 1024 * k ≤ min n (2 ^ 63 - 1) / 1024 * 8 :=
    Nat.mul_le_mul_left _ hk
  rw [hvalue, longLong_of_fits (by omega) (by omega)]
  rw [Option.some.injEq]
  exact Nat.cast_inj

/-- **Exactly the amounts that are converted right**: all times and scaled sizes, and of the
numbers of bytes and bare words those that a `long` can hold; of words, the ones behind the last
multiple of 1024 must not make a kilobyte. -/
theorem res_to_num_iff (amount : AmountText) (hfits : amount.exact < 2 ^ 63) :
    resToNumLong amount.text = some (amount.exact : ℤ) ↔ amount.Converts := by
  cases amount with
  | hours h m s => exact iff_of_true (resToNumLong_hours h m s hfits) trivial
  | minutes m s => exact iff_of_true (resToNumLong_minutes m s hfits) trivial
  | size n suffix =>
      unfold AmountText.text AmountText.exact at *
      dsimp only at hfits ⊢
      rw [resToNumLong_size]
      cases suffix with
      | bytes upper =>
          have hdivided := longLong_divided n.value 1 (by decide) (n.value * 1 / 1024)
          rw [Nat.cast_one, mul_one] at hdivided
          refine hdivided.trans ?_
          show _ ↔ n.value < 2 ^ 63
          omega
      | words =>
          refine (longLong_divided n.value 8 le_rfl (n.value * 8 / 1024)).trans ?_
          show _ ↔ n.value < 2 ^ 63 ∧ n.value % 1024 < 128
          omega
      | scaled scale upper =>
          refine iff_of_true ?_ trivial
          unfold SizeSuffix.unit at *
          rw [kilobytes_scaled] at hfits ⊢
          exact longLong_scaled scale.kilos_pos hfits
      | scaledBytes scale upper upperByte =>
          refine iff_of_true ?_ trivial
          unfold SizeSuffix.unit at *
          rw [kilobytes_scaled] at hfits ⊢
          exact longLong_scaled scale.kilos_pos hfits
      | scaledWords scale =>
          refine iff_of_true ?_ trivial
          have hunit : n.value * SizeSuffix.unit (.scaledWords scale) / 1024 =
              n.value * (scale.kilos * 8) := by
            show n.value * (scale.kilos * 1024 * 8) / 1024 = _
            rw [Nat.mul_right_comm scale.kilos, kilobytes_scaled]
          rw [hunit] at hfits ⊢
          have hpos := scale.kilos_pos
          have hscaled := longLong_scaled (k := scale.kilos * 8) (by omega) hfits
          rw [Nat.cast_mul] at hscaled
          exact hscaled

/-- Ten gigabytes. -/
def tenGigabytes : AmountText :=
  .size ⟨['1', '0'], List.cons_ne_nil _ _, List.all_eq_true.mp rfl⟩ (.scaledBytes .giga false false)

/-- They are `10485760` kilobytes. -/
theorem res_to_num_ten_gigabytes :
    resToNumLong tenGigabytes.text = some (tenGigabytes.exact : ℤ) ∧
      tenGigabytes.exact = 10485760 :=
  ⟨(res_to_num_iff tenGigabytes (by decide)).mpr trivial, by decide⟩

/-- 512 words. -/
def bareWords : AmountText :=
  .size ⟨['5', '1', '2'], List.cons_ne_nil _ _, List.all_eq_true.mp rfl⟩ .words

/-- They are four kilobytes, and converted to none. -/
theorem bare_words_lost :
    bareWords.text = ['5', '1', '2', 'w'] ∧ bareWords.exact = 4 ∧
      resToNumLong bareWords.text = some 0 := by
  decide

/-! ## The function without overflow -/

/-- `resToNum` behind a colon. -/
theorem resToNum_colon {resStr rest : List Char} {count : ℤ}
    (hnumber : strtol resStr = (count, ':' :: rest)) :
    resToNum resStr =
      if (strtol rest).2.head? = some ':' then
        if (strtol (strtol rest).2.tail).2 ≠ [] then
          if (strtol (strtol rest).2.tail).2 ≠ [] ∧
              (strtol (strtol rest).2.tail).2.tail.head? = some 'w' then -1 * 8 else -1
        else count * 3600 + (strtol rest).1 * 60 + (strtol (strtol rest).2.tail).1
      else (count * 60 + (strtol rest).1) *
        if ':' :: rest ≠ [] ∧ rest.head? = some 'w' then 1 * 8 else 1 := by
  unfold resToNum
  rw [hnumber]
  rfl

/-- A time is the same where no step overflows. -/
theorem resToNum_of_colon {resStr rest endp : List Char} {count count' multiplier v : ℤ}
    (hnumber : strtol resStr = (count, ':' :: rest))
    (hcount : countAndMultiplier count (':' :: rest) = some (count', endp, multiplier))
    (hv : count' * (if endp ≠ [] ∧ endp.tail.head? = some 'w' then multiplier * 8
      else multiplier) = v) : resToNum resStr = v := by
  unfold countAndMultiplier at hcount
  rw [if_pos List.head?_cons, List.tail_cons] at hcount
  rw [resToNum_colon hnumber]
  cases hminutes : strtol rest with
  | mk count2 endp2 =>
      rw [hminutes] at hcount
      dsimp only at hcount ⊢
      by_cases hcolon : endp2.head? = some ':'
      · rw [if_pos hcolon] at hcount ⊢
        obtain ⟨hourSeconds, hhours, hcount⟩ := Option.bind_eq_some_iff.mp hcount
        obtain ⟨minuteSeconds, hsixty, hcount⟩ := Option.bind_eq_some_iff.mp hcount
        obtain ⟨both, hboth, hcount⟩ := Option.bind_eq_some_iff.mp hcount
        obtain ⟨all, hall, hcount⟩ := Option.bind_eq_some_iff.mp hcount
        have hsum : all = count * 3600 + count2 * 60 + (strtol endp2.tail).1 := by
          rw [← longLong_eq_some hall, ← longLong_eq_some hboth, ← longLong_eq_some hsixty,
            ← longLong_eq_some hhours]
        cases hcount
        rw [← hv]
        split
        · split
          · rfl
          · rfl
        · next hend =>
            rw [if_neg (fun hword => hend hword.1), mul_one]
            exact hsum.symm
      · rw [if_neg hcolon] at hcount ⊢
        obtain ⟨minuteSeconds, hsixty, hcount⟩ := Option.bind_eq_some_iff.mp hcount
        obtain ⟨all, hall, hcount⟩ := Option.bind_eq_some_iff.mp hcount
        have hsum : all = count * 60 + count2 := by
          rw [← longLong_eq_some hall, ← longLong_eq_some hsixty]
        cases hcount
        rw [← hv, hsum]
        rfl

/-- Where nothing overflows, the readers of the configuration compute the same. -/
theorem resToNum_of_long {resStr : List Char} {v : ℤ} (h : resToNumLong resStr = some v) :
    resToNum resStr = v := by
  unfold resToNumLong at h
  cases hnumber : strtol resStr with
  | mk count endp =>
      rw [hnumber] at h
      dsimp only at h
      obtain ⟨⟨count', endp', multiplier⟩, hcount, h⟩ := Option.bind_eq_some_iff.mp h
      have hv := longLong_eq_some h
      dsimp only at hv
      cases endp with
      | nil =>
          cases hcount
          unfold resToNum
          rw [hnumber, ← hv]
          exact (mul_one count).symm
      | cons c rest =>
          by_cases hcolon : c = ':'
          · subst hcolon
            exact resToNum_of_colon hnumber hcount hv
          · have hhead : (c :: rest).head? ≠ some ':' := fun heq => hcolon (Option.some.inj heq)
            unfold countAndMultiplier at hcount
            rw [if_neg hhead] at hcount
            dsimp only at hcount
            obtain ⟨rfl, hrest⟩ := Prod.mk.inj (Option.some.inj hcount)
            obtain ⟨rfl, rfl⟩ := Prod.mk.inj hrest
            unfold resToNum
            rw [hnumber, ← hv]
            unfold sizeMultiplier
            simp only [List.head?_cons, Option.some.injEq]
            split_ifs <;> rfl

end PlanSched
