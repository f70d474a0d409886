/-
# Numbers in C text

A library for the two conversions of the C standard library that read a number
from the front of a text and report where they stopped.  A text is the list of
its characters up to the terminating NUL.  Nothing here names the scheduler.

* `strtol` reads a decimal integer and clamps it to 64 bits (`strtoll` is the
  same function there);
* `strtof` reads a floating-point number in any of its notations.  The value is
  kept exactly, without the rounding to a binary fraction;
* `strtol_suffix`, `strtof_suffix`: what is left over is a suffix of the text;
* `strtol_append`, `strtof_append`: both stop at a character that belongs to no number.

Trust base: `[propext, Classical.choice, Quot.sound]`.
-/
import Mathlib

namespace CText

/-! ## Characters and signs -/

/-- `isspace` in the C locale. -/
def isspace (c : Char) : Bool :=
  c == ' ' || c == '\t' || c == '\n' || c == '\x0b' || c == '\x0c' || c == '\r'

/-- The value of a decimal or hexadecimal digit. -/
def digitValue (c : Char) : ℕ :=
  if c.isDigit then c.toNat - 48 else c.toLower.toNat - 87

/-- `isxdigit`. -/
def isxdigit (c : Char) : Bool :=
  c.isDigit || ('a'.toNat ≤ c.toLower.toNat && c.toLower.toNat ≤ 'f'.toNat)

/-- The number a sequence of digits stands for. -/
def digitsValue (base : ℕ) (digits : List Char) : ℕ :=
  digits.foldl (fun n c => n * base + digitValue c) 0

/-- An optional sign: is it a minus, and the text after it. -/
def takeSign : List Char → Bool × List Char
  | [] => (false, [])
  | c :: s => if c = '-' then (true, s) else if c = '+' then (false, s) else (false, c :: s)

/-- The text after a sign is a suffix. -/
theorem takeSign_suffix (s : List Char) : (takeSign s).2 <:+ s := by
  cases s with
  | nil => exact List.suffix_rfl
  | cons c s =>
      rw [takeSign]
      split
      · exact List.suffix_cons c s
      · split
        · exact List.suffix_cons c s
        · exact List.suffix_rfl

/-! ## Integers -/

/-- Clamp to the range of a 64-bit integer. -/
def clampLong (v : ℤ) : ℤ := max (-(2 ^ 63)) (min (2 ^ 63 - 1) v)

/-- A number that a `long` can hold is read as it is. -/
theorem clampLong_of_lt {n : ℕ} (h : n < 2 ^ 63) : clampLong n = n := by
  unfold clampLong
  omega

/-- `strtol(s, &end, 10)`: the value and the text at `end`. -/
def strtol (s : List Char) : ℤ × List Char :=
  let (negative, body) := takeSign (s.dropWhile isspace)
  let digits := body.takeWhile Char.isDigit
  if digits = [] then (0, s)
  else
    let v : ℤ := digitsValue 10 digits
    (clampLong (if negative then -v else v), body.dropWhile Char.isDigit)

/-- `strtol` stops at a suffix of the text. -/
theorem strtol_suffix (s : List Char) : (strtol s).2 <:+ s := by
  unfold strtol
  simp only
  split
  · exact List.suffix_rfl
  · exact (List.dropWhile_suffix _).trans
      ((takeSign_suffix _).trans (List.dropWhile_suffix _))

/-- `atoi`: the value of `strtol` as an `int`. -/
def atoi (s : List Char) : ℤ := Int.bmod (strtol s).1 (2 ^ 32)

/-- A digit is neither blank nor a sign. -/
theorem isDigit_plain {c : Char} (h : c.isDigit = true) :
    isspace c = false ∧ c ≠ '-' ∧ c ≠ '+' := by
  have hnot : ∀ d : Char, d.isDigit = false → c ≠ d := by
    rintro d hd rfl
    rw [h] at hd
    cases hd
  refine ⟨?_, hnot _ (by decide), hnot _ (by decide)⟩
  unfold isspace
  simp only [beq_eq_false_iff_ne.mpr (hnot _ _), Bool.or_self,
    show ' '.isDigit = false by decide, show '\t'.isDigit = false by decide,
    show '\n'.isDigit = false by decide, show '\x0b'.isDigit = false by decide,
    show '\x0c'.isDigit = false by decide, show '\r'.isDigit = false by decide]

/-- Digits with something else behind them. -/
theorem takeWhile_digits {digits rest : List Char} (hdigits : ∀ c ∈ digits, c.isDigit = true)
    (hrest : ∀ c ∈ rest.head?, c.isDigit = false) :
    (digits ++ rest).takeWhile Char.isDigit = digits ∧
      (digits ++ rest).dropWhile Char.isDigit = rest := by
  rw [List.takeWhile_append_of_pos hdigits, List.dropWhile_append_of_pos hdigits]
  cases rest with
  | nil => exact ⟨List.append_nil _, rfl⟩
  | cons c rest =>
      have hc : ¬ c.isDigit = true := by simp [hrest c rfl]
      rw [List.takeWhile_cons_of_neg hc, List.dropWhile_cons_of_neg hc]
      exact ⟨List.append_nil _, rfl⟩

/-- `strtol` reads the digits in front of a text. -/
theorem strtol_digits {digits rest : List Char} (hne : digits ≠ [])
    (hdigits : ∀ c ∈ digits, c.isDigit = true) (hrest : ∀ c ∈ rest.head?, c.isDigit = false) :
    strtol (digits ++ rest) = (clampLong (digitsValue 10 digits), rest) := by
  obtain ⟨htake, hleft⟩ := takeWhile_digits hdigits hrest
  cases digits with
  | nil => exact absurd rfl hne
  | cons c digits =>
      obtain ⟨hspace, hminus, hplus⟩ := isDigit_plain (hdigits c List.mem_cons_self)
      have hdrop : (c :: digits ++ rest).dropWhile isspace = c :: digits ++ rest :=
        List.dropWhile_cons_of_neg (by rw [hspace]; exact Bool.false_ne_true)
      have hsign : takeSign (c :: digits ++ rest) = (false, c :: digits ++ rest) := by
        rw [List.cons_append, takeSign, if_neg hminus, if_neg hplus]
      unfold strtol
      rw [hdrop, hsign]
      dsimp only
      rw [htake, hleft, if_neg hne]
      rfl

/-- `atoi` of a number that an `int` can hold. -/
theorem atoi_digits {digits rest : List Char} (hne : digits ≠ [])
    (hdigits : ∀ c ∈ digits, c.isDigit = true) (hrest : ∀ c ∈ rest.head?, c.isDigit = false)
    (hrange : digitsValue 10 digits < 2 ^ 31) :
    atoi (digits ++ rest) = digitsValue 10 digits := by
  rw [atoi, strtol_digits hne hdigits hrest]
  have hclamp : clampLong (digitsValue 10 digits) = digitsValue 10 digits :=
    clampLong_of_lt (by omega)
  show Int.bmod (clampLong (digitsValue 10 digits)) (2 ^ 32) = _
  rw [hclamp]
  exact Int.bmod_eq_of_le (by omega) (by omega)

/-! ## Floating-point numbers -/

/-- A floating-point value. -/
inductive CFloat : Type where
  | finite (value : ℚ) : CFloat
  | infinite (negative : Bool) : CFloat
  | nan : CFloat
  deriving DecidableEq, Repr, Inhabited

/-- An optional exponent: without digits behind it, the mark is not consumed. -/
def takeExponent (isMark : Char → Bool) : List Char → ℤ × List Char
  | [] => (0, [])
  | c :: s =>
      let (negative, body) := takeSign s
      let digits := body.takeWhile Char.isDigit
      if isMark c ∧ digits ≠ [] then
        let v : ℤ := digitsValue 10 digits
        (if negative then -v else v, body.dropWhile Char.isDigit)
      else (0, c :: s)

/-- An optional fraction: the digits after the point. -/
def takeFraction (isDig : Char → Bool) : List Char → List Char × List Char
  | [] => ([], [])
  | c :: s => if c = '.' then (s.takeWhile isDig, s.dropWhile isDig) else ([], c :: s)

/-- Digits, fraction and exponent of a number; `none` when there is no digit. -/
def takeNumber (isDig : Char → Bool) (base : ℕ) (isMark : Char → Bool) (expBase : ℕ)
    (s : List Char) : Option (ℚ × List Char) :=
  let whole := s.takeWhile isDig
  let (fraction, rest) := takeFraction isDig (s.dropWhile isDig)
  if whole = [] ∧ fraction = [] then none
  else
    let (exponent, rest) := takeExponent isMark rest
    let mantissa : ℚ := digitsValue base (whole ++ fraction) / (base : ℚ) ^ fraction.length
    some (mantissa * (expBase : ℚ) ^ exponent, rest)

/-- The rest of the text after a word, in either case. -/
def dropWord (word : List Char) (s : List Char) : Option (List Char) :=
  if (s.take word.length).map Char.toLower = word then some (s.drop word.length) else none

/-- The optional parenthesis after `nan`. -/
def dropPayload : List Char → List Char
  | [] => []
  | c :: s =>
      let rest := s.dropWhile (fun c => c.isAlphanum || c == '_')
      if c = '(' ∧ rest.head? = some ')' then rest.tail else c :: s

/-- The unsigned part of `strtof`. -/
def takeFloat (s : List Char) : Option (CFloat × List Char) :=
  match dropWord "infinity".toList s with
  | some rest => some (.infinite false, rest)
  | none =>
    match dropWord "inf".toList s with
    | some rest => some (.infinite false, rest)
    | none =>
      match dropWord "nan".toList s with
      | some rest => some (.nan, dropPayload rest)
      | none =>
        match (dropWord "0x".toList s).bind
            (takeNumber isxdigit 16 (fun c => c == 'p' || c == 'P') 2) with
        | some (value, rest) => some (.finite value, rest)
        | none =>
            (takeNumber Char.isDigit 10 (fun c => c == 'e' || c == 'E') 10 s).map
              (fun r => (.finite r.1, r.2))

/-- The value with the opposite sign. -/
def CFloat.neg : CFloat → CFloat
  | finite value => finite (-value)
  | infinite negative => infinite (!negative)
  | nan => nan

/-- `strtof(s, &end)`: the value and the text at `end`. -/
def strtof (s : List Char) : CFloat × List Char :=
  let (negative, body) := takeSign (s.dropWhile isspace)
  match takeFloat body with
  | none => (.finite 0, s)
  | some (value, rest) => (if negative then value.neg else value, rest)

/-- The exponent is taken from the front. -/
theorem takeExponent_suffix (isMark : Char → Bool) (s : List Char) :
    (takeExponent isMark s).2 <:+ s := by
  cases s with
  | nil => exact List.suffix_rfl
  | cons c s =>
      unfold takeExponent
      simp only
      split
      · exact (List.dropWhile_suffix _).trans
          ((takeSign_suffix s).trans (List.suffix_cons c s))
      · exact List.suffix_rfl

/-- The fraction is taken from the front. -/
theorem takeFraction_suffix (isDig : Char → Bool) (s : List Char) :
    (takeFraction isDig s).2 <:+ s := by
  cases s with
  | nil => exact List.suffix_rfl
  | cons c s =>
      rw [takeFraction]
      split
      · exact (List.dropWhile_suffix _).trans (List.suffix_cons c s)
      · exact List.suffix_rfl

/-- A number is taken from the front. -/
theorem takeNumber_suffix {isDig : Char → Bool} {base : ℕ} {isMark : Char → Bool} {expBase : ℕ}
    {s rest : List Char} {value : ℚ}
    (h : takeNumber isDig base isMark expBase s = some (value, rest)) : rest <:+ s := by
  unfold takeNumber at h
  simp only at h
  split at h
  · cases h
  · rw [Option.some.injEq, Prod.mk.injEq] at h
    rw [← h.2]
    exact (takeExponent_suffix _ _).trans
      ((takeFraction_suffix _ _).trans (List.dropWhile_suffix _))

/-- A word is taken from the front. -/
theorem dropWord_suffix {word s rest : List Char} (h : dropWord word s = some rest) :
    rest <:+ s := by
  unfold dropWord at h
  split at h
  · rw [Option.some.injEq] at h
    rw [← h]
    exact List.drop_suffix _ _
  · cases h

/-- The parenthesis is taken from the front. -/
theorem dropPayload_suffix (s : List Char) : dropPayload s <:+ s := by
  cases s with
  | nil => exact List.suffix_rfl
  | cons c s =>
      unfold dropPayload
      simp only
      split
      · exact (List.tail_suffix _).trans
          ((List.dropWhile_suffix _).trans (List.suffix_cons c s))
      · exact List.suffix_rfl

/-- A floating-point number is taken from the front. -/
theorem takeFloat_suffix {s rest : List Char} {value : CFloat}
    (h : takeFloat s = some (value, rest)) : rest <:+ s := by
  unfold takeFloat at h
  split at h
  · rename_i rest' hword
    cases h
    exact dropWord_suffix hword
  · split at h
    · rename_i rest' hword
      cases h
      exact dropWord_suffix hword
    · split at h
      · rename_i rest' hword
        cases h
        exact (dropPayload_suffix _).trans (dropWord_suffix hword)
      · split at h
        · rename_i value' rest' hhex
          cases h
          obtain ⟨body, hword, hnumber⟩ := Option.bind_eq_some_iff.mp hhex
          exact (takeNumber_suffix hnumber).trans (dropWord_suffix hword)
        · obtain ⟨r, hnumber, hr⟩ := Option.map_eq_some_iff.mp h
          cases hr
          exact takeNumber_suffix hnumber

/-- `strtof` stops at a suffix of the text. -/
theorem strtof_suffix (s : List Char) : (strtof s).2 <:+ s := by
  unfold strtof
  simp only
  split
  · exact List.suffix_rfl
  · rename_i value rest hfloat
    exact (takeFloat_suffix hfloat).trans
      ((takeSign_suffix _).trans (List.dropWhile_suffix _))

/-! ## Separators -/

/-- A character that belongs to no number: both conversions stop at it. -/
structure Separator (c : Char) : Prop where
  space : isspace c = false
  alphanum : c.isAlphanum = false
  hexadecimal : isxdigit c = false
  letter : c.toLower ∉ "infinitynan0x".toList
  mark : c ∉ "+-.()_".toList

/-- A comma is one. -/
theorem separator_comma : Separator ',' :=
  ⟨by decide, by decide, by decide, by decide, by decide⟩

/-- So is a semicolon. -/
theorem separator_semicolon : Separator ';' :=
  ⟨by decide, by decide, by decide, by decide, by decide⟩

section separator

variable {c : Char}

/-- A separator is no digit. -/
theorem Separator.digit (h : Separator c) : c.isDigit = false := by
  have halphanum := h.alphanum
  rw [Char.isAlphanum, Bool.or_eq_false_iff] at halphanum
  exact halphanum.2

/-- What a test takes from the front ends at a character that fails it. -/
theorem span_append {p : Char → Bool} (hc : p c = false) (s rest : List Char) :
    (s ++ c :: rest).takeWhile p = s.takeWhile p ∧
      (s ++ c :: rest).dropWhile p = s.dropWhile p ++ c :: rest := by
  induction s with
  | nil =>
      have hc' : ¬ p c = true := by simp [hc]
      exact ⟨List.takeWhile_cons_of_neg hc', List.dropWhile_cons_of_neg hc'⟩
  | cons d s ih =>
      rw [List.cons_append, List.takeWhile_cons, List.takeWhile_cons, List.dropWhile_cons,
        List.dropWhile_cons, ih.1, ih.2]
      split
      · exact ⟨rfl, rfl⟩
      · exact ⟨rfl, rfl⟩

/-- A sign in front of a separator. -/
theorem takeSign_append (h : Separator c) (s rest : List Char) :
    takeSign (s ++ c :: rest) = ((takeSign s).1, (takeSign s).2 ++ c :: rest) := by
  cases s with
  | nil =>
      have hminus : c ≠ '-' := by
        rintro rfl
        exact h.mark (by decide)
      have hplus : c ≠ '+' := by
        rintro rfl
        exact h.mark (by decide)
      show takeSign (c :: rest) = (false, c :: rest)
      rw [takeSign, if_neg hminus, if_neg hplus]
  | cons d s =>
      rw [List.cons_append, takeSign, takeSign]
      split
      · rfl
      · split
        · rfl
        · rfl

/-- `strtol` reads what stands in front of a separator. -/
theorem strtol_append (h : Separator c) (s rest : List Char) :
    strtol (s ++ c :: rest) = ((strtol s).1, (strtol s).2 ++ c :: rest) := by
  unfold strtol
  rw [(span_append h.space s rest).2, takeSign_append h]
  dsimp only
  obtain ⟨htake, hdrop⟩ := span_append h.digit (takeSign (s.dropWhile isspace)).2 rest
  rw [htake, hdrop]
  split
  · rfl
  · rfl

/-- An exponent in front of a separator. -/
theorem takeExponent_append (h : Separator c) {isMark : Char → Bool} (hmark : isMark c = false)
    (s rest : List Char) :
    takeExponent isMark (s ++ c :: rest)
      = ((takeExponent isMark s).1, (takeExponent isMark s).2 ++ c :: rest) := by
  cases s with
  | nil =>
      unfold takeExponent
      dsimp only [List.nil_append]
      rw [if_neg (fun hboth => by rw [hmark] at hboth; cases hboth.1)]
  | cons d s =>
      unfold takeExponent
      dsimp only [List.cons_append]
      rw [takeSign_append h]
      dsimp only
      obtain ⟨htake, hdrop⟩ := span_append h.digit (takeSign s).2 rest
      rw [htake, hdrop]
      split
      · rfl
      · rfl

/-- A fraction in front of a separator. -/
theorem takeFraction_append (h : Separator c) {isDig : Char → Bool} (hdig : isDig c = false)
    (s rest : List Char) :
    takeFraction isDig (s ++ c :: rest)
      = ((takeFraction isDig s).1, (takeFraction isDig s).2 ++ c :: rest) := by
  cases s with
  | nil =>
      have hpoint : c ≠ '.' := by
        rintro rfl
        exact h.mark (by decide)
      show takeFraction isDig (c :: rest) = ([], c :: rest)
      rw [takeFraction, if_neg hpoint]
  | cons d s =>
      obtain ⟨htake, hdrop⟩ := span_append hdig s rest
      rw [List.cons_append, takeFraction, takeFraction, htake, hdrop]
      split
      · rfl
      · rfl

/-- A number in front of a separator. -/
theorem takeNumber_append (h : Separator c) {isDig isMark : Char → Bool} (hdig : isDig c = false)
    (hmark : isMark c = false) (base expBase : ℕ) (s rest : List Char) :
    takeNumber isDig base isMark expBase (s ++ c :: rest)
      = (takeNumber isDig base isMark expBase s).map (fun r => (r.1, r.2 ++ c :: rest)) := by
  unfold takeNumber
  obtain ⟨htake, hdrop⟩ := span_append hdig s rest
  rw [htake, hdrop, takeFraction_append h hdig]
  dsimp only
  rw [takeExponent_append h hmark]
  split
  · rfl
  · rfl

/-- A word in front of a separator. -/
theorem dropWord_append {word : List Char} (hc : c.toLower ∉ word) (s rest : List Char) :
    dropWord word (s ++ c :: rest) = (dropWord word s).map (fun r => r ++ c :: rest) := by
  unfold dropWord
  by_cases hlen : word.length ≤ s.length
  · rw [List.take_append_of_le_length hlen, List.drop_append_of_le_length hlen]
    split
    · rfl
    · rfl
  · -- the word would reach the separator
    have hshort : (s.take word.length).map Char.toLower ≠ word := by
      intro heq
      have := congrArg List.length heq
      rw [List.length_map, List.length_take] at this
      omega
    have hlong : ((s ++ c :: rest).take word.length).map Char.toLower ≠ word := by
      intro heq
      apply hc
      rw [← heq]
      refine List.mem_map_of_mem (List.mem_iff_getElem?.mpr ⟨s.length, ?_⟩)
      rw [List.getElem?_take_of_lt (by omega), List.getElem?_append_right le_rfl, Nat.sub_self]
      rfl
    rw [if_neg hshort, if_neg hlong]
    rfl

/-- The parenthesis after `nan` in front of a separator. -/
theorem dropPayload_append (h : Separator c) (s rest : List Char) :
    dropPayload (s ++ c :: rest) = dropPayload s ++ c :: rest := by
  have hword : (fun d : Char => d.isAlphanum || d == '_') c = false := by
    have hunder : c ≠ '_' := by
      rintro rfl
      exact h.mark (by decide)
    show (c.isAlphanum || c == '_') = false
    rw [h.alphanum, Bool.false_or]
    exact beq_false_of_ne hunder
  have hclose : c ≠ ')' := by
    rintro rfl
    exact h.mark (by decide)
  cases s with
  | nil =>
      have hopen : c ≠ '(' := by
        rintro rfl
        exact h.mark (by decide)
      unfold dropPayload
      dsimp only [List.nil_append]
      rw [if_neg (fun hboth => hopen hboth.1)]
  | cons d s =>
      unfold dropPayload
      dsimp only [List.cons_append]
      rw [(span_append hword s rest).2]
      cases s.dropWhile (fun d => d.isAlphanum || d == '_') with
      | nil =>
          rw [if_neg (fun hboth => hclose (Option.some.inj hboth.2)),
            if_neg (fun hboth => by cases hboth.2)]
          rfl
      | cons e s' =>
          rw [List.cons_append, List.head?_cons, List.head?_cons, List.tail_cons, List.tail_cons]
          split
          · rfl
          · rfl

/-- A floating-point number in front of a separator. -/
theorem takeFloat_append (h : Separator c) (s rest : List Char) :
    takeFloat (s ++ c :: rest) = (takeFloat s).map (fun r => (r.1, r.2 ++ c :: rest)) := by
  have hletter : ∀ {word : List Char}, word ⊆ "infinitynan0x".toList →
      dropWord word (s ++ c :: rest) = (dropWord word s).map (fun r => r ++ c :: rest) :=
    fun hword => dropWord_append (fun hmem => h.letter (hword hmem)) s rest
  have hexponent : ∀ a b : Char, a.isAlphanum = true → b.isAlphanum = true →
      (fun d : Char => d == a || d == b) c = false := by
    intro a b ha hb
    have hne : ∀ d : Char, d.isAlphanum = true → (c == d) = false := by
      rintro d hd
      apply beq_false_of_ne
      rintro rfl
      rw [h.alphanum] at hd
      cases hd
    show (c == a || c == b) = false
    rw [hne a ha, hne b hb]
    rfl
  have hhex : ∀ r, takeNumber isxdigit 16 (fun d => d == 'p' || d == 'P') 2 (r ++ c :: rest)
      = (takeNumber isxdigit 16 (fun d => d == 'p' || d == 'P') 2 r).map
          (fun r => (r.1, r.2 ++ c :: rest)) := fun r =>
    takeNumber_append h h.hexadecimal (hexponent 'p' 'P' (by decide) (by decide)) 16 2 r rest
  have hdecimal : takeNumber Char.isDigit 10 (fun d => d == 'e' || d == 'E') 10 (s ++ c :: rest)
      = (takeNumber Char.isDigit 10 (fun d => d == 'e' || d == 'E') 10 s).map
          (fun r => (r.1, r.2 ++ c :: rest)) :=
    takeNumber_append h h.digit (hexponent 'e' 'E' (by decide) (by decide)) 10 10 s rest
  unfold takeFloat
  rw [hletter (by decide), hletter (by decide), hletter (by decide), hletter (by decide), hdecimal]
  cases dropWord "infinity".toList s with
  | some r => rfl
  | none =>
      cases dropWord "inf".toList s with
      | some r => rfl
      | none =>
          cases dropWord "nan".toList s with
          | some r =>
              show some (CFloat.nan, dropPayload (r ++ c :: rest)) = some (.nan, dropPayload r ++ _)
              rw [dropPayload_append h]
          | none =>
              cases dropWord "0x".toList s with
              | none =>
                  cases takeNumber Char.isDigit 10 (fun d => d == 'e' || d == 'E') 10 s with
                  | none => rfl
                  | some r => rfl
              | some r =>
                  dsimp only [Option.map_some, Option.map_none, Option.bind_some]
                  rw [hhex]
                  cases takeNumber isxdigit 16 (fun d => d == 'p' || d == 'P') 2 r with
                  | some r' => rfl
                  | none =>
                      cases takeNumber Char.isDigit 10 (fun d => d == 'e' || d == 'E') 10 s with
                      | none => rfl
                      | some r' => rfl

/-- `strtof` reads what stands in front of a separator. -/
theorem strtof_append (h : Separator c) (s rest : List Char) :
    strtof (s ++ c :: rest) = ((strtof s).1, (strtof s).2 ++ c :: rest) := by
  unfold strtof
  rw [(span_append h.space s rest).2, takeSign_append h]
  dsimp only
  rw [takeFloat_append h]
  cases takeFloat (takeSign (s.dropWhile isspace)).2 with
  | none => rfl
  | some r => rfl

end separator

example : strtof " -1.5e2,x".toList = (.finite (-150), [',', 'x']) := by decide +kernel

end CText
