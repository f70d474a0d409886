/-
# The texts of a node specification and their buffers

`multip_numbers` puts the product in the place of the number behind the first `mem=` it
finds, with three bytes more than the text had, and `job_create_nodespec` writes each chunk
with fifty bytes more than its parts.  The search does not look at what stands in front of
`mem=`, and the bytes do not depend on the number of nodes, their names or the processors.

* `multipliedExactly_iff`: when the number of the resource `mem` is multiplied, and in the
  bytes there are.
* `writes_fit_iff`: when the texts of a plan fit, run by run.
-/
import PlanSched.ComposedNodespec
import PlanSched.JobIdentity

namespace PlanSched.NodespecText

open CheckedRun CText TextSearch RunLengths

/-! ## Decimal numbers -/

/-- The digits of a number stand for it. -/
theorem digitsValue_toDigits (n : ℕ) : digitsValue 10 (Nat.toDigits 10 n) = n := by
  have hvalue : ∀ digits : List Char, (∀ c ∈ digits, c.isDigit = true) → ∀ m,
      digits.foldl (fun n c => n * 10 + digitValue c) m = Nat.ofDigitChars 10 digits m := by
    intro digits
    induction digits with
    | nil => exact fun _ m => rfl
    | cons c digits ih =>
        intro hdigits m
        have hc : digitValue c = c.toNat - '0'.toNat := by
          unfold digitValue
          rw [if_pos (hdigits c List.mem_cons_self)]
          rfl
        rw [List.foldl_cons, Nat.ofDigitChars_cons, hc, Nat.mul_comm m 10]
        exact ih (fun d hd => hdigits d (List.mem_cons_of_mem c hd)) _
  unfold digitsValue
  rw [hvalue _ (fun c hc => Nat.isDigit_of_mem_toDigits (by omega) (by omega) hc)]
  exact Nat.ofDigitChars_ten_toDigits

/-- Different numbers have different digits. -/
theorem toDigits_inj {m n : ℕ} : Nat.toDigits 10 m = Nat.toDigits 10 n ↔ m = n := by
  constructor
  · intro h
    rw [← digitsValue_toDigits m, h, digitsValue_toDigits n]
  · rintro rfl
    rfl

/-- A number is written with digits alone exactly if it is not negative. -/
theorem printInt_digits_iff {z : ℤ} {digits : List Char}
    (hdigits : ∀ c ∈ digits, c.isDigit = true) :
    printInt z = digits ↔ 0 ≤ z ∧ Nat.toDigits 10 z.toNat = digits := by
  unfold printInt
  by_cases hz : z < 0
  · rw [if_pos hz]
    constructor
    · rintro rfl
      have := hdigits '-' List.mem_cons_self
      cases this
    · rintro ⟨hnonneg, _⟩
      omega
  · rw [if_neg hz]
    have habs : z.natAbs = z.toNat := by omega
    rw [habs]
    exact ⟨fun h => ⟨by omega, h⟩, fun h => h.2⟩

/-- A number is written with one character at least, digits or a minus. -/
theorem printInt_chars (z : ℤ) :
    printInt z ≠ [] ∧ ∀ c ∈ printInt z, c.isDigit = true ∨ c = '-' := by
  have hdigits : ∀ c ∈ Nat.toDigits 10 z.natAbs, c.isDigit = true :=
    fun c hc => Nat.isDigit_of_mem_toDigits (by omega) (by omega) hc
  unfold printInt
  split
  · refine ⟨List.cons_ne_nil _ _, ?_⟩
    intro c hc
    rcases List.mem_cons.mp hc with rfl | hc
    · exact Or.inr rfl
    · exact Or.inl (hdigits c hc)
  · exact ⟨List.ne_nil_of_length_pos Nat.length_toDigits_pos, fun c hc => Or.inl (hdigits c hc)⟩

/-- A `long long` is below its bound. -/
theorem toLong_lt (x : ℤ) : toLong x < 2 ^ 63 := by
  unfold toLong
  have := @Int.bmod_lt x (2 ^ 64) (by norm_num)
  norm_num at this ⊢
  omega

/-- A number in the range is kept. -/
theorem toLong_of_lt {n : ℕ} (h : n < 2 ^ 63) : toLong n = n := by
  unfold toLong
  refine Int.bmod_eq_of_le ?_ ?_
  · omega
  · norm_num
    omega

/-! ## The product -/

/-- What is printed in the place of a number. -/
def product (a : ℕ) (behind : List Char) : List Char := printInt (toLong ((strtol behind).1 * a))

/-- The text behind the first `mem=`. -/
def behindMem (b : List Char) : List Char :=
  ((strstr "mem=".toList b).map (fun r => r.2.drop 4)).getD []

/-- The text, once its `mem=` is found. -/
theorem multipNumbers_eq {a : ℕ} {b before found : List Char}
    (h : strstr "mem=".toList b = some (before, found)) :
    multipNumbers keepFront a b = .ok (before ++ ("mem=".toList ++ (product a (found.drop 4)
      ++ (found.drop 4).dropWhile Char.isDigit))) := by
  unfold multipNumbers keepFront
  rw [h]
  show Except.ok _ = _
  rw [List.append_assoc]
  rfl

/-- The product is printed exactly if it is in the range. -/
theorem product_exact_iff {a : ℕ} {n rest : List Char} (ha : 1 ≤ a) (hn : IsDecimal n)
    (hrest : ∀ c ∈ rest.head?, c.isDigit = false) :
    product a (n ++ rest) = Nat.toDigits 10 (a * digitsValue 10 n) ↔
      a * digitsValue 10 n < 2 ^ 63 := by
  have hdigits : ∀ c ∈ Nat.toDigits 10 (a * digitsValue 10 n), c.isDigit = true :=
    fun c hc => Nat.isDigit_of_mem_toDigits (by omega) (by omega) hc
  unfold product
  rw [printInt_digits_iff hdigits, toDigits_inj, strtol_digits hn.1 hn.2 hrest]
  dsimp only
  constructor
  · rintro ⟨hnonneg, heq⟩
    have := toLong_lt (clampLong (digitsValue 10 n) * a)
    omega
  · intro hrange
    have hvalue : digitsValue 10 n < 2 ^ 63 :=
      lt_of_le_of_lt (Nat.le_mul_of_pos_left _ ha) hrange
    have hclamp : clampLong (digitsValue 10 n) = digitsValue 10 n := clampLong_of_lt hvalue
    have hproduct : toLong (clampLong (digitsValue 10 n) * a) = (a * digitsValue 10 n : ℕ) := by
      rw [hclamp, ← Nat.cast_mul, Nat.mul_comm]
      exact toLong_of_lt hrange
    rw [hproduct]
    exact ⟨Int.natCast_nonneg _, Int.toNat_natCast _⟩

/-- A number that multiplying leaves as it is written: no zeros in front, and the product is the
number again as a `long long`. -/
def KeptNumber (a : ℕ) (digits : List Char) : Prop :=
  digits = Nat.toDigits 10 (digitsValue 10 digits) ∧ digitsValue 10 digits < 2 ^ 63 ∧
    toLong (digitsValue 10 digits * a : ℕ) = digitsValue 10 digits

/-- The digits behind `mem=` stay exactly if the number is kept. -/
theorem product_kept_iff {a : ℕ} (behind : List Char) :
    product a behind = behind.takeWhile Char.isDigit ↔
      KeptNumber a (behind.takeWhile Char.isDigit) := by
  have hsplit : behind.takeWhile Char.isDigit ++ behind.dropWhile Char.isDigit = behind :=
    List.takeWhile_append_dropWhile
  have hrest : ∀ c ∈ (behind.dropWhile Char.isDigit).head?, c.isDigit = false := by
    intro c hc
    have := List.head?_dropWhile_not Char.isDigit behind
    rw [Option.mem_def.mp hc] at this
    exact this
  have hdigits : ∀ c ∈ behind.takeWhile Char.isDigit, c.isDigit = true :=
    fun c hc => List.mem_takeWhile_imp hc
  generalize behind.takeWhile Char.isDigit = digits at *
  -- without a digit the product is still printed
  by_cases hne : digits = []
  · subst hne
    refine iff_of_false (printInt_chars _).1 ?_
    rintro ⟨hempty, _⟩
    exact Nat.toDigits_ne_nil hempty.symm
  · unfold product KeptNumber
    rw [printInt_digits_iff hdigits, ← hsplit, strtol_digits hne hdigits hrest]
    dsimp only
    constructor
    · rintro ⟨hnonneg, heq⟩
      have hvalue := congrArg (digitsValue 10) heq
      rw [digitsValue_toDigits] at hvalue
      have hlt := toLong_lt (clampLong (digitsValue 10 digits) * a)
      have hrange : digitsValue 10 digits < 2 ^ 63 := by omega
      have hclamp : clampLong (digitsValue 10 digits) = digitsValue 10 digits :=
        clampLong_of_lt hrange
      rw [hclamp] at hnonneg heq hvalue
      rw [hvalue] at heq
      refine ⟨heq.symm, hrange, ?_⟩
      rw [Nat.cast_mul]
      omega
    · rintro ⟨hplain, hrange, hsame⟩
      have hclamp : clampLong (digitsValue 10 digits) = digitsValue 10 digits :=
        clampLong_of_lt hrange
      rw [hclamp, ← Nat.cast_mul, hsame]
      exact ⟨Int.natCast_nonneg _, hplain.symm⟩

/-! ## The resource `mem` -/

/-- A text with a number as its resource `mem`. -/
def memText (front n rest : List Char) : List Char :=
  front ++ ("mem=".toList ++ (n ++ rest))

/-- The resource `mem` is the first one or has a colon in front, and its number ends. -/
structure MemResource (front n rest : List Char) : Prop where
  boundary : front = [] ∨ ∃ before, front = before ++ [':']
  number : IsDecimal n
  ends : ∀ c ∈ rest.head?, c.isDigit = false

/-- The number of the resource is multiplied, everything else stays, and the result needs no
more than three bytes more. -/
def MultipliedExactly (a : ℕ) (front n rest : List Char) : Prop :=
  multipNumbers keepFront a (memText front n rest)
      = .ok (memText front (Nat.toDigits 10 (a * digitsValue 10 n)) rest) ∧
    (memText front (Nat.toDigits 10 (a * digitsValue 10 n)) rest).length + 1
      ≤ (memText front n rest).length + 3

/-- No other resource that ends with `mem` comes first, the product is in the range and has two
digits more at most; or one comes first, its number is kept, and so is that of `mem`. -/
def ScalesExactly (a : ℕ) (front n : List Char) : Prop :=
  if "mem=".toList <:+: front then
    KeptNumber a ((behindMem front).takeWhile Char.isDigit) ∧
      n = Nat.toDigits 10 (a * digitsValue 10 n)
  else a * digitsValue 10 n < 2 ^ 63 ∧
    (Nat.toDigits 10 (a * digitsValue 10 n)).length ≤ n.length + 2

/-- Without another such resource, the first `mem=` is that of the resource. -/
theorem strstr_memText {front n rest : List Char} (h : MemResource front n rest)
    (hnone : ¬ "mem=".toList <:+: front) :
    strstr "mem=".toList (memText front n rest) = some (front, "mem=".toList ++ (n ++ rest)) := by
  refine strstr_append front (List.prefix_append _ _) ?_
  rcases h.boundary with rfl | ⟨before, rfl⟩
  · intro skipped c rest hsplit
    have := congrArg List.length hsplit
    simp at this
  · exact NotIn.of_stop (by decide) hnone _

/-- The digits behind another resource end before `mem`. -/
theorem takeWhile_behind (behind n rest : List Char) :
    (behind ++ ("mem=".toList ++ (n ++ rest))).takeWhile Char.isDigit
        = behind.takeWhile Char.isDigit ∧
      (behind ++ ("mem=".toList ++ (n ++ rest))).dropWhile Char.isDigit
        = behind.dropWhile Char.isDigit ++ ("mem=".toList ++ (n ++ rest)) := by
  have hstop : ∀ c ∈ (behind.dropWhile Char.isDigit ++ ("mem=".toList ++ (n ++ rest))).head?,
      c.isDigit = false := by
    intro c hc
    have hnot := List.head?_dropWhile_not Char.isDigit behind
    generalize behind.dropWhile Char.isDigit = left at *
    cases left with
    | nil =>
        cases hc
        rfl
    | cons d left =>
        cases hc
        exact hnot
  have hdigits := takeWhile_digits
    (fun c (hc : c ∈ behind.takeWhile Char.isDigit) => List.mem_takeWhile_imp hc) hstop
  rw [← List.append_assoc, List.takeWhile_append_dropWhile] at hdigits
  exact hdigits

/-- When the number of the resource is multiplied. -/
theorem multipliedExactly_iff {a : ℕ} {front n rest : List Char} (h : MemResource front n rest)
    (ha : 1 ≤ a) : MultipliedExactly a front n rest ↔ ScalesExactly a front n := by
  unfold MultipliedExactly ScalesExactly
  by_cases hother : "mem=".toList <:+: front
  · rw [if_pos hother]
    -- another resource comes first: its digits are replaced
    obtain ⟨⟨before, found⟩, hfind⟩ : ∃ r, strstr "mem=".toList front = some r := by
      rw [← Option.ne_none_iff_exists']
      intro hnone
      exact (strstr_none_iff front).mp hnone hother
    obtain ⟨hfront, behind, hbehind⟩ := strstr_some front hfind
    subst hbehind
    set more := "mem=".toList ++ (n ++ rest) with hmore
    have hmem : behindMem front = behind := by
      unfold behindMem
      rw [hfind]
      rfl
    have hdrop : ("mem=".toList ++ behind ++ more).drop 4 = behind ++ more := rfl
    obtain ⟨htake, hleft⟩ := takeWhile_behind behind n rest
    rw [← hmore] at htake hleft
    have hkept := @product_kept_iff a (behind ++ more)
    rw [htake] at hkept
    have hdigits : ∀ c ∈ behind.takeWhile Char.isDigit, c.isDigit = true ∨ c = '-' :=
      fun c hc => Or.inl (List.mem_takeWhile_imp hc)
    have hmark : ∃ c ∈ behind.dropWhile Char.isDigit ++ "mem=".toList,
        ¬ (c.isDigit = true ∨ c = '-') :=
      ⟨'m', List.mem_append_right _ List.mem_cons_self, by decide⟩
    have hexact : multipNumbers keepFront a (memText front n rest)
          = .ok (memText front (Nat.toDigits 10 (a * digitsValue 10 n)) rest) ↔
        KeptNumber a (behind.takeWhile Char.isDigit) ∧
          n = Nat.toDigits 10 (a * digitsValue 10 n) := by
      have hfound : strstr "mem=".toList (memText front n rest)
          = some (before, "mem=".toList ++ behind ++ more) := strstr_some_append front more hfind
      have hsplit : front = before ++ ("mem=".toList ++ (behind.takeWhile Char.isDigit
          ++ behind.dropWhile Char.isDigit)) := by
        rw [List.takeWhile_append_dropWhile]
        exact hfront
      have hreplaced : product a (behind ++ more)
            ++ ((behind.dropWhile Char.isDigit ++ "mem=".toList) ++ (n ++ rest))
          = behind.takeWhile Char.isDigit ++ ((behind.dropWhile Char.isDigit ++ "mem=".toList)
            ++ (Nat.toDigits 10 (a * digitsValue 10 n) ++ rest)) ↔ _ :=
        replace_congr (printInt_chars _).2 hdigits hmark
      rw [List.append_cancel_right_eq, List.append_assoc, ← hmore, List.append_assoc]
        at hreplaced
      rw [multipNumbers_eq hfound, hdrop, hleft, Except.ok.injEq, ← hkept, ← hreplaced]
      unfold memText
      rw [hsplit, List.append_assoc, List.append_cancel_left_eq, List.append_assoc,
        List.append_cancel_left_eq, List.append_assoc]
    rw [hexact, hmem]
    constructor
    · exact fun hall => hall.1
    · intro hkeeps
      refine ⟨hkeeps, ?_⟩
      rw [← hkeeps.2]
      omega
  · rw [if_neg hother, multipNumbers_eq (strstr_memText h hother)]
    have hdrop : ("mem=".toList ++ (n ++ rest)).drop 4 = n ++ rest := rfl
    rw [hdrop, (takeWhile_digits h.number.2 h.ends).2]
    have hexact : (Except.ok (front ++ ("mem=".toList ++ (product a (n ++ rest) ++ rest))) :
          Run (List Char)) = .ok (memText front (Nat.toDigits 10 (a * digitsValue 10 n)) rest) ↔
        a * digitsValue 10 n < 2 ^ 63 := by
      rw [Except.ok.injEq, ← product_exact_iff ha h.number h.ends]
      unfold memText
      rw [List.append_cancel_left_eq, List.append_cancel_left_eq, List.append_cancel_right_eq]
    rw [hexact]
    unfold memText
    simp only [List.length_append]
    constructor
    · rintro ⟨hrange, hlength⟩
      exact ⟨hrange, by omega⟩
    · rintro ⟨hrange, hlength⟩
      exact ⟨hrange, by omega⟩

/-! ## The buffers of the chunks -/

section writes

variable {names : ℕ → List Char} {reqPpn : ℕ} {ns : List Char}

/-- The chunk of a run fits with so much room: the product has two digits more than the number at
most, and the name, the processors and the product together need no more than the room and the
digits of the number. -/
def RunFits (names : ℕ → List Char) (reqPpn : ℕ) (ns : List Char) (room : ℕ) (r : ℕ × ℕ) :
    Prop :=
  (product r.2 (behindMem ns)).length
      ≤ ((behindMem ns).takeWhile Char.isDigit).length + 2 ∧
    (names r.1).length + (printInt (r.2 * reqPpn : ℕ)).length
        + (product r.2 (behindMem ns)).length
      ≤ ((behindMem ns).takeWhile Char.isDigit).length + room

/-- All chunks of a plan fit: for a plus the others have one byte less than the first. -/
def RunsFit (names : ℕ → List Char) (reqPpn : ℕ) (ns : List Char) (room : ℕ) :
    List (ℕ × ℕ) → Prop
  | [] => True
  | r :: rs => RunFits names reqPpn ns room r ∧ RunsFit names reqPpn ns 37 rs

/-- The bytes of a multiplied text. -/
theorem multipNumbers_length {a : ℕ} {b multi : List Char}
    (h : multipNumbers keepFront a b = .ok multi) :
    multi.length + ((behindMem b).takeWhile Char.isDigit).length
      = b.length + (product a (behindMem b)).length := by
  cases hfind : strstr "mem=".toList b with
  | none =>
      unfold multipNumbers keepFront at h
      rw [hfind] at h
      cases h
  | some r =>
      obtain ⟨before, found⟩ := r
      obtain ⟨hb, behind, hbehind⟩ := strstr_some b hfind
      subst hbehind
      have hdrop : ("mem=".toList ++ behind).drop 4 = behind := rfl
      have hmem : behindMem b = behind := by
        unfold behindMem
        rw [hfind]
        rfl
      have hsplit := congrArg List.length
        (List.takeWhile_append_dropWhile (p := Char.isDigit) (l := behind))
      rw [multipNumbers_eq hfind, hdrop] at h
      cases h
      rw [hmem, hb]
      simp only [List.length_append] at hsplit ⊢
      omega

/-- The bytes of a chunk. -/
theorem length_chunkText (node numPpn : ℕ) (multi : List Char) :
    (chunkText names reqPpn node numPpn multi).length
      = 11 + (names node).length + (printInt (numPpn * reqPpn : ℕ)).length + multi.length := by
  unfold chunkText
  simp only [List.length_append]
  show 5 + _ + 5 + _ + 1 + _ = _
  omega

/-- The texts written for a run fit exactly if its chunk does. -/
theorem writeChunk_fits_iff {sch : Option (List Char)} {node numPpn : ℕ}
    {written : List Char × List BufferWrite}
    (h : writeChunk keepFront names reqPpn ns sch node numPpn = .ok written) :
    (∀ w ∈ written.2, w.Fits) ↔
      RunFits names reqPpn ns (if sch = none then 38 else 37) (node, numPpn) := by
  obtain ⟨multi, hmulti, h⟩ := bind_ok.mp h
  have hlength := multipNumbers_length hmulti
  have hchunk := @length_chunkText names reqPpn node numPpn multi
  unfold RunFits
  cases sch with
  | none =>
      cases h
      rw [List.forall_mem_cons, List.forall_mem_singleton, if_pos rfl]
      unfold BufferWrite.Fits
      dsimp only
      rw [hchunk]
      constructor
      · rintro ⟨hcopied, htext⟩
        omega
      · rintro ⟨hdigits, hroom⟩
        omega
  | some text =>
      cases h
      rw [List.forall_mem_cons, List.forall_mem_singleton, if_neg (Option.some_ne_none text)]
      unfold BufferWrite.Fits keepFront
      dsimp only
      rw [List.length_append, List.length_append, hchunk]
      have hplus : "+".toList.length = 1 := rfl
      rw [hplus]
      constructor
      · rintro ⟨hcopied, htext⟩
        omega
      · rintro ⟨hdigits, hroom⟩
        omega

/-- The texts written for runs fit exactly if all their chunks do. -/
theorem writeRuns_fits_iff {rs : List (ℕ × ℕ)} : ∀ {sch : Option (List Char)}
    {writes : List BufferWrite} {written : Option (List Char) × List BufferWrite},
    writeRuns names reqPpn ns rs (sch, writes) = .ok written →
    ((∀ w ∈ written.2, w.Fits) ↔ (∀ w ∈ writes, w.Fits) ∧
      RunsFit names reqPpn ns (if sch = none then 38 else 37) rs) := by
  induction rs with
  | nil =>
      intro sch writes written h
      cases h
      exact (and_iff_left trivial).symm
  | cons r rs ih =>
      intro sch writes written h
      obtain ⟨chunk, hchunk, h⟩ := bind_ok.mp h
      rw [ih h, List.forall_mem_append, writeChunk_fits_iff hchunk,
        if_neg (Option.some_ne_none chunk.1), and_assoc]
      rfl

/-- The texts of a plan fit exactly if all its chunks do. -/
theorem writes_fit_iff {fuel : ℕ} {isExclusive : Bool} {nodespec : List Char}
    {opening : NodespecStart} (hopening : tmpNsStart nodespec = .ok opening)
    (hns : removalLoop fuel opening.start = .ok ns) (hmem : "mem=".toList <:+: ns)
    (nodes : List ℕ) :
    (∃ created, jobCreateNodespec keepFront fuel names reqPpn isExclusive nodespec (nodes.map some)
        = .ok created ∧ ∀ w ∈ created.writes, w.Fits) ↔
      RunsFit names reqPpn ns 38 (runs nodes) := by
  by_cases hne : nodes = []
  · subst hne
    refine iff_of_true ⟨_, jobCreateNodespec_nil hopening hns, ?_⟩ trivial
    intro w hw
    cases hw
  · obtain ⟨writes, hwritten⟩ := @writeRuns_ok names reqPpn ns (runs nodes) (Or.inr hmem) none []
    have hfits := writeRuns_fits_iff hwritten
    rw [if_pos rfl, and_iff_right (List.forall_mem_nil _)] at hfits
    rw [jobCreateNodespec_eq hopening hns hne, hwritten, ← hfits]
    have hcreated : ∀ isExcl written, (∀ w ∈ (createdFrom isExcl nodes written).writes, w.Fits) ↔
        ∀ w ∈ written.2, w.Fits := by
      intro isExcl written
      unfold createdFrom
      cases isExcl with
      | false => rfl
      | true =>
          show (∀ w ∈ written.2 ++ [_], w.Fits) ↔ _
          rw [List.forall_mem_append, List.forall_mem_singleton, and_iff_left]
          -- `#excl` has its own bytes
          have hmark : "#excl".toList.length = 5 := rfl
          unfold BufferWrite.Fits
          dsimp only
          rw [List.length_append, hmark]
          omega
    constructor
    · rintro ⟨created, h, hall⟩
      cases h
      exact (hcreated _ _).mp hall
    · intro hall
      exact ⟨_, rfl, (hcreated _ _).mpr hall⟩

end writes

/-! ## The whole -/

/-- When the number of the resource is multiplied and everything else kept, in the bytes there
are; and when the texts of a plan fit their buffers. -/
theorem nodespec_writes_exact_iff {front n rest : List Char} (h : MemResource front n rest) :
    (∀ a, 1 ≤ a → (MultipliedExactly a front n rest ↔ ScalesExactly a front n)) ∧
    (∀ fuel names reqPpn isExclusive nodespec opening nodes,
      tmpNsStart nodespec = .ok opening →
      removalLoop fuel opening.start = .ok (memText front n rest) →
      ((∃ created,
        jobCreateNodespec keepFront fuel names reqPpn isExclusive nodespec (nodes.map some)
          = .ok created ∧ ∀ w ∈ created.writes, w.Fits) ↔
        RunsFit names reqPpn (memText front n rest) 38 (runs nodes))) := by
  constructor
  · exact fun a ha => multipliedExactly_iff h ha
  · intro fuel names reqPpn isExclusive nodespec opening nodes hopening hns
    refine writes_fit_iff hopening hns ?_ nodes
    exact List.infix_append' _ _ _

/-- Twice `mem=4`. -/
theorem nodespec_writes_exact_twice : MultipliedExactly 2 [] ['4'] [] :=
  ((nodespec_writes_exact_iff ⟨Or.inl rfl, ⟨by decide, by simp⟩, by simp⟩).1 2 (by decide)).mpr
    (by
      unfold ScalesExactly
      rw [if_neg (by decide)]
      exact ⟨by decide, by decide⟩)

/-- In `vmem=1:mem=1` the first number is multiplied; and in `1:mem=1` on a node with a name of
forty characters, the chunk has 58 bytes and its buffer 55. -/
theorem vmem_multiplied :
    (MemResource "vmem=1:".toList ['1'] [] ∧
      multipNumbers keepFront 2 "vmem=1:mem=1".toList = .ok "vmem=2:mem=1".toList ∧
      ¬ MultipliedExactly 2 "vmem=1:".toList ['1'] []) ∧
    (jobCreateNodespec keepFront 0 (fun _ => List.replicate 40 'n') 1 false "1:mem=1".toList
        [some 0]).map
        (fun created => created.writes) = .ok [⟨6, 8⟩, ⟨58, 55⟩] := by
  have hscaled : multipNumbers keepFront 2 "vmem=1:mem=1".toList = .ok "vmem=2:mem=1".toList := by
    decide +kernel
  refine ⟨⟨⟨Or.inr ⟨"vmem=1".toList, rfl⟩, ⟨by decide, by simp⟩, by simp⟩, hscaled, ?_⟩, ?_⟩
  · rintro ⟨hexact, _⟩
    have htext : memText "vmem=1:".toList ['1'] [] = "vmem=1:mem=1".toList := rfl
    rw [htext, hscaled] at hexact
    revert hexact
    decide +kernel
  · decide +kernel

end PlanSched.NodespecText
