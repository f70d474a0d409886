/-
# Searching and deleting in texts

A library for `strstr`, `strchr` and the deletion of every occurrence of a text in another
one.  A search splits the text at the place it finds.  Nothing here names the scheduler; the
characters may be of any type with decidable equality.

* `strstr_append`, `strstr_le`, `strstr_none_iff`: where the first occurrence is, and when
  there is none;
* `strchr_append`, `strchr_none_iff`: the same for one character;
* `replace_congr`: when two texts with two replacements agree;
* `removeAll_append`, `removeAll_prefix`: the deletion goes from the front to the end.

Trust base: `[propext, Classical.choice, Quot.sound]`.
-/
import Mathlib.Data.List.Infix
import Mathlib.Tactic

namespace TextSearch

variable {α : Type*} [DecidableEq α]

/-! ## Searching -/

/-- `strstr`: what stands in front of the first occurrence, and the text from it on. -/
def strstr (pat : List α) : List α → Option (List α × List α)
  | [] => if pat = [] then some ([], []) else none
  | a :: s =>
      if pat <+: a :: s then some ([], a :: s)
      else (strstr pat s).map (fun r => (a :: r.1, r.2))

/-- `strchr`, split in the same way. -/
def strchr (c : α) (s : List α) : Option (List α × List α) := strstr [c] s

/-- A search splits the text, at an occurrence. -/
theorem strstr_some {pat : List α} (s : List α) : ∀ {before found : List α},
    strstr pat s = some (before, found) → s = before ++ found ∧ pat <+: found := by
  induction s with
  | nil =>
      intro before found h
      rw [strstr] at h
      split at h
      · next hpat =>
          cases h
          exact ⟨rfl, hpat ▸ List.nil_prefix⟩
      · cases h
  | cons a s ih =>
      intro before found h
      rw [strstr] at h
      split at h
      · next hpre =>
          cases h
          exact ⟨rfl, hpre⟩
      · obtain ⟨⟨before', found'⟩, hfind, hr⟩ := Option.map_eq_some_iff.mp h
        cases hr
        obtain ⟨hsplit, hpre⟩ := ih hfind
        exact ⟨by rw [hsplit]; rfl, hpre⟩

/-- The text does not start anywhere in the first part. -/
def NotIn (pat front behind : List α) : Prop :=
  ∀ skipped a rest, front = skipped ++ a :: rest → ¬ pat <+: a :: (rest ++ behind)

omit [DecidableEq α] in
theorem NotIn.tail {pat front behind : List α} {a : α} (h : NotIn pat (a :: front) behind) :
    NotIn pat front behind :=
  fun skipped b rest hsplit => h (a :: skipped) b rest (by rw [hsplit]; rfl)

omit [DecidableEq α] in
/-- A text whose first character is not in the first part does not start there. -/
theorem NotIn.of_notMem {pat front : List α} {c : α} (hc : c ∉ front) (behind : List α) :
    NotIn (c :: pat) front behind := by
  intro skipped a rest hsplit hpre
  rw [List.cons_prefix_cons] at hpre
  rw [hsplit, ← hpre.1] at hc
  exact hc (List.mem_append_right _ List.mem_cons_self)

omit [DecidableEq α] in
/-- A first part without the text, which ends with a character that the text does not have. -/
theorem NotIn.of_stop {pat front : List α} {c : α} (hc : c ∉ pat)
    (h : ¬ pat <:+: front ++ [c]) (behind : List α) : NotIn pat (front ++ [c]) behind := by
  intro skipped a rest hsplit hpre
  rw [← List.cons_append] at hpre
  rcases le_total pat.length (a :: rest).length with hle | hle
  · have hinside : pat <+: a :: rest :=
      List.prefix_of_prefix_length_le hpre (List.prefix_append _ _) hle
    refine h (hinside.isInfix.trans ?_)
    rw [hsplit]
    exact (List.suffix_append _ _).isInfix
  · -- the text would reach over the character
    have hover : a :: rest <+: pat :=
      List.prefix_of_prefix_length_le (List.prefix_append _ _) hpre hle
    refine hc (hover.subset ?_)
    have hlast := congrArg List.getLast? hsplit
    rw [List.getLast?_concat, List.getLast?_append_of_ne_nil _ (List.cons_ne_nil a rest)] at hlast
    exact List.mem_of_getLast? hlast.symm

/-- What is found is found with more text behind it. -/
theorem strstr_some_append {pat : List α} (s more : List α) : ∀ {before found : List α},
    strstr pat s = some (before, found) →
      strstr pat (s ++ more) = some (before, found ++ more) := by
  induction s with
  | nil =>
      intro before found h
      rw [strstr] at h
      split at h
      · next hpat =>
          cases h
          subst hpat
          cases more <;> simp [strstr]
      · cases h
  | cons a s ih =>
      intro before found h
      rw [strstr] at h
      rw [List.cons_append, strstr]
      split at h
      · next hpre =>
          cases h
          have hlong : pat <+: a :: (s ++ more) := hpre.trans (List.prefix_append (a :: s) more)
          rw [if_pos hlong]
          rfl
      · next hpre =>
          obtain ⟨⟨before', found'⟩, hfind, hr⟩ := Option.map_eq_some_iff.mp h
          cases hr
          have hno : ¬ pat <+: a :: (s ++ more) := by
            intro hlong
            refine hpre (List.prefix_of_prefix_length_le hlong
              (List.prefix_append (a :: s) more) ?_)
            obtain ⟨hsplit, hin⟩ := strstr_some s hfind
            have := hin.length_le
            rw [List.length_cons, hsplit, List.length_append]
            omega
          rw [if_neg hno, ih hfind]
          rfl

/-- The search goes past a first part in which the text does not start. -/
theorem strstr_notIn {pat : List α} (front : List α) {behind : List α}
    (h : NotIn pat front behind) :
    strstr pat (front ++ behind) = (strstr pat behind).map (fun r => (front ++ r.1, r.2)) := by
  induction front with
  | nil => exact Option.map_id'.symm
  | cons a front ih =>
      rw [List.cons_append, strstr, if_neg (h [] a front rfl), ih h.tail, Option.map_map]
      rfl

/-- The first occurrence. -/
theorem strstr_append {pat : List α} (front : List α) {found : List α} (hfound : pat <+: found)
    (h : NotIn pat front found) : strstr pat (front ++ found) = some (front, found) := by
  have hhere : strstr pat found = some ([], found) := by
    cases found with
    | nil => rw [strstr, if_pos (List.prefix_nil.mp hfound)]
    | cons b found => rw [strstr, if_pos hfound]
  rw [strstr_notIn front h, hhere, Option.map_some, List.append_nil]

/-- Nothing is found exactly if the text does not occur. -/
theorem strstr_none_iff {pat : List α} (s : List α) : strstr pat s = none ↔ ¬ pat <:+: s := by
  induction s with
  | nil =>
      rw [strstr, List.infix_nil]
      split
      · next hpat => exact iff_of_false (by simp) (not_not.mpr hpat)
      · next hpat => exact iff_of_true rfl hpat
  | cons a s ih =>
      rw [strstr, List.infix_cons_iff]
      split
      · next hpre => exact iff_of_false (by simp) (not_not.mpr (Or.inl hpre))
      · next hpre =>
          rw [Option.map_eq_none_iff, ih, not_or]
          exact ⟨fun hnot => ⟨hpre, hnot⟩, fun hnot => hnot.2⟩

/-- What is found stands in front of every other occurrence. -/
theorem strstr_le {pat : List α} (s : List α) : ∀ {before found front behind : List α},
    strstr pat s = some (before, found) → s = front ++ (pat ++ behind) →
      before.length ≤ front.length := by
  induction s with
  | nil =>
      intro before found front behind h _
      have hnil := (strstr_some [] h).1
      rw [(List.append_eq_nil_iff.mp hnil.symm).1]
      exact Nat.zero_le _
  | cons a s ih =>
      intro before found front behind h hsplit
      rw [strstr] at h
      split at h
      · cases h
        exact Nat.zero_le _
      · next hpre =>
          obtain ⟨⟨before', found'⟩, hfind, hr⟩ := Option.map_eq_some_iff.mp h
          cases hr
          cases front with
          | nil => exact absurd ⟨behind, hsplit.symm⟩ hpre
          | cons b front =>
              rw [List.cons_append, List.cons.injEq] at hsplit
              have hle := ih hfind hsplit.2
              simpa using hle

/-- The first occurrence of a character. -/
theorem strchr_append {c : α} {front : List α} (hc : c ∉ front) (behind : List α) :
    strchr c (front ++ c :: behind) = some (front, c :: behind) :=
  strstr_append front ((List.cons_prefix_cons).mpr ⟨rfl, List.nil_prefix⟩)
    (NotIn.of_notMem hc _)

/-- A character that is not there. -/
theorem strchr_none_iff {c : α} {s : List α} : strchr c s = none ↔ c ∉ s := by
  unfold strchr
  rw [strstr_none_iff, List.singleton_infix_iff]

/-! ## Replacing -/

omit [DecidableEq α] in
/-- A text that follows itself behind other characters has only such characters. -/
theorem forall_of_append_eq {p : α → Prop} {front : List α} (hne : front ≠ [])
    (hfront : ∀ c ∈ front, p c) (n : ℕ) : ∀ {s behind behind' : List α}, s.length = n →
      front ++ (s ++ behind) = s ++ behind' → ∀ c ∈ s, p c := by
  induction n using Nat.strong_induction_on with
  | _ n ih =>
      intro s behind behind' hlength h
      rcases List.append_eq_append_iff.mp h with ⟨rest, hs, hrest⟩ | ⟨rest, hs, _⟩
      · subst hs
        have hshorter : rest.length < n := by
          have := List.length_pos_of_ne_nil hne
          rw [← hlength, List.length_append]
          omega
        rw [List.append_assoc] at hrest
        intro c hc
        rcases List.mem_append.mp hc with hc | hc
        · exact hfront c hc
        · exact ih rest.length hshorter rfl hrest c hc
      · intro c hc
        refine hfront c ?_
        rw [hs]
        exact List.mem_append_left _ hc

omit [DecidableEq α] in
/-- Two replacements around a text with a character of another kind agree one by one. -/
theorem replace_congr {p : α → Prop} {s₁ s₂ marked t₁ t₂ : List α} (h₁ : ∀ c ∈ s₁, p c)
    (h₂ : ∀ c ∈ s₂, p c) (hmark : ∃ c ∈ marked, ¬ p c) :
    s₁ ++ (marked ++ t₁) = s₂ ++ (marked ++ t₂) ↔ s₁ = s₂ ∧ t₁ = t₂ := by
  obtain ⟨mark, hmem, hnot⟩ := hmark
  constructor
  · intro h
    rcases List.append_eq_append_iff.mp h with ⟨rest, hs, hrest⟩ | ⟨rest, hs, hrest⟩
    · have hnil : rest = [] := by
        by_contra hne
        refine hnot (forall_of_append_eq hne (fun c hc => h₂ c ?_) _ rfl hrest.symm mark hmem)
        rw [hs]
        exact List.mem_append_right _ hc
      subst hnil
      exact ⟨(hs.trans (List.append_nil s₁)).symm, List.append_cancel_left hrest⟩
    · have hnil : rest = [] := by
        by_contra hne
        refine hnot (forall_of_append_eq hne (fun c hc => h₁ c ?_) _ rfl hrest.symm mark hmem)
        rw [hs]
        exact List.mem_append_right _ hc
      subst hnil
      exact ⟨hs.trans (List.append_nil s₂), (List.append_cancel_left hrest).symm⟩
  · rintro ⟨rfl, rfl⟩
    rfl

/-! ## Deleting -/

/-- The loop that deletes each occurrence and goes on at the same place. -/
def removeAll (pat s : List α) : List α :=
  match _hfind : strstr pat s with
  | none => s
  | some (before, found) =>
      if _hpat : pat = [] then s else before ++ removeAll pat (found.drop pat.length)
termination_by s.length
decreasing_by
  obtain ⟨rfl, hpre⟩ := strstr_some s _hfind
  have hpos := List.length_pos_of_ne_nil _hpat
  have hle := hpre.length_le
  rw [List.length_drop, List.length_append]
  omega

/-- Without an occurrence nothing is deleted. -/
theorem removeAll_of_none {pat s : List α} (h : strstr pat s = none) : removeAll pat s = s := by
  rw [removeAll.eq_def]
  split
  · rfl
  · next hsome => rw [h] at hsome; cases hsome

/-- The next occurrence is deleted. -/
theorem removeAll_of_some {pat s before found : List α} (hpat : pat ≠ [])
    (h : strstr pat s = some (before, found)) :
    removeAll pat s = before ++ removeAll pat (found.drop pat.length) := by
  rw [removeAll.eq_def]
  split
  · next hnone => rw [h] at hnone; cases hnone
  · next hsome =>
      rw [h] at hsome
      cases hsome
      rw [dif_neg hpat]

/-- A first part in which the text does not start is kept. -/
theorem removeAll_append {pat front behind : List α} (hpat : pat ≠ [])
    (h : NotIn pat front behind) : removeAll pat (front ++ behind)
      = front ++ removeAll pat behind := by
  have hfront := strstr_notIn front h
  cases hfind : strstr pat behind with
  | none =>
      rw [hfind] at hfront
      rw [removeAll_of_none hfind, removeAll_of_none hfront]
  | some r =>
      rw [hfind] at hfront
      rw [removeAll_of_some hpat hfind, removeAll_of_some hpat hfront, List.append_assoc]

/-- An occurrence at the front is deleted. -/
theorem removeAll_prefix {pat : List α} (hpat : pat ≠ []) (behind : List α) :
    removeAll pat (pat ++ behind) = removeAll pat behind := by
  have hfind : strstr pat (pat ++ behind) = some ([], pat ++ behind) := by
    refine strstr_append [] (List.prefix_append _ _) ?_
    intro skipped a rest hsplit
    have := congrArg List.length hsplit
    simp at this
  rw [removeAll_of_some hpat hfind, List.nil_append, List.drop_left]

end TextSearch
