/-
# Shortest runs, signed counts and first hits

Three patterns of a search in a list.  A run is an initial part of the list whose items join
one another; the shortest one of enough weight is found by extending the first item.  A
counter goes through signed amounts, is clamped at the number it has to reach, and is looked
at after each of them.  And the list is searched for the first place where a test of the
item and the items behind it succeeds.

* `shortest_iff`: the extension finds the shortest run, and fails only if there is none;
* `reaches_iff`: the clamped counter reaches the number exactly if an initial part of the
  amounts adds up to it;
* `FirstHit.weaken_iff`: what a search for a stronger test finds is the first place of a
  weaker one exactly if the stronger test succeeds there.

Trust base: `[propext, Classical.choice, Quot.sound]`.
-/
import Mathlib.Algebra.BigOperators.Group.List.Basic
import Mathlib.Algebra.Order.BigOperators.Group.List
import Mathlib.Data.List.Infix
import Mathlib.Tactic

namespace ShortestRun

/-! ## Runs -/

section Runs

variable {α : Type*} (weight : α → ℤ) (joins : α → α → Prop)

/-- `run` is the shortest initial part of `xs` that is joined and has enough weight. -/
structure IsShortest (needed : ℤ) (xs run : List α) : Prop where
  initial : run <+: xs
  nonempty : run ≠ []
  joined : run.IsChain joins
  enough : needed ≤ (run.map weight).sum
  shortest : ∀ part, part <+: run → part ≠ [] → part ≠ run → (part.map weight).sum < needed

variable [DecidableRel joins]

/-- The items that follow `previous`, until `total` and their weights are enough. -/
def extend (needed : ℤ) : α → List α → ℤ → Option (List α)
  | _, [], total => if needed ≤ total then some [] else none
  | previous, next :: behind, total =>
      if needed ≤ total then some []
      else if joins previous next then
        (extend needed next behind (total + weight next)).map (next :: ·)
      else none

/-- The shortest run of a list. -/
def shortestRun (needed : ℤ) : List α → Option (List α)
  | [] => none
  | first :: behind => (extend weight joins needed first behind (weight first)).map (first :: ·)

variable {weight joins} {needed : ℤ}

/-- Nothing is added to what is enough. -/
theorem extend_of_le {previous : α} {behind : List α} {total : ℤ} (h : needed ≤ total) :
    extend weight joins needed previous behind total = some [] := by
  cases behind with
  | nil => rw [extend, if_pos h]
  | cons next behind => rw [extend, if_pos h]

/-- What is enough already is extended by nothing. -/
theorem extend_iff_of_le {previous : α} {behind tail : List α} {total : ℤ}
    (hlong : needed ≤ total) :
    extend weight joins needed previous behind total = some tail ↔
      tail <+: behind ∧ (previous :: tail).IsChain joins ∧
        needed ≤ total + (tail.map weight).sum ∧
        ∀ part, part <+: tail → part ≠ tail → total + (part.map weight).sum < needed := by
  rw [extend_of_le hlong]
  constructor
  · intro h
    cases h
    refine ⟨List.nil_prefix, List.isChain_singleton _, by simpa using hlong, ?_⟩
    intro part hpart hne
    exact absurd (List.prefix_nil.mp hpart) hne
  · rintro ⟨-, -, -, hshortest⟩
    by_contra hne
    have := hshortest [] List.nil_prefix (fun h => hne (by rw [h]))
    simp only [List.map_nil, List.sum_nil, add_zero] at this
    omega

/-- What is not enough needs one more item. -/
theorem exists_cons_of_enough {tail : List α} {total : ℤ} (hshort : ¬ needed ≤ total)
    (henough : needed ≤ total + (tail.map weight).sum) : ∃ x t, tail = x :: t := by
  cases tail with
  | nil =>
      simp only [List.map_nil, List.sum_nil, add_zero] at henough
      exact absurd henough hshort
  | cons x t => exact ⟨x, t, rfl⟩

/-- What the extension adds: as few items as are enough. -/
theorem extend_iff (behind : List α) : ∀ {previous : α} {total : ℤ} {tail : List α},
    extend weight joins needed previous behind total = some tail ↔
      tail <+: behind ∧ (previous :: tail).IsChain joins ∧
        needed ≤ total + (tail.map weight).sum ∧
        ∀ part, part <+: tail → part ≠ tail → total + (part.map weight).sum < needed := by
  induction behind with
  | nil =>
      intro previous total tail
      by_cases hlong : needed ≤ total
      · exact extend_iff_of_le hlong
      · rw [extend, if_neg hlong]
        constructor
        · intro h
          cases h
        · rintro ⟨hinitial, -, henough, -⟩
          obtain ⟨x, t, rfl⟩ := exists_cons_of_enough hlong henough
          cases List.prefix_nil.mp hinitial
  | cons next behind ih =>
      intro previous total tail
      by_cases hlong : needed ≤ total
      · exact extend_iff_of_le hlong
      · -- one more item is needed, and it has to join
        rw [extend, if_neg hlong]
        by_cases hjoins : joins previous next
        · rw [if_pos hjoins, Option.map_eq_some_iff]
          constructor
          · rintro ⟨t, ht, rfl⟩
            obtain ⟨hinitial, hchain, henough, hshortest⟩ := ih.mp ht
            refine ⟨List.cons_prefix_cons.mpr ⟨rfl, hinitial⟩,
              List.isChain_cons_cons.mpr ⟨hjoins, hchain⟩, ?_, ?_⟩
            · rw [List.map_cons, List.sum_cons]
              omega
            · intro part hpart hne
              cases part with
              | nil =>
                  simp only [List.map_nil, List.sum_nil, add_zero]
                  omega
              | cons x part =>
                  rw [List.cons_prefix_cons] at hpart
                  obtain ⟨rfl, hpart⟩ := hpart
                  have := hshortest part hpart (fun h => hne (by rw [h]))
                  rw [List.map_cons, List.sum_cons]
                  omega
          · rintro ⟨hinitial, hchain, henough, hshortest⟩
            obtain ⟨x, t, rfl⟩ := exists_cons_of_enough hlong henough
            rw [List.cons_prefix_cons] at hinitial
            obtain ⟨rfl, hinitial⟩ := hinitial
            refine ⟨t, ih.mpr ⟨hinitial, (List.isChain_cons_cons.mp hchain).2, ?_, ?_⟩, rfl⟩
            · rw [List.map_cons, List.sum_cons] at henough
              omega
            · intro part hpart hne
              have := hshortest (x :: part) (List.cons_prefix_cons.mpr ⟨rfl, hpart⟩)
                (fun h => hne (List.cons.inj h).2)
              rw [List.map_cons, List.sum_cons] at this
              omega
        · rw [if_neg hjoins]
          constructor
          · intro h
            cases h
          · rintro ⟨hinitial, hchain, henough, -⟩
            obtain ⟨x, t, rfl⟩ := exists_cons_of_enough hlong henough
            obtain ⟨rfl, -⟩ := List.cons_prefix_cons.mp hinitial
            exact absurd (List.isChain_cons_cons.mp hchain).1 hjoins

/-- **The search by extension finds the shortest run, and fails only if there is none.** -/
theorem shortestRun_iff {xs run : List α} :
    shortestRun weight joins needed xs = some run ↔ IsShortest weight joins needed xs run := by
  cases xs with
  | nil =>
      constructor
      · intro h
        cases h
      · intro h
        exact absurd (List.prefix_nil.mp h.initial) h.nonempty
  | cons first behind =>
      rw [shortestRun, Option.map_eq_some_iff]
      constructor
      · rintro ⟨tail, htail, rfl⟩
        obtain ⟨hinitial, hchain, henough, hshortest⟩ := (extend_iff behind).mp htail
        refine ⟨List.cons_prefix_cons.mpr ⟨rfl, hinitial⟩, List.cons_ne_nil _ _, hchain, ?_, ?_⟩
        · rwa [List.map_cons, List.sum_cons]
        · intro part hpart hne hshort
          cases part with
          | nil => exact absurd rfl hne
          | cons x part =>
              rw [List.cons_prefix_cons] at hpart
              obtain ⟨rfl, hpart⟩ := hpart
              rw [List.map_cons, List.sum_cons]
              exact hshortest part hpart (fun h => hshort (by rw [h]))
      · intro h
        obtain ⟨hinitial, hnonempty, hchain, henough, hshortest⟩ := h
        cases run with
        | nil => exact absurd rfl hnonempty
        | cons x tail =>
            rw [List.cons_prefix_cons] at hinitial
            obtain ⟨rfl, hinitial⟩ := hinitial
            refine ⟨tail, (extend_iff behind).mpr ⟨hinitial, hchain, ?_, ?_⟩, rfl⟩
            · rwa [List.map_cons, List.sum_cons] at henough
            · intro part hpart hne
              have := hshortest (x :: part) (List.cons_prefix_cons.mpr ⟨rfl, hpart⟩)
                (List.cons_ne_nil _ _) (fun h => hne (List.cons.inj h).2)
              rwa [List.map_cons, List.sum_cons] at this

end Runs

/-! ## Signed counts -/

/-- The counter, clamped at `needed`, reaches it after one of the amounts. -/
def reaches (needed : ℤ) : ℤ → List ℤ → Bool
  | _, [] => false
  | total, amount :: amounts =>
      decide (needed ≤ total + amount) || reaches needed (min (total + amount) needed) amounts

/-- **The clamped counter reaches the number exactly if an initial part of the amounts adds
up to it.** -/
theorem reaches_iff {needed : ℤ} (amounts : List ℤ) : ∀ {total : ℤ}, total < needed →
    (reaches needed total amounts = true ↔
      ∃ part, part <+: amounts ∧ needed ≤ total + part.sum) := by
  induction amounts with
  | nil =>
      intro total hlt
      constructor
      · intro h
        cases h
      · rintro ⟨part, hpart, hsum⟩
        rw [List.prefix_nil.mp hpart, List.sum_nil] at hsum
        omega
  | cons amount amounts ih =>
      intro total hlt
      rw [reaches, Bool.or_eq_true, decide_eq_true_eq]
      by_cases hreach : needed ≤ total + amount
      · refine iff_of_true (Or.inl hreach) ⟨[amount], ?_, by simpa using hreach⟩
        exact List.cons_prefix_cons.mpr ⟨rfl, List.nil_prefix⟩
      · rw [or_iff_right hreach, min_eq_left (not_le.mp hreach).le, ih (not_le.mp hreach)]
        constructor
        · rintro ⟨part, hpart, hsum⟩
          refine ⟨amount :: part, List.cons_prefix_cons.mpr ⟨rfl, hpart⟩, ?_⟩
          rw [List.sum_cons]
          omega
        · rintro ⟨part, hpart, hsum⟩
          cases part with
          | nil =>
              rw [List.sum_nil] at hsum
              omega
          | cons x part =>
              rw [List.cons_prefix_cons] at hpart
              obtain ⟨rfl, hpart⟩ := hpart
              rw [List.sum_cons] at hsum
              exact ⟨part, hpart, by omega⟩

/-- A counter that reaches the number does so without the negative amounts. -/
theorem le_sum_of_reaches {needed : ℤ} (amounts : List ℤ) : ∀ {total : ℤ},
    reaches needed total amounts = true →
      needed ≤ total + (amounts.map (fun amount => max amount 0)).sum := by
  induction amounts with
  | nil =>
      intro total h
      cases h
  | cons amount amounts ih =>
      intro total h
      rw [List.map_cons, List.sum_cons]
      rw [reaches, Bool.or_eq_true, decide_eq_true_eq] at h
      have hrest : 0 ≤ (amounts.map (fun amount => max amount 0)).sum := by
        apply List.sum_nonneg
        intro x hx
        obtain ⟨y, -, rfl⟩ := List.mem_map.mp hx
        exact le_max_right _ _
      rcases h with h | h
      · omega
      · have := ih h
        omega

/-! ## First hits -/

section Hits

variable {α : Type*} {accepted weaker : α → List α → Prop}

/-- The first place of a list where the test succeeds: the longest such end of the list. -/
structure IsFirst (accepted : α → List α → Prop) (xs : List α) (x : α) (behind : List α) :
    Prop where
  suffix : x :: behind <:+ xs
  holds : accepted x behind
  first : ∀ y rest, y :: rest <:+ xs → accepted y rest → rest.length ≤ behind.length

/-- `found` is the item at the first place where the test succeeds, if there is one. -/
def FirstHit (accepted : α → List α → Prop) (xs : List α) : Option α → Prop
  | none => ∀ y rest, y :: rest <:+ xs → ¬ accepted y rest
  | some x => ∃ behind, IsFirst accepted xs x behind

/-- Nothing is found in an empty list. -/
theorem firstHit_nil : FirstHit accepted [] none := by
  intro y rest hsuffix
  cases List.suffix_nil.mp hsuffix

/-- The test succeeds at the first item. -/
theorem firstHit_here {x : α} {behind : List α} (h : accepted x behind) :
    FirstHit accepted (x :: behind) (some x) := by
  refine ⟨behind, List.suffix_rfl, h, ?_⟩
  intro y rest hsuffix _
  have := hsuffix.length_le
  rw [List.length_cons, List.length_cons] at this
  omega

/-- The test fails at the first item. -/
theorem firstHit_later {x : α} {behind : List α} {found : Option α} (h : ¬ accepted x behind)
    (hbehind : FirstHit accepted behind found) : FirstHit accepted (x :: behind) found := by
  have hsplit : ∀ y rest, y :: rest <:+ x :: behind → accepted y rest → y :: rest <:+ behind := by
    intro y rest hsuffix hy
    rcases List.suffix_cons_iff.mp hsuffix with heq | hsuffix
    · cases heq
      exact absurd hy h
    · exact hsuffix
  cases found with
  | none =>
      intro y rest hsuffix hy
      exact hbehind y rest (hsplit y rest hsuffix hy) hy
  | some z =>
      obtain ⟨rest, hsuffix, hz, hfirst⟩ := hbehind
      refine ⟨rest, hsuffix.trans (List.suffix_cons _ _), hz, ?_⟩
      intro y other hother hy
      exact hfirst y other (hsplit y other hother hy) hy

/-- In a list without repetitions an item has one place. -/
theorem behind_unique {xs : List α} (hnodup : xs.Nodup) {x : α} {behind behind' : List α}
    (h : x :: behind <:+ xs) (h' : x :: behind' <:+ xs) : behind = behind' := by
  obtain ⟨pre, rfl⟩ := h
  obtain ⟨pre', heq⟩ := h'
  have hpre : x ∉ pre := by
    intro hx
    exact (List.nodup_append.mp hnodup).2.2 x hx x List.mem_cons_self rfl
  have hbehind : x ∉ behind := (List.nodup_cons.mp (List.nodup_append.mp hnodup).2.1).1
  exact ((List.append_cons_inj_of_notMem hpre hbehind).mp heq.symm).2.2

/-- Where the test succeeds somewhere, there is a first place. -/
theorem exists_isFirst {xs : List α} (h : ∃ x behind, x :: behind <:+ xs ∧ accepted x behind) :
    ∃ x behind, IsFirst accepted xs x behind := by
  induction xs with
  | nil =>
      obtain ⟨x, behind, hsuffix, -⟩ := h
      cases List.suffix_nil.mp hsuffix
  | cons first xs ih =>
      by_cases hfirst : accepted first xs
      · obtain ⟨behind, hbehind⟩ := firstHit_here hfirst
        exact ⟨first, behind, hbehind⟩
      · have hlater : ∃ x behind, x :: behind <:+ xs ∧ accepted x behind := by
          obtain ⟨x, behind, hsuffix, hx⟩ := h
          rcases List.suffix_cons_iff.mp hsuffix with heq | hsuffix
          · cases heq
            exact absurd hx hfirst
          · exact ⟨x, behind, hsuffix, hx⟩
        obtain ⟨x, behind, hx⟩ := ih hlater
        have hfound : FirstHit accepted xs (some x) := ⟨behind, hx⟩
        obtain ⟨rest, hrest⟩ := firstHit_later hfirst hfound
        exact ⟨x, rest, hrest⟩

/-- **What a search for a stronger test finds is the first place of a weaker one exactly if
the stronger test succeeds at that place.** -/
theorem FirstHit.weaken_iff {xs : List α} {found : Option α} (hnodup : xs.Nodup)
    (hweaker : ∀ x behind, x :: behind <:+ xs → accepted x behind → weaker x behind)
    (h : FirstHit accepted xs found) :
    FirstHit weaker xs found ↔
      ∀ x behind, IsFirst weaker xs x behind → accepted x behind := by
  constructor
  · intro hfound x behind hx
    cases found with
    | none => exact absurd hx.holds (hfound x behind hx.suffix)
    | some z =>
        obtain ⟨rest, hz⟩ := h
        obtain ⟨rest', hz'⟩ := hfound
        obtain rfl := behind_unique hnodup hz.suffix hz'.suffix
        -- both are first places of the weaker test
        have hlength : behind.length = rest.length :=
          le_antisymm (hz'.first x behind hx.suffix hx.holds)
            (hx.first z rest hz'.suffix hz'.holds)
        have heq : x :: behind = z :: rest :=
          (List.suffix_of_suffix_length_le hx.suffix hz.suffix
            (by rw [List.length_cons, List.length_cons, hlength])).eq_of_length
            (by rw [List.length_cons, List.length_cons, hlength])
        cases heq
        exact hz.holds
  · intro hall
    cases found with
    | none =>
        by_contra hsome
        unfold FirstHit at hsome
        push Not at hsome
        obtain ⟨x, behind, hx⟩ := exists_isFirst hsome
        exact h x behind hx.suffix (hall x behind hx)
    | some z =>
        obtain ⟨rest, hz⟩ := h
        have hz' := hweaker z rest hz.suffix hz.holds
        obtain ⟨x, behind, hx⟩ := exists_isFirst ⟨z, rest, hz.suffix, hz'⟩
        refine ⟨rest, hz.suffix, hz', ?_⟩
        intro y other hother hy
        have hle := hz.first x behind hx.suffix (hall x behind hx)
        exact (hx.first y other hother hy).trans hle

end Hits

end ShortestRun
