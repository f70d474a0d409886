/-
# Strict weak orders and comparators

A library for comparators as sorting algorithms want them.  Nothing here names the scheduler.

* `StrictWeakOn s lt` is what `std::sort` asks of a comparator on the elements of `s`, and
  `strictWeakOn_iff` the same as asymmetry and negative transitivity;
* `StrictWeakOn.exists_sorted` and `sorted_unique`: then lists can be sorted, and in one way only if
  no two elements are tied;
* `StrictWeakOn.ofRank`: comparing by a value in a linear order is one (`cascade_iff` reads such a
  comparison off a cascade of early returns), `StrictWeakOn.thenBy` and
  `lexOrder_strictWeakOn`: so are two, or any number of them, one after the other;
* `thenBy_partial_iff`: what becomes of a chain with a key that some elements do not have.

Trust base: `[propext, Classical.choice, Quot.sound]`.
-/
import Mathlib

namespace WeakOrders

variable {α β : Type} {s : Set α} {lt first second : α → α → Prop}

/-! ## Strict weak orders on a set -/

/-- Neither is before the other. -/
def Tied (lt : α → α → Prop) (a b : α) : Prop := ¬ lt a b ∧ ¬ lt b a

/-- The comparator is a strict weak order on the elements of the set. -/
structure StrictWeakOn (s : Set α) (lt : α → α → Prop) : Prop where
  irrefl : ∀ a ∈ s, ¬ lt a a
  trans : ∀ a ∈ s, ∀ b ∈ s, ∀ c ∈ s, lt a b → lt b c → lt a c
  tied_trans : ∀ a ∈ s, ∀ b ∈ s, ∀ c ∈ s, Tied lt a b → Tied lt b c → Tied lt a c

variable {a b c : α}

/-- Being tied has no direction. -/
theorem Tied.symm (h : Tied lt a b) : Tied lt b a := ⟨h.2, h.1⟩

/-- What is before another is not behind it. -/
theorem StrictWeakOn.asymm (h : StrictWeakOn s lt) (ha : a ∈ s) (hb : b ∈ s) (hab : lt a b) :
    ¬ lt b a :=
  fun hba => h.irrefl a ha (h.trans a ha b hb a ha hab hba)

/-- Between two elements in order there is no third one that is tied with both. -/
theorem StrictWeakOn.split (h : StrictWeakOn s lt) (ha : a ∈ s) (hb : b ∈ s) (hc : c ∈ s)
    (hac : lt a c) : lt a b ∨ lt b c := by
  by_contra hnone
  rw [not_or] at hnone
  obtain ⟨hab, hbc⟩ := hnone
  by_cases hba : lt b a
  · exact hbc (h.trans b hb a ha c hc hba hac)
  · by_cases hcb : lt c b
    · exact hab (h.trans a ha c hc b hb hac hcb)
    · exact (h.tied_trans a ha b hb c hc ⟨hab, hba⟩ ⟨hbc, hcb⟩).1 hac

/-- A comparator is a strict weak order if it is asymmetric and negatively transitive. -/
theorem strictWeakOn_iff :
    StrictWeakOn s lt ↔ (∀ a ∈ s, ∀ b ∈ s, lt a b → ¬ lt b a) ∧
      ∀ a ∈ s, ∀ b ∈ s, ∀ c ∈ s, lt a c → lt a b ∨ lt b c := by
  constructor
  · intro h
    exact ⟨fun a ha b hb => h.asymm ha hb, fun a ha b hb c hc => h.split ha hb hc⟩
  · rintro ⟨hasymm, hsplit⟩
    refine ⟨?_, ?_, ?_⟩
    · exact fun a ha haa => hasymm a ha a ha haa haa
    · intro a ha b hb c hc hab hbc
      rcases hsplit a ha c hc b hb hab with hac | hcb
      · exact hac
      · exact absurd hcb (hasymm b hb c hc hbc)
    · intro a ha b hb c hc hab hbc
      constructor
      · intro hac
        rcases hsplit a ha b hb c hc hac with h | h
        · exact hab.1 h
        · exact hbc.1 h
      · intro hca
        rcases hsplit c hc b hb a ha hca with h | h
        · exact hbc.2 h
        · exact hab.2 h

/-- Comparing by a value in a linear order. -/
theorem StrictWeakOn.ofRank [LinearOrder β] (rank : α → β)
    (h : ∀ a ∈ s, ∀ b ∈ s, lt a b ↔ rank a < rank b) : StrictWeakOn s lt := by
  rw [strictWeakOn_iff]
  constructor
  · intro a ha b hb hab hba
    rw [h a ha b hb] at hab
    rw [h b hb a ha] at hba
    exact lt_asymm hab hba
  · intro a ha b hb c hc hac
    rw [h a ha c hc] at hac
    rw [h a ha b hb, h b hb c hc]
    rcases lt_or_ge (rank a) (rank b) with hlt | hge
    · exact Or.inl hlt
    · exact Or.inr (lt_of_le_of_lt hge hac)

/-- Two early returns of a cascade: the rest counts where the values are equal. -/
theorem cascade_iff [LinearOrder β] {x y : β} {rest : Bool} :
    (if x < y then true else if y < x then false else rest) = true
      ↔ x < y ∨ (x = y ∧ rest = true) := by
  rcases lt_trichotomy x y with h | h | h
  · rw [if_pos h]
    exact iff_of_true rfl (Or.inl h)
  · rw [h, if_neg (lt_irrefl y), if_neg (lt_irrefl y), or_iff_right (lt_irrefl y),
      and_iff_right rfl]
  · rw [if_neg (lt_asymm h), if_pos h, or_iff_right (lt_asymm h)]
    exact iff_of_false Bool.false_ne_true (fun heq => (ne_of_gt h) heq.1)

/-- Only what the comparator says on the set matters. -/
theorem StrictWeakOn.congr {lt' : α → α → Prop}
    (h : ∀ a ∈ s, ∀ b ∈ s, (lt a b ↔ lt' a b)) : StrictWeakOn s lt ↔ StrictWeakOn s lt' := by
  rw [strictWeakOn_iff, strictWeakOn_iff]
  refine and_congr ?_ ?_
  · refine forall₂_congr (fun a ha => forall₂_congr (fun b hb => ?_))
    rw [h a ha b hb, h b hb a ha]
  · refine forall₂_congr (fun a ha => forall₂_congr (fun b hb => forall₂_congr (fun c hc => ?_)))
    rw [h a ha c hc, h a ha b hb, h b hb c hc]

/-- Every list of such elements can be sorted. -/
theorem StrictWeakOn.exists_sorted (h : StrictWeakOn s lt) {l : List α} (hl : ∀ a ∈ l, a ∈ s) :
    ∃ sorted : List α, sorted.Perm l ∧ sorted.Pairwise (fun a b => ¬ lt b a) := by
  classical
  let le : {a // a ∈ s} → {a // a ∈ s} → Bool := fun a b => decide (¬ lt b.1 a.1)
  refine ⟨((l.attachWith (· ∈ s) hl).mergeSort le).map Subtype.val, ?_, ?_⟩
  · have hperm := (List.mergeSort_perm (l.attachWith (· ∈ s) hl) le).map Subtype.val
    rwa [List.attachWith_map_subtype_val] at hperm
  · rw [List.pairwise_map]
    have hsorted : ((l.attachWith (· ∈ s) hl).mergeSort le).Pairwise (fun a b => le a b = true) :=
      List.pairwise_mergeSort ?_ ?_ _
    · exact hsorted.imp (fun hle => of_decide_eq_true hle)
    · intro a b c hab hbc
      refine decide_eq_true (fun hca => ?_)
      rcases h.split c.2 b.2 a.2 hca with hless | hless
      · exact of_decide_eq_true hbc hless
      · exact of_decide_eq_true hab hless
    · intro a b
      rw [Bool.or_eq_true, decide_eq_true_iff, decide_eq_true_iff]
      by_cases hba : lt b.1 a.1
      · exact Or.inr (h.asymm b.2 a.2 hba)
      · exact Or.inl hba

/-- There is one way only where no two elements are tied. -/
theorem sorted_unique {l l' : List α} (hperm : l.Perm l')
    (htotal : ∀ a ∈ l, ∀ b ∈ l, a ≠ b → lt a b ∨ lt b a)
    (hl : l.Pairwise (fun a b => ¬ lt b a)) (hl' : l'.Pairwise (fun a b => ¬ lt b a)) : l = l' := by
  refine List.Perm.eq_of_pairwise (fun a b ha hb hab hba => ?_) hl hl' hperm
  by_contra hne
  rcases htotal a ha b (hperm.mem_iff.mpr hb) hne with hless | hless
  · exact hba hless
  · exact hab hless

/-! ## One comparator after the other -/

/-- By the first comparator, and where it decides nothing by the second. -/
def thenBy (first second : α → α → Prop) (a b : α) : Prop :=
  first a b ∨ (¬ first b a ∧ second a b)

/-- Where the first comparator is tied the second decides. -/
theorem thenBy_of_tied (h : Tied first a b) : thenBy first second a b ↔ second a b := by
  unfold thenBy
  rw [or_iff_right h.1, and_iff_right h.2]

/-- The second comparator matters only where the first is tied. -/
theorem thenBy_congr {second' : α → α → Prop} (h : Tied first a b → (second a b ↔ second' a b)) :
    thenBy first second a b ↔ thenBy first second' a b := by
  unfold thenBy
  by_cases hab : first a b
  · exact iff_of_true (Or.inl hab) (Or.inl hab)
  · rw [or_iff_right hab, or_iff_right hab]
    exact and_congr_right (fun hba => h ⟨hab, hba⟩)

/-- Where the first comparator decides about one of the two neighbours, it splits alone. -/
theorem StrictWeakOn.first_split (hfirst : StrictWeakOn s first) (ha : a ∈ s) (hb : b ∈ s)
    (hc : c ∈ s) (hac : WeakOrders.thenBy first second a c)
    (hfar : ¬ (Tied first a b ∧ Tied first b c)) : first a b ∨ first b c := by
  by_cases hlt : first a c
  · exact hfirst.split ha hb hc hlt
  · have hnca : ¬ first c a := fun hca => by
      rcases hac with hac | ⟨hnca, _⟩
      · exact hlt hac
      · exact hnca hca
    by_contra hnone
    rw [not_or] at hnone
    refine hfar ⟨⟨hnone.1, fun hba => ?_⟩, ⟨hnone.2, fun hcb => ?_⟩⟩
    · rcases hfirst.split hb hc ha hba with h | h
      · exact hnone.2 h
      · exact hnca h
    · rcases hfirst.split hc ha hb hcb with h | h
      · exact hnca h
      · exact hnone.1 h

/-- A chain is asymmetric if its parts are. -/
theorem thenBy_asymm (hfirst : first a b → ¬ first b a) (hsecond : second a b → ¬ second b a)
    (hab : thenBy first second a b) : ¬ thenBy first second b a := by
  rintro (hba | ⟨hnab, hba⟩)
  · rcases hab with hab | ⟨hnba, _⟩
    · exact hfirst hab hba
    · exact hnba hba
  · rcases hab with hab | ⟨_, hab⟩
    · exact hnab hab
    · exact hsecond hab hba

/-- Two strict weak orders one after the other are one. -/
theorem StrictWeakOn.thenBy (hfirst : StrictWeakOn s first) (hsecond : StrictWeakOn s second) :
    StrictWeakOn s (thenBy first second) := by
  rw [strictWeakOn_iff]
  constructor
  · exact fun a ha b hb => thenBy_asymm (hfirst.asymm ha hb) (hsecond.asymm ha hb)
  · intro a ha b hb c hc hac
    by_cases htied : Tied first a b ∧ Tied first b c
    · rw [thenBy_of_tied (hfirst.tied_trans a ha b hb c hc htied.1 htied.2)] at hac
      rw [thenBy_of_tied htied.1, thenBy_of_tied htied.2]
      exact hsecond.split ha hb hc hac
    · rcases hfirst.first_split ha hb hc hac htied with h | h
      · exact Or.inl (Or.inl h)
      · exact Or.inr (Or.inl h)

/-- Any number of comparators, one after the other. -/
def lexOrder : List (α → α → Prop) → α → α → Prop
  | [] => fun _ _ => False
  | lt :: rest => thenBy lt (lexOrder rest)

/-- Any number of strict weak orders one after the other are one. -/
theorem lexOrder_strictWeakOn {keys : List (α → α → Prop)}
    (h : ∀ lt ∈ keys, StrictWeakOn s lt) : StrictWeakOn s (lexOrder keys) := by
  induction keys with
  | nil => exact ⟨fun _ _ h => h, fun _ _ _ _ _ _ h _ => h, fun _ _ _ _ _ _ _ _ => ⟨id, id⟩⟩
  | cons lt keys ih =>
      rw [List.forall_mem_cons] at h
      exact h.1.thenBy (ih h.2)

/-- A chain goes on where its front is tied. -/
theorem lexOrder_append (front rest : List (α → α → Prop)) :
    lexOrder (front ++ rest) a b ↔ thenBy (lexOrder front) (lexOrder rest) a b := by
  induction front with
  | nil => exact ⟨fun h => Or.inr ⟨id, h⟩, fun h => h.resolve_left id |>.2⟩
  | cons lt front ih =>
      rw [List.cons_append, lexOrder, lexOrder]
      unfold thenBy at ih ⊢
      rw [ih]
      tauto

/-- Comparators that decide nothing can be left out. -/
theorem lexOrder_filter {key : β → α → α → Prop} {keys : List β} {p : β → Bool}
    (h : ∀ k ∈ keys, ¬ p k = true → Tied (key k) a b) :
    lexOrder ((keys.filter p).map key) a b ↔ lexOrder (keys.map key) a b := by
  induction keys with
  | nil => exact Iff.rfl
  | cons k keys ih =>
      rw [List.forall_mem_cons] at h
      by_cases hp : p k = true
      · rw [List.filter_cons_of_pos hp, List.map_cons, List.map_cons, lexOrder, lexOrder]
        unfold thenBy
        rw [ih h.2]
      · rw [List.filter_cons_of_neg hp, ih h.2, List.map_cons, lexOrder, thenBy_of_tied (h.1 hp)]

/-! ## A key that some elements do not have -/

/-- A comparator that is a strict weak order on the elements that have the key, and decides nothing
about the others. -/
structure PartialKey (s : Set α) (has : α → Prop) (lt : α → α → Prop) : Prop where
  order : StrictWeakOn {a | a ∈ s ∧ has a} lt
  left : ∀ a b, lt a b → has a
  right : ∀ a b, lt a b → has b

/-- Between two strict weak orders such a comparator leaves one exactly if no element without the
key stands, by the last, between two that the key puts in the other order, all three tied by the
first. -/
theorem thenBy_partial_iff {has : α → Prop} {key : α → α → Prop} (hfirst : StrictWeakOn s first)
    (hkey : PartialKey s has key) (hsecond : StrictWeakOn s second) :
    StrictWeakOn s (thenBy first (thenBy key second)) ↔
      ∀ a ∈ s, ∀ b ∈ s, ∀ c ∈ s, ¬ has b → key a c → Tied first a b → Tied first b c →
        second a b ∨ second b c := by
  have hkeyless : ∀ {a b}, ¬ has a ∨ ¬ has b → Tied key a b := by
    rintro a b (h | h)
    · exact ⟨fun hab => h (hkey.left a b hab), fun hba => h (hkey.right b a hba)⟩
    · exact ⟨fun hab => h (hkey.right a b hab), fun hba => h (hkey.left b a hba)⟩
  constructor
  · intro h a ha b hb c hc hnone hac hab hbc
    have htied := hfirst.tied_trans a ha b hb c hc hab hbc
    have hless : thenBy first (thenBy key second) a c :=
      (thenBy_of_tied htied).mpr (Or.inl hac)
    rcases h.split ha hb hc hless with hless | hless
    · rw [thenBy_of_tied hab, thenBy_of_tied (hkeyless (Or.inr hnone))] at hless
      exact Or.inl hless
    · rw [thenBy_of_tied hbc, thenBy_of_tied (hkeyless (Or.inl hnone))] at hless
      exact Or.inr hless
  · intro h
    rw [strictWeakOn_iff]
    constructor
    · intro a ha b hb
      refine thenBy_asymm (hfirst.asymm ha hb) (thenBy_asymm ?_ (hsecond.asymm ha hb))
      exact fun hab => hkey.order.asymm ⟨ha, hkey.left a b hab⟩ ⟨hb, hkey.right a b hab⟩ hab
    · intro a ha b hb c hc hac
      by_cases htied : Tied first a b ∧ Tied first b c
      · obtain ⟨hab, hbc⟩ := htied
        have htac := hfirst.tied_trans a ha b hb c hc hab hbc
        rw [thenBy_of_tied htac] at hac
        rw [thenBy_of_tied hab, thenBy_of_tied hbc]
        by_cases hkac : key a c
        · by_cases hasb : has b
          · rcases hkey.order.split ⟨ha, hkey.left a c hkac⟩ ⟨hb, hasb⟩
              ⟨hc, hkey.right a c hkac⟩ hkac with hless | hless
            · exact Or.inl (Or.inl hless)
            · exact Or.inr (Or.inl hless)
          · rw [thenBy_of_tied (hkeyless (Or.inr hasb)), thenBy_of_tied (hkeyless (Or.inl hasb))]
            exact h a ha b hb c hc hasb hkac hab hbc
        · have hkca : ¬ key c a := fun hkca => hac.elim hkac (fun hless => hless.1 hkca)
          have hsac : second a c := hac.elim (fun hless => absurd hless hkac) And.right
          have hsca := hsecond.asymm ha hc hsac
          by_cases hkab : key a b
          · exact Or.inl (Or.inl hkab)
          · by_cases hkbc : key b c
            · exact Or.inr (Or.inl hkbc)
            · by_cases hkba : key b a
              -- the key puts `b` before `a`, so `c` does not have it
              · have hasc : ¬ has c := fun hasc => by
                  rcases hkey.order.split ⟨hb, hkey.left b a hkba⟩ ⟨hc, hasc⟩
                    ⟨ha, hkey.right b a hkba⟩ hkba with hless | hless
                  · exact hkbc hless
                  · exact hkca hless
                rw [thenBy_of_tied (hkeyless (Or.inr hasc))]
                exact Or.inr ((h b hb c hc a ha hasc hkba hbc htac.symm).resolve_right hsca)
              · by_cases hkcb : key c b
                · have hasa : ¬ has a := fun hasa => by
                    rcases hkey.order.split ⟨hc, hkey.left c b hkcb⟩ ⟨ha, hasa⟩
                      ⟨hb, hkey.right c b hkcb⟩ hkcb with hless | hless
                    · exact hkca hless
                    · exact hkab hless
                  rw [thenBy_of_tied (hkeyless (Or.inl hasa))]
                  exact Or.inl ((h c hc a ha b hb hasa hkcb htac.symm hab).resolve_left hsca)
                · rw [thenBy_of_tied ⟨hkab, hkba⟩, thenBy_of_tied ⟨hkbc, hkcb⟩]
                  exact hsecond.split ha hb hc hsac
      · rcases hfirst.first_split ha hb hc hac htied with hless | hless
        · exact Or.inl (Or.inl hless)
        · exact Or.inr (Or.inl hless)

end WeakOrders
