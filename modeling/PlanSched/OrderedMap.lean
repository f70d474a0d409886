/-
# Maps with integer keys, kept in key order

A library for `std::map` with an integer key: the entries in increasing key
order.  Nothing here names the scheduler.

* `modify` is `operator[]` followed by an update of the entry it returns: a
  missing key is entered with a default value first;
* `lookup_modify` says what the map then holds for every key;
* `floor?` walks from the largest key downwards and stops at the first key that
  does not exceed the bound.

Trust base: `[propext, Classical.choice, Quot.sound]`.
-/
import Mathlib

/-- A finite map whose entries are stored by increasing key. -/
structure OrderedMap (V : Type) where
  entries : List (ℤ × V)
  /-- Keys strictly increase, so each key occurs once. -/
  increasing : entries.Pairwise (fun a b => a.1 < b.1)
  deriving Repr

namespace OrderedMap

variable {V : Type}

/-- The map without entries. -/
def empty : OrderedMap V := ⟨[], List.Pairwise.nil⟩

/-- Update the entry of key `k`, entering `d` first when there is none. -/
def modifyList (k : ℤ) (d : V) (f : V → V) : List (ℤ × V) → List (ℤ × V)
  | [] => [(k, f d)]
  | e :: es =>
      if k < e.1 then (k, f d) :: e :: es
      else if k = e.1 then (k, f e.2) :: es
      else e :: modifyList k d f es

/-- Every key of the updated list is `k` or an old key. -/
theorem fst_mem_modifyList (k : ℤ) (d : V) (f : V → V) (es : List (ℤ × V)) :
    ∀ a ∈ modifyList k d f es, a.1 = k ∨ ∃ b ∈ es, b.1 = a.1 := by
  induction es with
  | nil =>
      intro a ha
      simp only [modifyList, List.mem_singleton] at ha
      exact Or.inl (by rw [ha])
  | cons e es ih =>
      intro a ha
      rw [modifyList] at ha
      split at ha
      · rcases List.mem_cons.mp ha with h | h
        · exact Or.inl (by rw [h])
        · exact Or.inr ⟨a, h, rfl⟩
      · split at ha
        · rcases List.mem_cons.mp ha with h | h
          · exact Or.inl (by rw [h])
          · exact Or.inr ⟨a, List.mem_cons_of_mem _ h, rfl⟩
        · rcases List.mem_cons.mp ha with h | h
          · exact Or.inr ⟨e, List.mem_cons_self, by rw [h]⟩
          · rcases ih a h with hk | ⟨b, hb, hba⟩
            · exact Or.inl hk
            · exact Or.inr ⟨b, List.mem_cons_of_mem _ hb, hba⟩

/-- Updating keeps the key order. -/
theorem modifyList_increasing (k : ℤ) (d : V) (f : V → V) (es : List (ℤ × V))
    (h : es.Pairwise (fun a b => a.1 < b.1)) :
    (modifyList k d f es).Pairwise (fun a b => a.1 < b.1) := by
  induction es with
  | nil => exact List.pairwise_singleton _ _
  | cons e es ih =>
      rw [List.pairwise_cons] at h
      rw [modifyList]
      split
      · rename_i hlt
        rw [List.pairwise_cons]
        refine ⟨fun a ha => ?_, List.pairwise_cons.mpr h⟩
        rcases List.mem_cons.mp ha with rfl | h'
        · exact hlt
        · exact lt_trans hlt (h.1 a h')
      · split
        · rename_i heq
          rw [List.pairwise_cons]
          exact ⟨fun a ha => by rw [heq]; exact h.1 a ha, h.2⟩
        · rw [List.pairwise_cons]
          refine ⟨fun a ha => ?_, ih h.2⟩
          rcases fst_mem_modifyList k d f es a ha with hk | ⟨b, hb, hba⟩
          · omega
          · rw [← hba]
            exact h.1 b hb

/-- `operator[]` followed by an update of the entry. -/
def modify (m : OrderedMap V) (k : ℤ) (d : V) (f : V → V) : OrderedMap V :=
  ⟨modifyList k d f m.entries, modifyList_increasing k d f m.entries m.increasing⟩

/-- A key below all others is not there. -/
theorem lookup_eq_none_of_lt {k : ℤ} {es : List (ℤ × V)} (h : ∀ e ∈ es, k < e.1) :
    es.lookup k = none := by
  rw [List.lookup_eq_none_iff]
  intro e he
  simpa using ne_of_lt (h e he)

/-- Updating an entry, seen from any key. -/
theorem lookup_modifyList (k k' : ℤ) (d : V) (f : V → V) {es : List (ℤ × V)}
    (h : es.Pairwise (fun a b => a.1 < b.1)) :
    (modifyList k d f es).lookup k'
      = if k' = k then some (f ((es.lookup k).getD d)) else es.lookup k' := by
  have hcons : ∀ (v : V) (es : List (ℤ × V)),
      ((k, v) :: es).lookup k' = if k' = k then some v else es.lookup k' := by
    intro v es
    by_cases hkey : k' = k
    · subst hkey
      simp
    · rw [if_neg hkey, List.lookup_cons, beq_false_of_ne hkey]
  induction es with
  | nil =>
      rw [modifyList, hcons]
      rfl
  | cons e es ih =>
      rw [List.pairwise_cons] at h
      rw [modifyList]
      split
      · next hlt =>
          -- the list is in order, so a key before its first one is not in it
          have hnone : (e :: es).lookup k = none := by
            apply lookup_eq_none_of_lt
            intro a ha
            rcases List.mem_cons.mp ha with rfl | ha
            · exact hlt
            · exact lt_trans hlt (h.1 a ha)
          rw [hcons, hnone]
          rfl
      · split
        · next heq =>
            rw [hcons, List.lookup_cons, List.lookup_cons, heq]
            by_cases hkey : k' = e.1
            · simp [hkey]
            · rw [if_neg hkey, if_neg hkey, beq_false_of_ne hkey]
        · next hne =>
            rw [List.lookup_cons, ih h.2, List.lookup_cons, List.lookup_cons,
              beq_false_of_ne (a := k) (b := e.1) hne]
            by_cases hkey : k' = e.1
            · have hne' : e.1 ≠ k := Ne.symm hne
              simp [hkey, hne']
            · rw [beq_false_of_ne hkey]

/-- Updating an entry to what it is changes nothing. -/
theorem modifyList_eq_self {k : ℤ} {d v : V} {f : V → V} {es : List (ℤ × V)}
    (h : es.Pairwise (fun a b => a.1 < b.1)) (hv : es.lookup k = some v) (hf : f v = v) :
    modifyList k d f es = es := by
  induction es with
  | nil => cases hv
  | cons e es ih =>
      rw [List.pairwise_cons] at h
      rw [modifyList]
      split
      · next hlt =>
          have hnone : (e :: es).lookup k = none := by
            apply lookup_eq_none_of_lt
            intro a ha
            rcases List.mem_cons.mp ha with rfl | ha
            · exact hlt
            · exact lt_trans hlt (h.1 a ha)
          rw [hnone] at hv
          cases hv
      · split
        · next heq =>
            rw [heq, List.lookup_cons, beq_self_eq_true] at hv
            rw [heq, Option.some.inj hv, hf, ← Option.some.inj hv]
        · next hne =>
            rw [List.lookup_cons, beq_false_of_ne (a := k) (b := e.1) hne] at hv
            rw [ih h.2 hv]

/-- Updating an entry of a map, seen from any key. -/
theorem lookup_modify (m : OrderedMap V) (k k' : ℤ) (d : V) (f : V → V) :
    (m.modify k d f).entries.lookup k'
      = if k' = k then some (f ((m.entries.lookup k).getD d)) else m.entries.lookup k' :=
  lookup_modifyList k k' d f m.increasing

/-- Updating an entry of a map to what it is. -/
theorem modify_eq_self {m : OrderedMap V} {k : ℤ} {d v : V} {f : V → V}
    (hv : m.entries.lookup k = some v) (hf : f v = v) : m.modify k d f = m := by
  obtain ⟨entries, increasing⟩ := m
  unfold modify
  congr 1
  exact modifyList_eq_self increasing hv hf

/-- The entry with the largest key not above `x`. -/
def floor? (m : OrderedMap V) (x : ℤ) : Option (ℤ × V) :=
  m.entries.reverse.find? (fun e => e.1 ≤ x)

/-- No entry is found exactly when every key lies above the bound. -/
theorem floor?_eq_none {m : OrderedMap V} {x : ℤ} :
    m.floor? x = none ↔ ∀ e ∈ m.entries, x < e.1 := by
  unfold floor?
  rw [List.find?_eq_none]
  simp

/-- The entry found is the one with the largest key not above the bound. -/
theorem floor?_eq_some {m : OrderedMap V} {x : ℤ} {e : ℤ × V} (h : m.floor? x = some e) :
    e ∈ m.entries ∧ e.1 ≤ x ∧ ∀ e' ∈ m.entries, e'.1 ≤ x → e'.1 ≤ e.1 := by
  unfold floor? at h
  rw [List.find?_eq_some_iff_append] at h
  obtain ⟨hle, above, below, hsplit, habove⟩ := h
  have hentries : m.entries = below.reverse ++ e :: above.reverse := by
    have := congrArg List.reverse hsplit
    simpa using this
  refine ⟨by rw [hentries]; simp, by simpa using hle, ?_⟩
  intro e' he' hle'
  rw [hentries, List.mem_append, List.mem_cons] at he'
  rcases he' with h' | rfl | h'
  · -- entries before `e` have smaller keys
    have hinc := m.increasing
    rw [hentries, List.pairwise_append] at hinc
    exact le_of_lt (hinc.2.2 e' h' e (by simp))
  · exact le_rfl
  · have := habove e' (by simpa using h')
    simp at this
    omega

/-- A key has one value. -/
theorem eq_of_fst_eq {m : OrderedMap V} {e e' : ℤ × V} (he : e ∈ m.entries)
    (he' : e' ∈ m.entries) (h : e.1 = e'.1) : e = e' := by
  by_contra hne
  have hdistinct : m.entries.Pairwise (fun a b => a.1 ≠ b.1) :=
    m.increasing.imp (fun hlt => ne_of_lt hlt)
  have : Std.Symm (fun a b : ℤ × V => a.1 ≠ b.1) := ⟨fun _ _ hab => hab.symm⟩
  exact hdistinct.forall he he' hne h

end OrderedMap
