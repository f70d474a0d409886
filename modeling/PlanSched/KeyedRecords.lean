/-
# Records found by a key

A list of records, each with a key.  A record is looked up by walking the list; when there
is none, a fresh one is put at the end.  The list stands for a table: no key comes twice.

* `upsert` changes the record of a key, `keys_upsert`, `mem_upsert` and `sum_upsert` are what it
  leaves;
* `totalFor` adds up, over a list of entries, the amounts of one key;
* `foldl_at_keys` takes a sequence of steps apart that act at different keys.

Trust base: `[propext, Classical.choice, Quot.sound]`.
-/
import Mathlib

namespace KeyedRecords

/-! ## The table -/

section table

variable {κ ρ : Type} [DecidableEq κ] (key : ρ → κ) (fresh : κ → ρ)

/-- Change the first record of the key, or a fresh one at the end. -/
def upsert (k : κ) (change : ρ → ρ) : List ρ → List ρ
  | [] => [change (fresh k)]
  | record :: records =>
      if key record = k then change record :: records
      else record :: upsert k change records

variable {key fresh} {k : κ} {change : ρ → ρ}

/-- The keys stay; a new one comes last. -/
theorem keys_upsert (hfresh : key (fresh k) = k)
    (hchange : ∀ record, key (change record) = key record) (records : List ρ) :
    (upsert key fresh k change records).map key
      = if k ∈ records.map key then records.map key else records.map key ++ [k] := by
  induction records with
  | nil =>
      show [key (change (fresh k))] = _
      rw [hchange, hfresh]
      rfl
  | cons record records ih =>
      rw [upsert]
      by_cases h : key record = k
      · rw [if_pos h, if_pos (by rw [List.map_cons, h]; exact List.mem_cons_self), List.map_cons,
          List.map_cons, hchange]
      · rw [if_neg h, List.map_cons, ih, List.map_cons]
        by_cases hmem : k ∈ records.map key
        · rw [if_pos hmem, if_pos (List.mem_cons_of_mem _ hmem)]
        · rw [if_neg hmem, if_neg (fun hk => ?_)]
          · rfl
          · rcases List.mem_cons.mp hk with hk | hk
            · exact h hk.symm
            · exact hmem hk

/-- No key comes twice. -/
theorem nodup_upsert (hfresh : key (fresh k) = k)
    (hchange : ∀ record, key (change record) = key record) {records : List ρ}
    (h : (records.map key).Nodup) : ((upsert key fresh k change records).map key).Nodup := by
  rw [keys_upsert hfresh hchange]
  split
  · exact h
  · next hnew =>
      rw [List.nodup_append]
      refine ⟨h, List.nodup_singleton k, ?_⟩
      rintro a ha b hb rfl
      rw [List.mem_singleton.mp hb] at ha
      exact hnew ha

/-- The keys afterwards. -/
theorem mem_keys_upsert (hfresh : key (fresh k) = k)
    (hchange : ∀ record, key (change record) = key record) {records : List ρ} {a : κ} :
    a ∈ (upsert key fresh k change records).map key ↔ a ∈ records.map key ∨ a = k := by
  rw [keys_upsert hfresh hchange]
  split
  · next hmem =>
      refine ⟨Or.inl, ?_⟩
      rintro (ha | rfl)
      · exact ha
      · exact hmem
  · rw [List.mem_append, List.mem_singleton]

/-- Another key has the record it had; that of the key is the changed one. -/
theorem mem_upsert {records : List ρ} (h : (records.map key).Nodup) {record : ρ}
    (hmem : record ∈ upsert key fresh k change records) :
    (record ∈ records ∧ key record ≠ k) ∨ ∃ old, record = change old ∧
      ((old ∈ records ∧ key old = k) ∨ (k ∉ records.map key ∧ old = fresh k)) := by
  induction records with
  | nil =>
      refine Or.inr ⟨fresh k, List.mem_singleton.mp hmem, Or.inr ⟨List.not_mem_nil, rfl⟩⟩
  | cons first records ih =>
      rw [List.map_cons, List.nodup_cons] at h
      rw [upsert] at hmem
      split at hmem
      · next hfirst =>
          rcases List.mem_cons.mp hmem with rfl | hmem
          · exact Or.inr ⟨first, rfl, Or.inl ⟨List.mem_cons_self, hfirst⟩⟩
          · refine Or.inl ⟨List.mem_cons_of_mem _ hmem, ?_⟩
            intro hkey
            refine h.1 ?_
            rw [hfirst, ← hkey]
            exact List.mem_map_of_mem hmem
      · next hfirst =>
          rcases List.mem_cons.mp hmem with rfl | hmem
          · exact Or.inl ⟨List.mem_cons_self, hfirst⟩
          · rcases ih h.2 hmem with ⟨hold, hne⟩ | ⟨old, hrecord, hold⟩
            · exact Or.inl ⟨List.mem_cons_of_mem _ hold, hne⟩
            · refine Or.inr ⟨old, hrecord, hold.imp ?_ ?_⟩
              · exact fun hin => ⟨List.mem_cons_of_mem _ hin.1, hin.2⟩
              · rintro ⟨hnew, rfl⟩
                refine ⟨?_, rfl⟩
                rw [List.map_cons, List.mem_cons, not_or]
                exact ⟨fun hk => hfirst hk.symm, hnew⟩

/-- A quantity that the change adds to the record of the key is added to the sum. -/
theorem sum_upsert {M : Type} [AddCommMonoid M] {amount : ρ → M} {added : M}
    (hfresh : amount (change (fresh k)) = added)
    (hchange : ∀ record, key record = k → amount (change record) = amount record + added)
    (records : List ρ) : ((upsert key fresh k change records).map amount).sum
      = (records.map amount).sum + added := by
  induction records with
  | nil =>
      show (List.map amount [change (fresh k)]).sum = _
      rw [List.map_singleton, List.sum_singleton, hfresh, List.map_nil, List.sum_nil, zero_add]
  | cons record records ih =>
      rw [upsert]
      split
      · next hkey =>
          rw [List.map_cons, List.map_cons, List.sum_cons, List.sum_cons, hchange record hkey,
            add_right_comm]
      · rw [List.map_cons, List.map_cons, List.sum_cons, List.sum_cons, ih, add_assoc]

end table

/-! ## Totals -/

section totals

variable {κ ε M : Type} [DecidableEq κ] [AddCommMonoid M]

/-- The amounts of one key, added up over a list of entries. -/
def totalFor (key : ε → κ) (amount : ε → M) (k : κ) (entries : List ε) : M :=
  ((entries.filter (fun entry => key entry = k)).map amount).sum

variable {key : ε → κ} {amount : ε → M} {k : κ}

/-- Totals of lists one after the other. -/
theorem totalFor_append (first second : List ε) : totalFor key amount k (first ++ second)
    = totalFor key amount k first + totalFor key amount k second := by
  unfold totalFor
  rw [List.filter_append, List.map_append, List.sum_append]

/-- One entry. -/
theorem totalFor_singleton (entry : ε) :
    totalFor key amount k [entry] = if key entry = k then amount entry else 0 := by
  unfold totalFor
  rw [List.filter_singleton]
  by_cases h : key entry = k
  · simp [h]
  · simp [h]

/-- A key without entries has nothing. -/
theorem totalFor_of_notMem {entries : List ε} (h : k ∉ entries.map key) :
    totalFor key amount k entries = 0 := by
  have hnone : entries.filter (fun entry => key entry = k) = [] := by
    rw [List.filter_eq_nil_iff]
    intro entry hentry hkey
    exact h (List.mem_map.mpr ⟨entry, hentry, of_decide_eq_true hkey⟩)
  unfold totalFor
  rw [hnone]
  rfl

end totals

/-- Amounts that are not negative add up to something exactly if one of them is something. -/
theorem sum_ne_zero_iff {K : Type} [AddCommMonoid K] [PartialOrder K] [IsOrderedAddMonoid K]
    {amounts : List K} (h : ∀ x ∈ amounts, 0 ≤ x) : amounts.sum ≠ 0 ↔ ∃ x ∈ amounts, x ≠ 0 := by
  constructor
  · intro hsum
    by_contra hnone
    push Not at hnone
    exact hsum (List.sum_eq_zero hnone)
  · rintro ⟨x, hx, hne⟩ hsum
    exact hne (List.all_zero_of_le_zero_le_of_sum_eq_zero h hsum hx)

/-- Amounts that are not negative add up to nothing less. -/
theorem totalFor_nonneg {κ ε : Type} [DecidableEq κ] {key : ε → κ} {amount : ε → ℚ} {k : κ}
    {entries : List ε} (h : ∀ entry ∈ entries, 0 ≤ amount entry) :
    0 ≤ totalFor key amount k entries := by
  refine List.sum_nonneg ?_
  intro x hx
  obtain ⟨entry, hentry, rfl⟩ := List.mem_map.mp hx
  exact h entry (List.mem_of_mem_filter hentry)

/-- The same for the amounts of a key. -/
theorem totalFor_ne_zero_iff {κ ε : Type} [DecidableEq κ] {key : ε → κ} {amount : ε → ℚ} {k : κ}
    {entries : List ε} (h : ∀ entry ∈ entries, 0 ≤ amount entry) :
    totalFor key amount k entries ≠ 0 ↔ ∃ entry ∈ entries, key entry = k ∧ amount entry ≠ 0 := by
  unfold totalFor
  rw [sum_ne_zero_iff ?_]
  · constructor
    · rintro ⟨x, hx, hne⟩
      obtain ⟨entry, hentry, rfl⟩ := List.mem_map.mp hx
      obtain ⟨hmem, hkey⟩ := List.mem_filter.mp hentry
      exact ⟨entry, hmem, of_decide_eq_true hkey, hne⟩
    · rintro ⟨entry, hmem, hkey, hne⟩
      exact ⟨_, List.mem_map_of_mem (List.mem_filter.mpr ⟨hmem, decide_eq_true hkey⟩), hne⟩
  · intro x hx
    obtain ⟨entry, hentry, rfl⟩ := List.mem_map.mp hx
    exact h entry (List.mem_of_mem_filter hentry)

/-! ## Steps at keys -/

/-- A sequence of steps, each of which changes what is seen at its own key, in a way that
depends on that alone, and nothing that is seen elsewhere: if no two have one key, every step
has its effect as if it were the only one. -/
theorem foldl_at_keys {σ κ ν ι : Type} (view : σ → κ → ν) (key : ι → κ) (step : σ → ι → σ)
    (effect : ι → ν → ν) (hown : ∀ s i, view (step s i) (key i) = effect i (view s (key i)))
    (hother : ∀ s i k, k ≠ key i → view (step s i) k = view s k) (steps : List ι) :
    ∀ s, (steps.map key).Nodup →
      (∀ i ∈ steps, view (steps.foldl step s) (key i) = effect i (view s (key i))) ∧
      ∀ k, k ∉ steps.map key → view (steps.foldl step s) k = view s k := by
  induction steps with
  | nil => exact fun s _ => ⟨by simp, fun k _ => rfl⟩
  | cons i steps ih =>
      intro s hnodup
      rw [List.map_cons, List.nodup_cons] at hnodup
      obtain ⟨hmem, hkeep⟩ := ih (step s i) hnodup.2
      constructor
      · intro j hj
        rw [List.foldl_cons]
        rcases List.mem_cons.mp hj with rfl | hj
        · rw [hkeep _ hnodup.1, hown]
        · rw [hmem j hj, hother]
          rintro heq
          exact hnodup.1 (heq ▸ List.mem_map_of_mem hj)
      · intro k hk
        rw [List.map_cons, List.mem_cons, not_or] at hk
        rw [List.foldl_cons, hkeep k hk.2, hother s i k hk.1]

end KeyedRecords
