/-
# Taking the first free items

Items are taken from a list one after the other, each time the first one that is not marked,
and what is taken is marked.  A second list of less preferred items stands behind the first
one.  Nothing is assumed of the list: an item may stand in it several times and is taken
once.

* `firstFree_of_find`: what one item more adds;
* `nodup_firstFree`, `mem_firstFree`: different items, and free ones;
* `length_firstFree_iff`: as many as asked are found exactly if so many different free items
  are in the list.

Trust base: `[propext, Classical.choice, Quot.sound]`.
-/
import Mathlib.Data.Finset.Card
import Mathlib.Data.List.Dedup
import Mathlib.Tactic

namespace FirstFree

variable {α : Type*} [DecidableEq α]

/-- The first `count` different items that are not marked. -/
def firstFree : List α → ℕ → List α → List α
  | _, 0, _ => []
  | _, _ + 1, [] => []
  | marked, count + 1, a :: items =>
      if a ∈ marked then firstFree marked (count + 1) items
      else a :: firstFree (a :: marked) count items

@[simp] theorem firstFree_zero (marked items : List α) : firstFree marked 0 items = [] := by
  cases items <;> rfl

@[simp] theorem firstFree_nil (marked : List α) (count : ℕ) : firstFree marked count [] = [] := by
  cases count <;> rfl

/-- A marked item is passed over. -/
theorem firstFree_cons_of_mem {marked items : List α} {a : α} (h : a ∈ marked) (count : ℕ) :
    firstFree marked count (a :: items) = firstFree marked count items := by
  cases count with
  | zero => rw [firstFree_zero, firstFree_zero]
  | succ count => rw [firstFree, if_pos h]

/-- A free item is taken. -/
theorem firstFree_cons_of_notMem {marked items : List α} {a : α} (h : a ∉ marked) (count : ℕ) :
    firstFree marked (count + 1) (a :: items) = a :: firstFree (a :: marked) count items := by
  rw [firstFree, if_neg h]

/-- What is taken is in the list and was free. -/
theorem mem_firstFree {a : α} (items : List α) : ∀ {marked : List α} {count : ℕ},
    a ∈ firstFree marked count items → a ∈ items ∧ a ∉ marked := by
  induction items with
  | nil =>
      intro marked count h
      rw [firstFree_nil] at h
      cases h
  | cons b items ih =>
      intro marked count h
      by_cases hb : b ∈ marked
      · rw [firstFree_cons_of_mem hb] at h
        exact ⟨List.mem_cons_of_mem _ (ih h).1, (ih h).2⟩
      · cases count with
        | zero =>
            rw [firstFree_zero] at h
            cases h
        | succ count =>
            rw [firstFree_cons_of_notMem hb] at h
            rcases List.mem_cons.mp h with rfl | h
            · exact ⟨List.mem_cons_self, hb⟩
            · obtain ⟨hmem, hfree⟩ := ih h
              exact ⟨List.mem_cons_of_mem _ hmem, fun hin => hfree (List.mem_cons_of_mem _ hin)⟩

/-- No item is taken twice. -/
theorem nodup_firstFree (items : List α) : ∀ (marked : List α) (count : ℕ),
    (firstFree marked count items).Nodup := by
  induction items with
  | nil =>
      intro marked count
      rw [firstFree_nil]
      exact List.nodup_nil
  | cons b items ih =>
      intro marked count
      by_cases hb : b ∈ marked
      · rw [firstFree_cons_of_mem hb]
        exact ih marked count
      · cases count with
        | zero =>
            rw [firstFree_zero]
            exact List.nodup_nil
        | succ count =>
            rw [firstFree_cons_of_notMem hb, List.nodup_cons]
            refine ⟨?_, ih _ count⟩
            intro h
            exact (mem_firstFree items h).2 List.mem_cons_self

/-- Only the marks of the items of the list count. -/
theorem firstFree_congr (items : List α) : ∀ {marked marked' : List α} (count : ℕ),
    (∀ a ∈ items, a ∈ marked ↔ a ∈ marked') →
      firstFree marked count items = firstFree marked' count items := by
  induction items with
  | nil =>
      intro marked marked' count _
      rw [firstFree_nil, firstFree_nil]
  | cons b items ih =>
      intro marked marked' count h
      have hb := h b List.mem_cons_self
      have hrest : ∀ a ∈ items, a ∈ marked ↔ a ∈ marked' :=
        fun a ha => h a (List.mem_cons_of_mem _ ha)
      by_cases hmem : b ∈ marked
      · rw [firstFree_cons_of_mem hmem, firstFree_cons_of_mem (hb.mp hmem), ih count hrest]
      · cases count with
        | zero => rw [firstFree_zero, firstFree_zero]
        | succ count =>
            rw [firstFree_cons_of_notMem hmem,
              firstFree_cons_of_notMem (fun hin => hmem (hb.mpr hin))]
            congr 1
            refine ih count ?_
            intro a ha
            rw [List.mem_cons, List.mem_cons, hrest a ha]

/-- A first part without free items can be left out. -/
theorem firstFree_append_of_marked {marked : List α} (count : ℕ) (front items : List α)
    (h : ∀ a ∈ front, a ∈ marked) :
    firstFree marked count (front ++ items) = firstFree marked count items := by
  induction front with
  | nil => rfl
  | cons b front ih =>
      rw [List.cons_append, firstFree_cons_of_mem (h b List.mem_cons_self)]
      exact ih (fun a ha => h a (List.mem_cons_of_mem _ ha))

/-- Nothing is taken from a list without free items. -/
theorem firstFree_of_marked {marked items : List α} (count : ℕ) (h : ∀ a ∈ items, a ∈ marked) :
    firstFree marked count items = [] := by
  have := firstFree_append_of_marked count items [] h
  rwa [List.append_nil, firstFree_nil] at this

/-- One item more: the first free one, and then the free ones of the whole list again. -/
theorem firstFree_of_find {marked items : List α} {a : α} (count : ℕ)
    (h : items.find? (fun b => b ∉ marked) = some a) :
    firstFree marked (count + 1) items = a :: firstFree (a :: marked) count items := by
  obtain ⟨hfree, front, behind, rfl, hfront⟩ := List.find?_eq_some_iff_append.mp h
  have hmarked : ∀ b ∈ front, b ∈ marked := by
    intro b hb
    simpa using hfront b hb
  rw [firstFree_append_of_marked _ front _ hmarked,
    firstFree_cons_of_notMem (of_decide_eq_true hfree),
    firstFree_append_of_marked _ front _ (fun b hb => List.mem_cons_of_mem _ (hmarked b hb)),
    firstFree_cons_of_mem List.mem_cons_self]

/-- How many items are taken. -/
theorem length_firstFree (items : List α) : ∀ (marked : List α) (count : ℕ),
    (firstFree marked count items).length
      = min count (items.toFinset \ marked.toFinset).card := by
  induction items with
  | nil =>
      intro marked count
      simp
  | cons b items ih =>
      intro marked count
      rw [List.toFinset_cons]
      by_cases hb : b ∈ marked
      · rw [firstFree_cons_of_mem hb, ih,
          Finset.insert_sdiff_of_mem _ (List.mem_toFinset.mpr hb)]
      · cases count with
        | zero => simp
        | succ count =>
            have hsplit : insert b items.toFinset \ marked.toFinset
                = insert b (items.toFinset \ (b :: marked).toFinset) := by
              ext a
              simp only [Finset.mem_sdiff, Finset.mem_insert, List.mem_toFinset, List.mem_cons]
              by_cases hab : a = b
              · subst hab
                simp [hb]
              · simp [hab]
            have hnew : b ∉ items.toFinset \ (b :: marked).toFinset := by
              intro h
              exact (Finset.mem_sdiff.mp h).2 (List.mem_toFinset.mpr List.mem_cons_self)
            rw [firstFree_cons_of_notMem hb, List.length_cons, ih, hsplit,
              Finset.card_insert_of_notMem hnew]
            omega

/-- As many as asked are taken exactly if so many different free items are there. -/
theorem length_firstFree_iff {marked items : List α} {count : ℕ} :
    (firstFree marked count items).length = count ↔
      count ≤ (items.toFinset \ marked.toFinset).card := by
  rw [length_firstFree]
  omega

end FirstFree
