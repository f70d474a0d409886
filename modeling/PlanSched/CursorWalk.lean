/-
# Walking a list whose items are removed on the way

A library for loops that follow a cursor through a list while the loop body may
remove the item under the cursor, after which the walk starts again at the first
item.  A visit keeps its item (possibly changed), removes it, or stops the walk
for good.  Nothing here names the scheduler; `σ` is the state the visits pass on
and `α` the type of items.

* `passOnce` goes through the list until an item is removed, `walk` repeats it;
* `walk_eq` unfolds one pass of a walk, so the budget of passes never shows;
* `walk_invariant` carries an invariant of the state and of the items through a
  walk;
* `walk_map_sublist`: the items a walk leaves are items of the list;
* `Orderly.walk_filter`: when no item that acts stands in front of one to be removed,
  the walk is one pass over the items that stay.

Trust base: `[propext, Classical.choice, Quot.sound]`.
-/
import Mathlib

namespace CursorWalk

variable {σ α : Type}

/-! ## Visits and passes -/

/-- What a visit does with its item. -/
inductive Visit (σ α : Type) : Type where
  | keep (s : σ) (a : α) : Visit σ α
  | remove (s : σ) : Visit σ α
  | stop (s : σ) : Visit σ α

/-- How a pass through the list ends, with the state and the list then. -/
inductive Pass (σ α : Type) : Type where
  | finished (s : σ) (as : List α) : Pass σ α
  | removed (s : σ) (as : List α) : Pass σ α
  | stopped (s : σ) (as : List α) : Pass σ α

/-- The same end of a pass, with one more item in front. -/
def Pass.cons (a : α) : Pass σ α → Pass σ α
  | finished s as => finished s (a :: as)
  | removed s as => removed s (a :: as)
  | stopped s as => stopped s (a :: as)

/-- The state at the end of a pass. -/
def Pass.state : Pass σ α → σ
  | finished s _ => s
  | removed s _ => s
  | stopped s _ => s

/-- The list at the end of a pass. -/
def Pass.items : Pass σ α → List α
  | finished _ as => as
  | removed _ as => as
  | stopped _ as => as

@[simp] theorem Pass.cons_state (a : α) (p : Pass σ α) : (p.cons a).state = p.state := by
  cases p <;> rfl

@[simp] theorem Pass.cons_items (a : α) (p : Pass σ α) : (p.cons a).items = a :: p.items := by
  cases p <;> rfl

/-- Visit the items in order, until one is removed. -/
def passOnce (visit : σ → α → Visit σ α) : σ → List α → Pass σ α
  | s, [] => .finished s []
  | s, a :: as =>
      match visit s a with
      | .keep s' a' => (passOnce visit s' as).cons a'
      | .remove s' => .removed s' as
      | .stop s' => .stopped s' (a :: as)

section visits

variable {visit : σ → α → Visit σ α} {s s' : σ} {a a' : α} {as : List α}

/-- After a kept item the pass goes on. -/
theorem passOnce_of_keep (h : visit s a = .keep s' a') :
    passOnce visit s (a :: as) = (passOnce visit s' as).cons a' := by
  rw [passOnce, h]

/-- A removal ends the pass. -/
theorem passOnce_of_remove (h : visit s a = .remove s') :
    passOnce visit s (a :: as) = .removed s' as := by
  rw [passOnce, h]

/-- A stop ends the pass. -/
theorem passOnce_of_stop (h : visit s a = .stop s') :
    passOnce visit s (a :: as) = .stopped s' (a :: as) := by
  rw [passOnce, h]

end visits

/-- A pass over two lists is a pass over the first one and, if it gets to its end, over
the second one. -/
theorem passOnce_append_state {visit : σ → α → Visit σ α} {bs : List α} (as : List α) :
    ∀ s, (passOnce visit s (as ++ bs)).state =
      match passOnce visit s as with
      | .finished s' _ => (passOnce visit s' bs).state
      | .removed s' _ => s'
      | .stopped s' _ => s' := by
  induction as with
  | nil => exact fun s => rfl
  | cons a as ih =>
      intro s
      cases hv : visit s a with
      | keep s₁ a₁ =>
          rw [List.cons_append, passOnce_of_keep hv, passOnce_of_keep hv, Pass.cons_state, ih s₁]
          cases passOnce visit s₁ as <;> rfl
      | remove s₁ => rw [List.cons_append, passOnce_of_remove hv, passOnce_of_remove hv]; rfl
      | stop s₁ => rw [List.cons_append, passOnce_of_stop hv, passOnce_of_stop hv]; rfl

/-- A pass that gets to an item to be removed. -/
theorem passOnce_append_remove {visit : σ → α → Visit σ α} {b : α} {bs : List α} (as : List α) :
    ∀ {s s' s'' : σ} {as' : List α}, passOnce visit s as = .finished s' as' →
      visit s' b = .remove s'' → passOnce visit s (as ++ b :: bs) = .removed s'' (as' ++ bs) := by
  induction as with
  | nil =>
      intro s s' s'' as' h hb
      cases h
      exact passOnce_of_remove hb
  | cons a as ih =>
      intro s s' s'' as' h hb
      cases hv : visit s a with
      | keep s₁ a₁ =>
          rw [passOnce_of_keep hv] at h
          cases hp : passOnce visit s₁ as with
          | finished s₂ as₂ =>
              rw [hp] at h
              cases h
              rw [List.cons_append, passOnce_of_keep hv, ih hp hb]
              rfl
          | removed s₂ as₂ => rw [hp] at h; cases h
          | stopped s₂ as₂ => rw [hp] at h; cases h
      | remove s₁ => rw [passOnce_of_remove hv] at h; cases h
      | stop s₁ => rw [passOnce_of_stop hv] at h; cases h

/-- At most `n` passes: the state, the list, and whether the end was reached. -/
def walkN (visit : σ → α → Visit σ α) : ℕ → σ → List α → σ × List α × Bool
  | 0, s, as => (s, as, false)
  | n + 1, s, as =>
      match passOnce visit s as with
      | .finished s' as' => (s', as', true)
      | .removed s' as' => walkN visit n s' as'
      | .stopped s' as' => (s', as', false)

/-- Passes until the end of the list is reached or a visit stops the walk. -/
def walk (visit : σ → α → Visit σ α) (s : σ) (as : List α) : σ × List α × Bool :=
  walkN visit (as.length + 1) s as

/-- A pass that removed an item leaves the list one shorter. -/
theorem length_of_passOnce_removed {visit : σ → α → Visit σ α} (as : List α) :
    ∀ {s s' : σ} {as' : List α}, passOnce visit s as = .removed s' as' →
      as'.length + 1 = as.length := by
  induction as with
  | nil =>
      intro s s' as' h
      rw [passOnce] at h
      cases h
  | cons a as ih =>
      intro s s' as' h
      cases hv : visit s a with
      | keep s₁ a₁ =>
          rw [passOnce_of_keep hv] at h
          cases hp : passOnce visit s₁ as with
          | finished s₂ as₂ => rw [hp] at h; cases h
          | stopped s₂ as₂ => rw [hp] at h; cases h
          | removed s₂ as₂ =>
              rw [hp] at h
              cases h
              rw [List.length_cons, List.length_cons, ih hp]
      | remove s₁ =>
          rw [passOnce_of_remove hv] at h
          cases h
          rfl
      | stop s₁ =>
          rw [passOnce_of_stop hv] at h
          cases h

/-- One pass of a walk: after a removal the walk goes on with the shorter list. -/
theorem walk_eq (visit : σ → α → Visit σ α) (s : σ) (as : List α) :
    walk visit s as =
      match passOnce visit s as with
      | .finished s' as' => (s', as', true)
      | .removed s' as' => walk visit s' as'
      | .stopped s' as' => (s', as', false) := by
  unfold walk
  rw [walkN]
  cases hp : passOnce visit s as with
  | finished s' as' => rfl
  | stopped s' as' => rfl
  | removed s' as' =>
      simp only
      rw [length_of_passOnce_removed as hp]

/-! ## Invariants -/

section invariant

variable {visit : σ → α → Visit σ α} {P : σ → Prop} {Q : α → Prop}

/-- A visit keeps the invariant of the state and that of its item. -/
def Keeps (P : σ → Prop) (Q : α → Prop) : Visit σ α → Prop
  | .keep s a => P s ∧ Q a
  | .remove s => P s
  | .stop s => P s

variable (hvisit : ∀ s a, P s → Q a → Keeps P Q (visit s a))

include hvisit

/-- A pass keeps both invariants. -/
theorem passOnce_invariant (as : List α) :
    ∀ s, P s → (∀ a ∈ as, Q a) →
      P (passOnce visit s as).state ∧ ∀ a ∈ (passOnce visit s as).items, Q a := by
  induction as with
  | nil => intro s hs has; exact ⟨hs, has⟩
  | cons a as ih =>
      intro s hs has
      have hstep := hvisit s a hs (has a List.mem_cons_self)
      have hrest : ∀ b ∈ as, Q b := fun b hb => has b (List.mem_cons_of_mem _ hb)
      cases hv : visit s a with
      | keep s₁ a₁ =>
          rw [hv] at hstep
          obtain ⟨hstate, hitems⟩ := ih s₁ hstep.1 hrest
          rw [passOnce_of_keep hv, Pass.cons_state, Pass.cons_items]
          refine ⟨hstate, ?_⟩
          intro b hb
          rcases List.mem_cons.mp hb with rfl | hb
          · exact hstep.2
          · exact hitems b hb
      | remove s₁ => rw [hv] at hstep; rw [passOnce_of_remove hv]; exact ⟨hstep, hrest⟩
      | stop s₁ => rw [hv] at hstep; rw [passOnce_of_stop hv]; exact ⟨hstep, has⟩

/-- A walk keeps the invariant of the state. -/
theorem walk_invariant (as : List α) :
    ∀ s, P s → (∀ a ∈ as, Q a) → P (walk visit s as).1 := by
  induction hn : as.length using Nat.strong_induction_on generalizing as with
  | _ n ih =>
      intro s hs has
      have hpass := passOnce_invariant hvisit as s hs has
      rw [walk_eq]
      cases hp : passOnce visit s as with
      | finished s' as' => rw [hp] at hpass; exact hpass.1
      | stopped s' as' => rw [hp] at hpass; exact hpass.1
      | removed s' as' =>
          rw [hp] at hpass
          have hlen := length_of_passOnce_removed as hp
          exact ih as'.length (by omega) as' rfl s' hpass.1 hpass.2

end invariant

/-! ## What stays in the list -/

section items

variable {β : Type} {visit : σ → α → Visit σ α} {f : α → β}
  (hkeep : ∀ s a s' a', visit s a = .keep s' a' → f a' = f a)

include hkeep

/-- A pass leaves items of the list, each at most once. -/
theorem passOnce_map_sublist (as : List α) :
    ∀ s, ((passOnce visit s as).items.map f).Sublist (as.map f) := by
  induction as with
  | nil => exact fun s => List.Sublist.refl _
  | cons a as ih =>
      intro s
      cases hv : visit s a with
      | keep s₁ a₁ =>
          rw [passOnce_of_keep hv, Pass.cons_items, List.map_cons, List.map_cons,
            hkeep s a s₁ a₁ hv]
          exact (ih s₁).cons_cons _
      | remove s₁ =>
          rw [passOnce_of_remove hv]
          exact List.sublist_cons_self _ _
      | stop s₁ =>
          rw [passOnce_of_stop hv]
          exact List.Sublist.refl _

/-- So does a walk. -/
theorem walk_map_sublist (as : List α) :
    ∀ s, ((walk visit s as).2.1.map f).Sublist (as.map f) := by
  induction hn : as.length using Nat.strong_induction_on generalizing as with
  | _ n ih =>
      intro s
      have hpass := passOnce_map_sublist hkeep as s
      rw [walk_eq]
      cases hp : passOnce visit s as with
      | finished s' as' => rw [hp] at hpass; exact hpass
      | stopped s' as' => rw [hp] at hpass; exact hpass
      | removed s' as' =>
          rw [hp] at hpass
          have hlen := length_of_passOnce_removed as hp
          exact (ih as'.length (by omega) as' rfl s').trans hpass

end items

/-! ## Removals before actions -/

section removals

variable {visit : σ → α → Visit σ α} {rem act : α → Bool}

/-- Exactly the items `rem` are removed, and only the items `act` do anything else. -/
def Orderly (visit : σ → α → Visit σ α) (rem act : α → Bool) : Prop :=
  ∀ s a, (rem a = true ∧ visit s a = .remove s) ∨
    (rem a = false ∧ act a = false ∧ visit s a = .keep s a) ∨
    (rem a = false ∧ act a = true ∧
      ((∃ s', visit s a = .stop s') ∨ ∃ s' a', visit s a = .keep s' a'))

/-- Without an item to be removed, a pass ends otherwise. -/
theorem Orderly.ne_removed (h : Orderly visit rem act) (as : List α) :
    ∀ s, (∀ a ∈ as, rem a = false) → ∀ s' as', passOnce visit s as ≠ .removed s' as' := by
  induction as with
  | nil =>
      intro s _ s' as' hp
      cases hp
  | cons a as ih =>
      intro s hnone s' as' hp
      have hrest : ∀ b ∈ as, rem b = false := fun b hb => hnone b (List.mem_cons_of_mem _ hb)
      have hkeep : ∀ s₁ a₁, visit s a ≠ .keep s₁ a₁ := by
        intro s₁ a₁ hv
        rw [passOnce_of_keep hv] at hp
        cases hpass : passOnce visit s₁ as with
        | finished s₂ as₂ => rw [hpass] at hp; cases hp
        | stopped s₂ as₂ => rw [hpass] at hp; cases hp
        | removed s₂ as₂ => exact ih s₁ hrest s₂ as₂ hpass
      rcases h s a with ⟨hrem, _⟩ | ⟨_, _, hv⟩ | ⟨_, _, ⟨s₁, hv⟩ | ⟨s₁, a₁, hv⟩⟩
      · rw [hnone a List.mem_cons_self] at hrem
        cases hrem
      · exact hkeep s a hv
      · rw [passOnce_of_stop hv] at hp
        cases hp
      · exact hkeep s₁ a₁ hv

/-- Without an item to be removed, a walk is one pass. -/
theorem Orderly.walk_of_none (h : Orderly visit rem act) {as : List α}
    (hnone : ∀ a ∈ as, rem a = false) (s : σ) :
    (walk visit s as).1 = (passOnce visit s as).state := by
  rw [walk_eq]
  cases hp : passOnce visit s as with
  | finished s' as' => rfl
  | stopped s' as' => rfl
  | removed s' as' => exact absurd hp (h.ne_removed as s hnone s' as')

/-- Idle items are passed by up to the first one to be removed. -/
theorem Orderly.passOnce_removes (h : Orderly visit rem act) {gone : α} {post : List α} {s : σ}
    (hgone : rem gone = true) (pre : List α)
    (hidle : ∀ a ∈ pre, rem a = false ∧ act a = false) :
    passOnce visit s (pre ++ gone :: post) = .removed s (pre ++ post) := by
  induction pre with
  | nil =>
      rcases h s gone with ⟨_, hv⟩ | ⟨hrem, _⟩ | ⟨hrem, _⟩
      · exact passOnce_of_remove hv
      · rw [hgone] at hrem
        cases hrem
      · rw [hgone] at hrem
        cases hrem
  | cons a pre ih =>
      obtain ⟨hrem, hact⟩ := hidle a List.mem_cons_self
      rcases h s a with ⟨hrem', _⟩ | ⟨_, _, hv⟩ | ⟨_, hact', _⟩
      · rw [hrem] at hrem'
        cases hrem'
      · rw [List.cons_append, passOnce_of_keep hv,
          ih (fun b hb => hidle b (List.mem_cons_of_mem _ hb))]
        rfl
      · rw [hact] at hact'
        cases hact'

/-- The first item with a property. -/
theorem split_first {p : α → Bool} {as : List α} (h : ¬ ∀ a ∈ as, p a = false) :
    ∃ pre a post, as = pre ++ a :: post ∧ p a = true ∧ ∀ b ∈ pre, p b = false := by
  induction as with
  | nil => simp at h
  | cons a as ih =>
      cases hp : p a with
      | true => exact ⟨[], a, as, rfl, hp, by simp⟩
      | false =>
          obtain ⟨pre, b, post, rfl, hb, hpre⟩ := ih (by
            intro hall
            apply h
            intro b hb
            rcases List.mem_cons.mp hb with rfl | hb
            · exact hp
            · exact hall b hb)
          refine ⟨a :: pre, b, post, rfl, hb, ?_⟩
          intro c hc
          rcases List.mem_cons.mp hc with rfl | hc
          · exact hp
          · exact hpre c hc

/-- When no item that acts stands in front of one to be removed, the items to be removed
do not matter. -/
theorem Orderly.walk_filter (h : Orderly visit rem act) (as : List α)
    (hfirst : as.Pairwise (fun a b => ¬ (act a = true ∧ rem b = true))) (s : σ) :
    walk visit s as = walk visit s (as.filter (fun a => !rem a)) := by
  induction hn : as.length using Nat.strong_induction_on generalizing as with
  | _ n ih =>
      by_cases hnone : ∀ a ∈ as, rem a = false
      · rw [List.filter_eq_self.mpr]
        intro a ha
        rw [hnone a ha]
        rfl
      · obtain ⟨pre, gone, post, rfl, hgone, hpre⟩ := split_first hnone
        have hidle : ∀ a ∈ pre, rem a = false ∧ act a = false := by
          intro a ha
          refine ⟨hpre a ha, ?_⟩
          cases hact : act a with
          | false => rfl
          | true =>
              exact absurd ⟨hact, hgone⟩
                ((List.pairwise_append.mp hfirst).2.2 a ha gone List.mem_cons_self)
        have hsub : (pre ++ post).Sublist (pre ++ gone :: post) :=
          (List.sublist_cons_self _ _).append_left _
        rw [walk_eq, h.passOnce_removes hgone pre hidle]
        show walk visit s (pre ++ post) = _
        rw [ih (pre ++ post).length (by rw [← hn]; simp) (pre ++ post) (hfirst.sublist hsub) rfl,
          List.filter_append, List.filter_append, List.filter_cons_of_neg (by simp [hgone])]

end removals

end CursorWalk
