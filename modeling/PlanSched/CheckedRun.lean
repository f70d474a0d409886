/-
# Checked computations

A library for programs that index arrays, follow pointers, divide and free memory: a
computation either returns a value or stops at a `Fault`, the point at which the
program's behaviour is undefined.  Nothing here names the scheduler.

* `Run α` is the type of checked computations;
* `getAt` reads an array cell, `setAt` writes one, `cdiv` is the truncating division
  of C;
* `bind_ok` takes a returned sequence of steps apart, `foldlM_invariant` carries
  an invariant through a checked left fold, `foldlM_invariant_of_eachStep` through
  one whose steps all meet a condition (`EachStep`), `foldlM_range` through a counting
  loop that returns, `mapM_exists` and `forall₂_of_mapM` describe a checked map cell
  by cell;
* `Avoids e x` says that `x` never stops at the fault `e`, `Avoids.bind` proves
  it step by step.

Trust base: `[propext, Classical.choice, Quot.sound]`.
-/
import Mathlib

namespace CheckedRun

/-! ## Faults and runs -/

/-- The undefined behaviours a run can meet. -/
inductive Fault : Type where
  | badIndex : Fault
  | nullPointer : Fault
  | divByZero : Fault
  | badFree : Fault
  | outOfSteps : Fault
  deriving DecidableEq, Repr, Inhabited

/-- A checked computation: a value, or the fault it stopped at. -/
abbrev Run (α : Type) : Type := Except Fault α

variable {α β γ ε : Type}

/-- A sequence of two steps returns exactly when both do, whatever the errors are. -/
theorem bind_ok {x : Except ε α} {f : α → Except ε β} {b : β} :
    (x >>= f) = .ok b ↔ ∃ a, x = .ok a ∧ f a = .ok b := by
  cases x with
  | error e => simp [bind, Except.bind]
  | ok a => simp [bind, Except.bind]

/-- `pure` returns its argument. -/
theorem pure_ok {a b : α} : (pure a : Except ε α) = .ok b ↔ a = b := by
  simp [pure, Except.pure]

/-- A mapped computation returns exactly when it does. -/
theorem map_ok {x : Except ε α} {f : α → β} {b : β} :
    x.map f = .ok b ↔ ∃ a, x = .ok a ∧ f a = b := by
  cases x with
  | error e => simp [Except.map]
  | ok a => simp [Except.map]

/-- Two sequences agree up to a map of their results if their steps do. -/
theorem map_bind_congr {δ : Type} {x : Run α} {x' : Run β} {f : α → Run γ} {f' : β → Run δ}
    {e : α → β} {e' : γ → δ} (hx : x.map e = x') (hf : ∀ a, (f a).map e' = f' (e a)) :
    (x >>= f).map e' = x' >>= f' := by
  subst hx
  cases x with
  | error fault => rfl
  | ok a => exact hf a

/-- A fault never counts as a returned value. -/
@[simp] theorem error_ne_ok {e : Fault} {a : α} : (Except.error e : Run α) ≠ .ok a := by
  intro h
  cases h

/-! ## Array cells and division -/

/-- Read cell `i`; an index past the end is a fault. -/
def getAt (xs : List α) (i : ℕ) : Run α :=
  match xs[i]? with
  | some a => .ok a
  | none => .error .badIndex

/-- A read returns exactly the cell's content. -/
theorem getAt_ok {xs : List α} {i : ℕ} {a : α} : getAt xs i = .ok a ↔ xs[i]? = some a := by
  unfold getAt
  cases h : xs[i]? with
  | none => simp
  | some b => simp

/-- Write cell `i`; an index past the end is a fault. -/
def setAt (xs : List α) (i : ℕ) (a : α) : Run (List α) :=
  if i < xs.length then .ok (xs.set i a) else .error .badIndex

/-- A write returns exactly inside the array. -/
theorem setAt_ok {xs ys : List α} {i : ℕ} {a : α} :
    setAt xs i a = .ok ys ↔ i < xs.length ∧ ys = xs.set i a := by
  unfold setAt
  by_cases hi : i < xs.length
  · rw [if_pos hi]
    simp only [Except.ok.injEq, hi, true_and]
    exact eq_comm
  · rw [if_neg hi]
    simp [hi]

/-- Follow an optional pointer; `NULL` is a fault. -/
def deref : Option α → Run α
  | some a => .ok a
  | none => .error .nullPointer

/-- A pointer was followed exactly when it was set. -/
theorem deref_ok {p : Option α} {a : α} : deref p = .ok a ↔ p = some a := by
  cases p <;> simp [deref]

/-- The division of C: rounding towards zero, undefined for divisor `0`. -/
def cdiv (a b : ℤ) : Run ℤ :=
  if b = 0 then .error .divByZero else .ok (a.tdiv b)

/-- A division returns exactly if the divisor is not `0`. -/
theorem cdiv_ok {a b q : ℤ} : cdiv a b = .ok q ↔ b ≠ 0 ∧ q = a.tdiv b := by
  unfold cdiv
  by_cases hb : b = 0
  · simp [hb]
  · rw [if_neg hb]
    simp only [Except.ok.injEq, ne_eq, hb, not_false_eq_true, true_and]
    exact eq_comm

/-! ## Faults that do not occur -/

/-- The computation does not stop at fault `e`. -/
def Avoids (e : Fault) (x : Run α) : Prop := x ≠ .error e

/-- A returned value is no fault. -/
theorem avoids_ok (e : Fault) (a : α) : Avoids e (.ok a : Run α) := by
  intro h
  cases h

/-- A sequence avoids a fault when both steps do. -/
theorem Avoids.bind {e : Fault} {x : Run α} {f : α → Run β} (hx : Avoids e x)
    (hf : ∀ a, x = .ok a → Avoids e (f a)) : Avoids e (x >>= f) := by
  cases x with
  | ok a => exact hf a rfl
  | error e' =>
      intro h
      exact hx (by cases h; rfl)

/-- Reading inside the bounds avoids every fault. -/
theorem avoids_getAt (e : Fault) {xs : List α} {i : ℕ} (h : i < xs.length) :
    Avoids e (getAt xs i) := by
  unfold getAt
  rw [List.getElem?_eq_getElem h]
  exact avoids_ok e _

/-- Following a pointer never reads outside an array. -/
theorem avoids_deref (p : Option α) : Avoids .badIndex (deref p) := by
  cases p with
  | none => intro h; cases h
  | some a => exact avoids_ok _ a

/-- Another fault is not this one. -/
theorem avoids_error {e e' : Fault} (h : e' ≠ e) : Avoids e (.error e' : Run α) := by
  intro heq
  cases heq
  exact h rfl

/-- Reading a cell always ends. -/
theorem getAt_ends (xs : List α) (i : ℕ) : Avoids .outOfSteps (getAt xs i) := by
  unfold getAt
  split
  · exact avoids_ok _ _
  · exact avoids_error (by decide)

/-- Following a pointer always ends. -/
theorem deref_ends (p : Option α) : Avoids .outOfSteps (deref p) := by
  cases p with
  | none => exact avoids_error (by decide)
  | some a => exact avoids_ok _ a

/-- A division has no other fault than its own. -/
theorem avoids_cdiv {e : Fault} (h : .divByZero ≠ e) (a b : ℤ) : Avoids e (cdiv a b) := by
  unfold cdiv
  split
  · exact avoids_error h
  · exact avoids_ok _ _

/-- A division always ends. -/
theorem cdiv_ends (a b : ℤ) : Avoids .outOfSteps (cdiv a b) := avoids_cdiv (by decide) a b

/-- A checked fold avoids a fault when every step does. -/
theorem avoids_foldlM {e : Fault} {f : β → α → Run β} (xs : List α)
    (h : ∀ b, ∀ a ∈ xs, Avoids e (f b a)) : ∀ b, Avoids e (xs.foldlM f b) := by
  induction xs with
  | nil =>
      intro b
      exact avoids_ok e b
  | cons a xs ih =>
      intro b
      rw [List.foldlM_cons]
      refine (h b a List.mem_cons_self).bind (fun b' _ => ?_)
      exact ih (fun b a' ha' => h b a' (List.mem_cons_of_mem _ ha')) b'

/-- A checked map avoids a fault when every step does. -/
theorem avoids_mapM {e : Fault} {f : α → Run β} (xs : List α) (h : ∀ a ∈ xs, Avoids e (f a)) :
    Avoids e (xs.mapM f) := by
  induction xs with
  | nil => exact avoids_ok e []
  | cons a xs ih =>
      rw [List.mapM_cons]
      refine (h a List.mem_cons_self).bind (fun b _ => ?_)
      refine (ih (fun a' ha' => h a' (List.mem_cons_of_mem _ ha'))).bind (fun bs _ => ?_)
      exact avoids_ok e _

/-! ## Folds and loops -/

/-- An invariant preserved by every returned step of a checked fold holds of its
result. -/
theorem foldlM_invariant (P : β → Prop) (f : β → α → Except ε β) (xs : List α) :
    ∀ b b' : β, (∀ b a b', a ∈ xs → P b → f b a = .ok b' → P b') →
      P b → xs.foldlM f b = .ok b' → P b' := by
  induction xs with
  | nil =>
      intro b b' _ hb h
      rw [List.foldlM_nil, pure_ok] at h
      exact h ▸ hb
  | cons a xs ih =>
      intro b b' hstep hb h
      rw [List.foldlM_cons, bind_ok] at h
      obtain ⟨b₁, h₁, h₂⟩ := h
      refine ih b₁ b' (fun c x c' hx => hstep c x c' (List.mem_cons_of_mem _ hx)) ?_ h₂
      exact hstep b a b₁ List.mem_cons_self hb h₁

/-- In the checked fold of `step` over `xs` from `s`, every step is made in a state
that meets `P`. -/
def EachStep (step : β → α → Run β) (P : β → α → Prop) (s : β) (xs : List α) : Prop :=
  ∀ (front : List α) (a : α) (rest : List α), xs = front ++ a :: rest →
    ∀ s', front.foldlM step s = .ok s' → P s' a

/-- An invariant kept by the steps that meet a condition holds after every fold in
which all steps do. -/
theorem foldlM_invariant_of_eachStep {step : β → α → Run β} {P : β → α → Prop} {Inv : β → Prop}
    (hstep : ∀ s a s', P s a → Inv s → step s a = .ok s' → Inv s') (xs : List α) :
    ∀ {s s' : β}, EachStep step P s xs → Inv s → xs.foldlM step s = .ok s' → Inv s' := by
  induction xs with
  | nil =>
      intro s s' _ hs h
      rw [List.foldlM_nil, pure_ok] at h
      exact h ▸ hs
  | cons a xs ih =>
      intro s s' heach hs h
      rw [List.foldlM_cons, bind_ok] at h
      obtain ⟨s₁, h₁, h₂⟩ := h
      refine ih ?_ (hstep s a s₁ (heach [] a xs rfl s rfl) hs h₁) h₂
      intro front b rest hsplit s₂ hs₂
      refine heach (a :: front) b rest (by rw [hsplit]; rfl) s₂ ?_
      rw [List.foldlM_cons, bind_ok]
      exact ⟨s₁, h₁, hs₂⟩

/-- A counting loop whose passes return and carry `Inv` from one count to the next returns,
with `Inv` at the last count. -/
theorem foldlM_range {f : β → ℕ → Run β} (Inv : ℕ → β → Prop) (n : ℕ)
    (hstep : ∀ i < n, ∀ s, Inv i s → ∃ s', f s i = .ok s' ∧ Inv (i + 1) s') {s : β}
    (hs : Inv 0 s) : ∃ s', (List.range n).foldlM f s = .ok s' ∧ Inv n s' := by
  induction n with
  | zero => exact ⟨s, rfl, hs⟩
  | succ n ih =>
      obtain ⟨s₁, h₁, hinv⟩ := ih (fun i hi => hstep i (Nat.lt_succ_of_lt hi))
      obtain ⟨s₂, h₂, hinv'⟩ := hstep n (Nat.lt_succ_self n) s₁ hinv
      refine ⟨s₂, ?_, hinv'⟩
      rw [List.range_succ, List.foldlM_append, h₁]
      show (List.foldlM f s₁ [n] : Run β) = .ok s₂
      rw [List.foldlM_cons, h₂]
      rfl

/-- A counting loop that returned carries what each of its passes carries from one count to
the next. -/
theorem foldlM_range_invariant {f : β → ℕ → Except ε β} {Inv : ℕ → β → Prop} (n : ℕ)
    (hstep : ∀ i < n, ∀ s s', Inv i s → f s i = .ok s' → Inv (i + 1) s') {s : β} (hs : Inv 0 s) :
    ∀ {s' : β}, (List.range n).foldlM f s = .ok s' → Inv n s' := by
  induction n with
  | zero =>
      intro s' h
      rw [List.range_zero, List.foldlM_nil, pure_ok] at h
      exact h ▸ hs
  | succ n ih =>
      intro s' h
      rw [List.range_succ, List.foldlM_append, bind_ok] at h
      obtain ⟨mid, hmid, h⟩ := h
      rw [List.foldlM_cons, bind_ok] at h
      obtain ⟨last, hlast, h⟩ := h
      rw [List.foldlM_nil, pure_ok] at h
      subst h
      exact hstep n (Nat.lt_succ_self n) mid last
        (ih (fun i hi => hstep i (Nat.lt_succ_of_lt hi)) hmid) hlast

/-- Every step of a returned checked fold returned. -/
theorem exists_step_of_foldlM {f : β → α → Run β} (xs : List α) :
    ∀ {b b' : β}, xs.foldlM f b = .ok b' → ∀ a ∈ xs, ∃ b₁ b₂, f b₁ a = .ok b₂ := by
  induction xs with
  | nil =>
      intro b b' _ a ha
      cases ha
  | cons x xs ih =>
      intro b b' h a ha
      rw [List.foldlM_cons, bind_ok] at h
      obtain ⟨b₁, h₁, h₂⟩ := h
      rcases List.mem_cons.mp ha with rfl | ha
      · exact ⟨b, b₁, h₁⟩
      · exact ih h₂ a ha

/-- A check that has one result for all slots. -/
theorem mapM_eq_replicate {f : α → Run β} {b : β} (xs : List α)
    (h : ∀ a ∈ xs, f a = .ok b) : xs.mapM f = .ok (List.replicate xs.length b) := by
  induction xs with
  | nil => rfl
  | cons a xs ih =>
      rw [List.mapM_cons, h a List.mem_cons_self,
        ih (fun a' h' => h a' (List.mem_cons_of_mem _ h'))]
      rfl

/-- When every step of a checked map returns a related value, the map returns a
list related cell by cell. -/
theorem mapM_exists {R : α → β → Prop} {f : α → Run β} (xs : List α)
    (h : ∀ a ∈ xs, ∃ b, f a = .ok b ∧ R a b) :
    ∃ ys, xs.mapM f = .ok ys ∧ List.Forall₂ R xs ys := by
  induction xs with
  | nil => exact ⟨[], rfl, List.Forall₂.nil⟩
  | cons a xs ih =>
      obtain ⟨b, hb, hab⟩ := h a List.mem_cons_self
      obtain ⟨bs, hbs, habs⟩ := ih (fun a' ha' => h a' (List.mem_cons_of_mem _ ha'))
      refine ⟨b :: bs, ?_, List.Forall₂.cons hab habs⟩
      rw [List.mapM_cons, bind_ok]
      refine ⟨b, hb, ?_⟩
      rw [bind_ok]
      exact ⟨bs, hbs, rfl⟩

/-- A returned checked map relates each cell to the value of its step. -/
theorem forall₂_of_mapM {f : α → Run β} (xs : List α) :
    ∀ ys : List β, xs.mapM f = .ok ys → List.Forall₂ (fun a b => f a = .ok b) xs ys := by
  induction xs with
  | nil =>
      intro ys h
      rw [List.mapM_nil, pure_ok] at h
      rw [← h]
      exact List.Forall₂.nil
  | cons a xs ih =>
      intro ys h
      rw [List.mapM_cons, bind_ok] at h
      obtain ⟨b, hb, h⟩ := h
      rw [bind_ok] at h
      obtain ⟨bs, hbs, h⟩ := h
      rw [pure_ok] at h
      rw [← h]
      exact List.Forall₂.cons hb (ih bs hbs)

/-- A checked map returns exactly the lists related cell by cell by its step. -/
theorem mapM_ok {f : α → Run β} {xs : List α} {ys : List β} :
    xs.mapM f = .ok ys ↔ List.Forall₂ (fun a b => f a = .ok b) xs ys := by
  refine ⟨forall₂_of_mapM xs ys, ?_⟩
  intro h
  induction h with
  | nil => rfl
  | cons hab _ ih =>
      rw [List.mapM_cons, bind_ok]
      refine ⟨_, hab, ?_⟩
      rw [bind_ok]
      exact ⟨_, ih, rfl⟩

/-- Each cell of a returned checked map is the value of its step. -/
theorem exists_of_mapM_getElem? {f : α → Run β} {xs : List α} {ys : List β}
    (h : xs.mapM f = .ok ys) {i : ℕ} {b : β} (hb : ys[i]? = some b) :
    ∃ a, xs[i]? = some a ∧ f a = .ok b := by
  have hcells := forall₂_of_mapM xs ys h
  obtain ⟨hi, rfl⟩ := List.getElem?_eq_some_iff.mp hb
  have hi' : i < xs.length := by rw [hcells.length_eq]; exact hi
  exact ⟨xs[i], List.getElem?_eq_getElem hi', hcells.get hi' hi⟩

end CheckedRun
