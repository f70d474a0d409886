/-
# Segments of a doubly linked memory

A library for intrusive doubly linked lists: the links of all items are two maps
`next` and `prev`, and a list is a sequence of items laid out along them.
Nothing here names the scheduler.

* `Segment next prev p xs q` says that `xs` is laid out along the links between
  the neighbours `p` and `q`;
* `segment_append` cuts a segment in two, `segment_reverse` reads it backwards,
  `segment_iff` reads the links off at every position;
* `Segment.splice` is the one rule for every change: two ends are kept but for the
  links that meet, and a middle is put between them;
* `Segment.walk` and `Segment.walkBack` say where a walk of `k` steps ends;
* `insertBefore` and `insertAfter` are the insertions next to a member.

Trust base: `[propext, Classical.choice, Quot.sound]`.
-/
import Mathlib

namespace LinkedSegment

variable {α : Type}

/-! ## Segments -/

/-- `xs` is laid out along the links, after `p` and before `q`. -/
def Segment (next prev : α → Option α) : Option α → List α → Option α → Prop
  | _, [], _ => True
  | p, a :: as, q => prev a = p ∧ next a = as.head?.or q ∧ Segment next prev (some a) as q

variable {next prev next' prev' : α → Option α} {p q r : Option α} {xs ys : List α}

/-- A segment of two parts is two segments that meet. -/
theorem segment_append : ∀ {p : Option α} {xs : List α},
    Segment next prev p (xs ++ ys) q ↔
      Segment next prev p xs (ys.head?.or q) ∧ Segment next prev (xs.getLast?.or p) ys q := by
  intro p xs
  induction xs generalizing p with
  | nil => simp [Segment]
  | cons a as ih =>
      have hhead : (as ++ ys).head?.or q = as.head?.or (ys.head?.or q) := by
        rw [List.head?_append, Option.or_assoc]
      have hlast : (a :: as).getLast?.or p = as.getLast?.or (some a) := by
        cases as with
        | nil => rfl
        | cons b bs => simp [List.getLast?_cons]
      rw [List.cons_append, Segment, Segment, hhead, hlast, ih, and_assoc, and_assoc]

/-- A segment read backwards is a segment of the exchanged links. -/
theorem segment_reverse : ∀ {p q : Option α} {xs : List α},
    Segment next prev p xs q → Segment prev next q xs.reverse p := by
  intro p q xs h
  induction xs generalizing p with
  | nil => exact trivial
  | cons a as ih =>
      obtain ⟨hprev, hnext, hrest⟩ := h
      rw [List.reverse_cons, segment_append]
      refine ⟨ih hrest, ?_, ?_, trivial⟩
      · rw [hnext, List.getLast?_reverse]
      · simpa using hprev

/-- The links of a segment, position by position. -/
theorem segment_iff : Segment next prev p xs q ↔
    ∀ pre a post, xs = pre ++ a :: post →
      prev a = pre.getLast?.or p ∧ next a = post.head?.or q := by
  constructor
  · rintro h pre a post rfl
    obtain ⟨-, hprev, hnext, -⟩ := segment_append.mp h
    exact ⟨hprev, hnext⟩
  · intro h
    induction xs generalizing p with
    | nil => exact trivial
    | cons a as ih =>
        obtain ⟨hprev, hnext⟩ := h [] a as rfl
        refine ⟨by simpa using hprev, hnext, ?_⟩
        apply ih
        intro pre b post hsplit
        obtain ⟨hprevb, hnextb⟩ := h (a :: pre) b post (by rw [hsplit]; rfl)
        refine ⟨?_, hnextb⟩
        rw [hprevb]
        cases pre with
        | nil => rfl
        | cons c cs => simp [List.getLast?_cons]

/-! ## Changing the links -/

/-- Only the link out of the last item is redirected. -/
theorem Segment.redirectLast (h : Segment next prev p xs q) (hnodup : xs.Nodup)
    (hprev : ∀ a ∈ xs, prev' a = prev a)
    (hnext : ∀ a ∈ xs, xs.getLast? ≠ some a → next' a = next a)
    (hlast : ∀ a, xs.getLast? = some a → next' a = r) : Segment next' prev' p xs r := by
  induction xs generalizing p with
  | nil => exact trivial
  | cons a as ih =>
      obtain ⟨ha, hna, hrest⟩ := h
      obtain ⟨hnot, hnodup⟩ := List.nodup_cons.mp hnodup
      refine ⟨?_, ?_, ?_⟩
      · rw [hprev a (by simp), ha]
      · cases as with
        | nil => simpa using hlast a rfl
        | cons b bs =>
            -- a further item follows, so `a` is not the last one
            have hne : (a :: b :: bs).getLast? ≠ some a := by
              rw [List.getLast?_cons_cons]
              intro heq
              exact hnot (List.mem_of_getLast? heq)
            rw [hnext a (by simp) hne, hna]
            rfl
      · cases as with
        | nil => exact trivial
        | cons b bs =>
            apply ih hrest hnodup
            · intro c hc
              exact hprev c (List.mem_cons_of_mem _ hc)
            · intro c hc hne
              exact hnext c (List.mem_cons_of_mem _ hc) (by rwa [List.getLast?_cons_cons])
            · intro c hc
              exact hlast c (by rwa [List.getLast?_cons_cons])

/-- Only the link out of the first item is redirected. -/
theorem Segment.redirectFirst (h : Segment next prev p xs q) (hnodup : xs.Nodup)
    (hnext : ∀ a ∈ xs, next' a = next a)
    (hprev : ∀ a ∈ xs, xs.head? ≠ some a → prev' a = prev a)
    (hfirst : ∀ a, xs.head? = some a → prev' a = r) : Segment next' prev' r xs q := by
  have hback := Segment.redirectLast (segment_reverse h) (List.nodup_reverse.mpr hnodup)
    (fun a ha => hnext a (List.mem_reverse.mp ha))
    (fun a ha hne => hprev a (List.mem_reverse.mp ha) (by rwa [List.getLast?_reverse] at hne))
    (fun a ha => hfirst a (by rwa [List.getLast?_reverse] at ha))
  simpa using segment_reverse hback

/-! ## Walking along the links -/

/-- `k` steps along the links; a walk stays at the end once it is reached. -/
def walk (next : α → Option α) (k : ℕ) (a : Option α) : Option α :=
  (fun o : Option α => o.bind next)^[k] a

/-- One more step. -/
theorem walk_succ (k : ℕ) (a : Option α) : walk next (k + 1) a = walk next k (a.bind next) := rfl

/-- From the first item, `k` steps lead to the item at position `k`. -/
theorem Segment.walk (h : Segment next prev p xs none) (k : ℕ) :
    LinkedSegment.walk next k xs.head? = xs[k]? := by
  induction k generalizing p xs with
  | zero => cases xs <;> rfl
  | succ k ih =>
      rw [walk_succ]
      cases xs with
      | nil =>
          show LinkedSegment.walk next k (List.head? ([] : List α)) = _
          rw [@ih p [] trivial]
          rfl
      | cons a as =>
          obtain ⟨-, hnext, hrest⟩ := h
          rw [Option.or_none] at hnext
          show LinkedSegment.walk next k (next a) = _
          rw [hnext, ih hrest, List.getElem?_cons_succ]

/-- From the last item, `k` steps back lead to the item at position `k` from the end. -/
theorem Segment.walkBack (h : Segment next prev none xs q) (k : ℕ) :
    LinkedSegment.walk prev k xs.getLast? = xs.reverse[k]? := by
  rw [← List.head?_reverse]
  exact (segment_reverse h).walk k

/-! ## The splice -/

variable [DecidableEq α]

/-- Redirect the link of an item, of no item for `none`. -/
def redirect (links : α → Option α) (item target : Option α) : α → Option α :=
  fun a => if item = some a then target else links a

/-- The redirected link. -/
@[simp] theorem redirect_self (links : α → Option α) (a : α) (b : Option α) :
    redirect links (some a) b a = b := if_pos rfl

/-- The other links stay. -/
theorem redirect_of_ne {links : α → Option α} {item b : Option α} {a : α} (h : item ≠ some a) :
    redirect links item b a = links a := if_neg h

/-- Redirecting the link of no item changes nothing. -/
@[simp] theorem redirect_none (links : α → Option α) (b : Option α) :
    redirect links none b = links := by
  funext a
  simp [redirect]

/-- Of two writes to one link the second stays. -/
@[simp] theorem redirect_redirect (links : α → Option α) (a b c : Option α) :
    redirect (redirect links a b) a c = redirect links a c := by
  funext x
  simp only [redirect]
  split
  · rfl
  · rfl

/-- Two links of different items can be written in either order. -/
theorem redirect_comm {links : α → Option α} {a b c d : Option α} (h : a ≠ b) :
    redirect (redirect links a c) b d = redirect (redirect links b d) a c := by
  funext x
  simp only [redirect]
  split
  · rename_i hb
    rw [if_neg]
    rintro rfl
    exact h hb.symm
  · rfl

/-- **The splice**: two ends that keep their links, but for the two that meet the new middle,
and a middle laid out between them, make one list. -/
theorem Segment.splice {as ms bs : List α} (has : Segment next prev none as q)
    (hbs : Segment next prev r bs none) (hnodup : (as ++ bs).Nodup)
    (hms : Segment next' prev' as.getLast? ms bs.head?)
    (hnext : ∀ a ∈ as ++ bs, next' a = redirect next as.getLast? (ms ++ bs).head? a)
    (hprev : ∀ a ∈ as ++ bs, prev' a = redirect prev bs.head? (as ++ ms).getLast? a) :
    Segment next' prev' none (as ++ (ms ++ bs)) none := by
  obtain ⟨hasNodup, hbsNodup, hapart⟩ := List.nodup_append.mp hnodup
  rw [segment_append, segment_append]
  refine ⟨?_, ?_, ?_⟩
  · rw [Option.or_none]
    apply has.redirectLast hasNodup
    · intro a ha
      rw [hprev a (List.mem_append_left _ ha), redirect_of_ne]
      intro heq
      exact hapart a ha a (List.mem_of_head? heq) rfl
    · intro a ha hne
      rw [hnext a (List.mem_append_left _ ha), redirect_of_ne hne]
    · intro a ha
      rw [hnext a (List.mem_append_left _ (List.mem_of_getLast? ha)), redirect, if_pos ha]
  · rw [Option.or_none, Option.or_none]
    exact hms
  · apply hbs.redirectFirst hbsNodup
    · intro b hb
      rw [hnext b (List.mem_append_right _ hb), redirect_of_ne]
      intro heq
      exact hapart b (List.mem_of_getLast? heq) b hb rfl
    · intro b hb hne
      rw [hprev b (List.mem_append_right _ hb), redirect_of_ne hne]
    · intro b hb
      rw [hprev b (List.mem_append_right _ (List.mem_of_head? hb)), redirect, if_pos hb,
        List.getLast?_append, Option.or_none]

/-! ## Insertions next to a member -/

/-- Put `new` before the member `a`. -/
def insertBefore (a new : α) : List α → List α
  | [] => []
  | x :: xs => if x = a then new :: x :: xs else x :: insertBefore a new xs

/-- Put `new` after the member `a`. -/
def insertAfter (a new : α) : List α → List α
  | [] => []
  | x :: xs => if x = a then x :: new :: xs else x :: insertAfter a new xs

/-- The insertion at a known place. -/
theorem insertBefore_split {a new : α} (h : a ∉ xs) :
    insertBefore a new (xs ++ a :: ys) = xs ++ new :: a :: ys := by
  induction xs with
  | nil => simp [insertBefore]
  | cons x xs ih =>
      rw [List.mem_cons, not_or] at h
      rw [List.cons_append, insertBefore, if_neg (Ne.symm h.1), ih h.2]
      rfl

/-- The insertion at a known place. -/
theorem insertAfter_split {a new : α} (h : a ∉ xs) :
    insertAfter a new (xs ++ a :: ys) = xs ++ a :: new :: ys := by
  induction xs with
  | nil => simp [insertAfter]
  | cons x xs ih =>
      rw [List.mem_cons, not_or] at h
      rw [List.cons_append, insertAfter, if_neg (Ne.symm h.1), ih h.2]
      rfl

end LinkedSegment
