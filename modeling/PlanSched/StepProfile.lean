/-
# Step functions kept as lists of breakpoints

A library for a function of time stored as a list of entries, each with a key
(the time from which it counts): the value at `t` is the value of the last entry
whose key is at most `t`, and `0` before the first one.  Nothing here names the
scheduler; `α` is the type of entries, `key` their time and `val` their value.

* `valueAt_insert`: a new breakpoint that copies its left neighbour (or is zero
  at the front) leaves the function unchanged;
* `valueAt_raise`: raising the entries with key in `[s, e)` raises the function
  exactly on `[s, e)`, provided `s` and `e` are breakpoints;
* `sweep_isLeast`: one pass over the entries finds the earliest window of a given
  length in which every entry in force is acceptable.

Trust base: `[propext, Classical.choice, Quot.sound]`.
-/
import Mathlib

namespace StepProfile

variable {α : Type} {key : α → ℤ}

/-! ## The entry in force -/

/-- The last entry with key at most `t`. -/
def lastLe (key : α → ℤ) (xs : List α) (t : ℤ) : Option α :=
  (xs.filter (fun a => key a ≤ t)).getLast?

/-- The value in force at `t`: `0` before the first entry. -/
def valueAt (key : α → ℤ) (val : α → ℤ) (xs : List α) (t : ℤ) : ℤ :=
  ((lastLe key xs t).map val).getD 0

/-- The keys are strictly increasing. -/
def Increasing (key : α → ℤ) (xs : List α) : Prop :=
  xs.Pairwise (fun a b => key a < key b)

/-- The entry in force belongs to the list and has begun. -/
theorem mem_of_lastLe {xs : List α} {t : ℤ} {a : α} (h : lastLe key xs t = some a) :
    a ∈ xs ∧ key a ≤ t := by
  have hmem := List.mem_of_getLast? h
  rw [List.mem_filter] at hmem
  exact ⟨hmem.1, by simpa using hmem.2⟩

/-- Among increasing keys the entry in force has the largest key at most `t`. -/
theorem key_le_lastLe {xs : List α} (hinc : Increasing key xs) {t : ℤ} {a : α}
    (ha : a ∈ xs) (hat : key a ≤ t) :
    ∃ b, lastLe key xs t = some b ∧ key a ≤ key b := by
  have hmem : a ∈ xs.filter (fun a => key a ≤ t) := by
    rw [List.mem_filter]
    exact ⟨ha, by simpa using hat⟩
  have hsorted : (xs.filter (fun a => key a ≤ t)).Pairwise (fun a b => key a < key b) :=
    List.Pairwise.filter _ hinc
  unfold lastLe
  generalize xs.filter (fun a => key a ≤ t) = ys at hmem hsorted ⊢
  obtain ⟨init, last, rfl⟩ : ∃ init last, ys = init ++ [last] := by
    refine ⟨ys.dropLast, ys.getLast (List.ne_nil_of_mem hmem), ?_⟩
    exact (List.dropLast_append_getLast (List.ne_nil_of_mem hmem)).symm
  refine ⟨last, by simp, ?_⟩
  rw [List.mem_append, List.mem_singleton] at hmem
  rcases hmem with h | h
  · rw [List.pairwise_append] at hsorted
    exact le_of_lt (hsorted.2.2 a h last (by simp))
  · rw [h]

/-! ## Inserting a breakpoint -/

/-- A new breakpoint carrying the value of its left neighbour (`0` when it comes
first) does not change the function. -/
theorem valueAt_insert {val : α → ℤ} {pre post : List α} {x : α}
    (hpre : ∀ a ∈ pre, key a < key x)
    (hval : val x = (pre.getLast?.map val).getD 0) (t : ℤ) :
    valueAt key val (pre ++ x :: post) t = valueAt key val (pre ++ post) t := by
  unfold valueAt lastLe
  rw [List.filter_append, List.filter_append]
  by_cases htx : key x ≤ t
  · rw [List.filter_cons_of_pos (by simpa using htx)]
    have hall : pre.filter (fun a => key a ≤ t) = pre := by
      rw [List.filter_eq_self]
      intro a ha
      have := hpre a ha
      simp
      omega
    rw [hall]
    -- the breakpoint is in force exactly when no later entry has begun
    cases hq : post.filter (fun a => key a ≤ t) with
    | nil => simp [hval]
    | cons b bs => simp [List.getLast?_append]
  · rw [List.filter_cons_of_neg (by simpa using htx)]

/-! ## Raising a range -/

/-- The last entries of two lists related entry by entry are related. -/
theorem getLast?_rel {R : α → α → Prop} {xs ys : List α} (h : List.Forall₂ R xs ys) :
    Option.Rel R xs.getLast? ys.getLast? := by
  induction h with
  | nil => simp
  | @cons a b as bs hab hrest ih =>
      cases hrest with
      | nil => simpa using hab
      | @cons a' b' as' bs' hab' hrest' =>
          rw [List.getLast?_cons_cons, List.getLast?_cons_cons]
          exact ih

/-- Entries changed in place keep increasing keys. -/
theorem Increasing.of_forall₂ {xs ys : List α} (hinc : Increasing key xs)
    (h : List.Forall₂ (fun a b => key a = key b) xs ys) : Increasing key ys := by
  have hmap : xs.map key = ys.map key := by
    rw [← List.forall₂_eq_eq_eq, List.forall₂_map_left_iff, List.forall₂_map_right_iff]
    exact h
  unfold Increasing at *
  rw [← List.pairwise_map (f := key) (R := (· < ·))] at *
  rw [← hmap]
  exact hinc

/-- Two lists with equal keys entry by entry have related entries in force. -/
theorem lastLe_rel {R : α → α → Prop} (hkey : ∀ a b, R a b → key a = key b)
    {xs ys : List α} (h : List.Forall₂ R xs ys) (t : ℤ) :
    Option.Rel R (lastLe key xs t) (lastLe key ys t) := by
  unfold lastLe
  apply getLast?_rel
  induction h with
  | nil => exact List.Forall₂.nil
  | @cons a b as bs hab _ ih =>
      rw [List.filter_cons, List.filter_cons, hkey a b hab]
      split
      · exact List.Forall₂.cons hab ih
      · exact ih

/-- Raising by `v` every entry with key in `[s, e)` raises the function by `v`
exactly on `[s, e)`, when `s` and `e` are breakpoints. -/
theorem valueAt_raise {val : α → ℤ} {xs ys : List α} {s e v : ℤ}
    (hinc : Increasing key xs)
    (hs : ∃ a ∈ xs, key a = s) (he : ∃ a ∈ xs, key a = e)
    (h : List.Forall₂ (fun a b => key a = key b ∧
      val b = val a + if s ≤ key a ∧ key a < e then v else 0) xs ys) (t : ℤ) :
    valueAt key val ys t = valueAt key val xs t + if s ≤ t ∧ t < e then v else 0 := by
  have hrel := lastLe_rel (fun a b hab => hab.1) h t
  unfold valueAt
  cases hx : lastLe key xs t with
  | none =>
      -- nothing has begun yet, so `t` lies before `s`
      have hts : ¬ (s ≤ t) := by
        intro hst
        obtain ⟨a, ha, hka⟩ := hs
        obtain ⟨b, hb, _⟩ := key_le_lastLe hinc ha (hka ▸ hst)
        rw [hx] at hb
        cases hb
      rw [hx] at hrel
      cases hy : lastLe key ys t with
      | none => simp [hts]
      | some b => rw [hy] at hrel; cases hrel
  | some a =>
      rw [hx] at hrel
      cases hy : lastLe key ys t with
      | none => rw [hy] at hrel; cases hrel
      | some b =>
          rw [hy] at hrel
          cases hrel with
          | some hab =>
              have hkt := (mem_of_lastLe hx).2
              have hlo : s ≤ key a ↔ s ≤ t := by
                constructor
                · intro h'; omega
                · intro hst
                  obtain ⟨c, hc, hkc⟩ := hs
                  obtain ⟨d, hd, hcd⟩ := key_le_lastLe hinc hc (hkc ▸ hst)
                  rw [hx] at hd
                  cases hd
                  omega
              have hhi : key a < e ↔ t < e := by
                constructor
                · intro h'
                  by_contra hte
                  obtain ⟨c, hc, hkc⟩ := he
                  obtain ⟨d, hd, hcd⟩ := key_le_lastLe (t := t) hinc hc (by omega)
                  rw [hx] at hd
                  cases hd
                  omega
                · intro h'; omega
              simp only [Option.map_some, Option.getD_some, hab.2, hlo, hhi]

/-! ## The earliest window without an unacceptable entry -/

/-- In the window of length `d` from `s` on, every entry in force is acceptable. -/
def FitsFrom (key : α → ℤ) (ok : α → Prop) (d : ℤ) (xs : List α) (s : ℤ) : Prop :=
  ∀ t, s ≤ t → t < s + d → ∀ a, lastLe key xs t = some a → ok a

/-- The entry is in force at `s` and has a successor, or it begins in the rest of
the window of length `d`. -/
def Touches (key : α → ℤ) (d : ℤ) (a : α) (next : Option α) (s : ℤ) : Prop :=
  (∃ b ∈ next, key a ≤ s ∧ s < key b) ∨ (s < key a ∧ key a < s + d)

instance (key : α → ℤ) (d : ℤ) (a : α) (next : Option α) (s : ℤ) :
    Decidable (Touches key d a next s) :=
  inferInstanceAs (Decidable (_ ∨ _))

/-- One pass: a window that an unacceptable entry touches moves behind the entry. -/
def sweepPast (key : α → ℤ) (ok : α → Prop) [DecidablePred ok] (d : ℤ) (a : α)
    (next : Option α) (s : ℤ) : ℤ :=
  if Touches key d a next s ∧ ¬ ok a then (next.map key).getD s else s

/-- The passes over all entries, from the first to the last. -/
def sweep (key : α → ℤ) (ok : α → Prop) [DecidablePred ok] (d : ℤ) : List α → ℤ → ℤ
  | [], s => s
  | a :: rest, s => sweep key ok d rest (sweepPast key ok d a rest.head? s)

/-- The entry in force is one of the rest, or else the first one. -/
theorem lastLe_cons (a : α) (rest : List α) (t : ℤ) :
    lastLe key (a :: rest) t
      = (lastLe key rest t).or (if key a ≤ t then some a else none) := by
  unfold lastLe
  rw [List.filter_cons]
  by_cases hat : key a ≤ t
  · rw [if_pos (by simpa using hat), if_pos hat, List.getLast?_cons]
    cases (rest.filter (fun b => key b ≤ t)).getLast? with
    | none => rfl
    | some b => rfl
  · rw [if_neg (by simpa using hat), if_neg hat, Option.or_none]

/-- No entry is in force exactly while none has begun. -/
theorem lastLe_eq_none {xs : List α} {t : ℤ} :
    lastLe key xs t = none ↔ ∀ a ∈ xs, t < key a := by
  unfold lastLe
  rw [List.getLast?_eq_none_iff, List.filter_eq_nil_iff]
  simp

/-- With the first entry split off: the rest fits, and the first entry is acceptable
if it is in force in the window. -/
theorem fitsFrom_cons {ok : α → Prop} {d : ℤ} {a : α} {rest : List α} {s : ℤ} :
    FitsFrom key ok d (a :: rest) s ↔
      FitsFrom key ok d rest s ∧
        ∀ t, s ≤ t → t < s + d → key a ≤ t → (∀ b ∈ rest, t < key b) → ok a := by
  constructor
  · intro h
    constructor
    · intro t hst htd b hb
      refine h t hst htd b ?_
      rw [lastLe_cons, hb]
      rfl
    · intro t hst htd hat hbefore
      refine h t hst htd a ?_
      rw [lastLe_cons, lastLe_eq_none.mpr hbefore, if_pos hat]
      rfl
  · rintro ⟨hrest, hfirst⟩ t hst htd b hb
    rw [lastLe_cons] at hb
    by_cases hnone : lastLe key rest t = none
    · rw [hnone, Option.none_or] at hb
      split at hb
      · next hat =>
          cases hb
          exact hfirst t hst htd hat (lastLe_eq_none.mp hnone)
      · cases hb
    · obtain ⟨c, hc⟩ := Option.ne_none_iff_exists'.mp hnone
      rw [hc, Option.some_or] at hb
      exact hrest t hst htd b (hc.trans hb)

section Sweep

variable {ok : α → Prop} [DecidablePred ok] {d : ℤ}

/-- The result is the old start or the key of an entry behind the first. -/
theorem sweep_cases (xs : List α) :
    ∀ s, sweep key ok d xs s = s ∨ ∃ b ∈ xs.tail, sweep key ok d xs s = key b := by
  induction xs with
  | nil =>
      intro s
      exact Or.inl rfl
  | cons a rest ih =>
      intro s
      rw [sweep]
      have hpast : sweepPast key ok d a rest.head? s = s ∨
          ∃ b ∈ rest, sweepPast key ok d a rest.head? s = key b := by
        unfold sweepPast
        split
        · cases rest with
          | nil => exact Or.inl rfl
          | cons b rest => exact Or.inr ⟨b, List.mem_cons_self, rfl⟩
        · exact Or.inl rfl
      rcases ih (sweepPast key ok d a rest.head? s) with hsame | ⟨b, hb, hkey⟩
      · rw [hsame]
        exact hpast
      · exact Or.inr ⟨b, List.mem_of_mem_tail hb, hkey⟩

/-- **One pass is enough**: on increasing keys whose last entry is acceptable, the
sweep ends at the least start whose window fits. -/
theorem sweep_isLeast (hd : 0 < d) (xs : List α) :
    ∀ s, Increasing key xs → (∀ a, xs.getLast? = some a → ok a) →
      IsLeast {s' | s ≤ s' ∧ FitsFrom key ok d xs s'} (sweep key ok d xs s) := by
  induction xs with
  | nil =>
      intro s _ _
      refine ⟨⟨le_rfl, ?_⟩, fun s' hs' => hs'.1⟩
      intro t _ _ a ha
      cases ha
  | cons a rest ih =>
      intro s hinc hlast
      obtain ⟨hhead, hinc'⟩ := List.pairwise_cons.mp hinc
      rw [sweep]
      cases hrest : rest with
      | nil =>
          -- the last entry is acceptable, so the pass over it does nothing
          rw [hrest] at hlast
          have hok : ok a := hlast a rfl
          have hstay : sweepPast key ok d a ([] : List α).head? s = s := by
            unfold sweepPast
            rw [if_neg (fun h => h.2 hok)]
          rw [hstay, sweep]
          refine ⟨⟨le_rfl, ?_⟩, fun s' hs' => hs'.1⟩
          rw [fitsFrom_cons]
          exact ⟨fun t _ _ b hb => (by cases hb), fun _ _ _ _ _ => hok⟩
      | cons b rest' =>
          rw [← hrest]
          have hab : key a < key b := hhead b (by rw [hrest]; exact List.mem_cons_self)
          have hbmem : b ∈ rest := by rw [hrest]; exact List.mem_cons_self
          have hhead? : rest.head? = some b := by rw [hrest]; rfl
          have hbrest : ∀ c ∈ rest, key b ≤ key c := by
            intro c hc
            rw [hrest] at hc hinc'
            rcases List.mem_cons.mp hc with rfl | hc
            · exact le_rfl
            · exact ((List.pairwise_cons.mp hinc').1 c hc).le
          have hlast' : ∀ c, rest.getLast? = some c → ok c := by
            intro c hc
            refine hlast c ?_
            rw [List.getLast?_cons, hc]
            rfl
          rw [hhead?]
          set s₁ := sweepPast key ok d a (some b) s with hs₁
          obtain ⟨⟨hle, hfits⟩, hleast⟩ := ih s₁ hinc' hlast'
          -- where the pass ends, and why
          have hpast : (Touches key d a (some b) s ∧ ¬ ok a ∧ s₁ = key b) ∨
              ((Touches key d a (some b) s → ok a) ∧ s₁ = s) := by
            by_cases hmove : Touches key d a (some b) s ∧ ¬ ok a
            · refine Or.inl ⟨hmove.1, hmove.2, ?_⟩
              rw [hs₁, sweepPast, if_pos hmove]
              rfl
            · refine Or.inr ⟨fun h => by_contra fun hok => hmove ⟨h, hok⟩, ?_⟩
              rw [hs₁, sweepPast, if_neg hmove]
          have hmoved : Touches key d a (some b) s → s < key b := by
            rintro (⟨b', hb', -, hlt⟩ | ⟨hlt, -⟩)
            · cases hb'
              exact hlt
            · omega
          refine ⟨⟨?_, fitsFrom_cons.mpr ⟨hfits, ?_⟩⟩, ?_⟩
          · rcases hpast with ⟨htouch, -, h⟩ | ⟨-, h⟩
            · have := hmoved htouch
              omega
            · omega
          · -- the first entry is over when the window begins, or it is acceptable
            intro t hst htd hat hbefore
            have htb := hbefore b hbmem
            rcases hpast with ⟨-, -, h⟩ | ⟨hacc, h⟩
            · omega
            · refine hacc ?_
              have hcases : sweep key ok d rest s₁ = s₁ ∨
                  ∃ c ∈ rest.tail, sweep key ok d rest s₁ = key c := sweep_cases rest s₁
              rcases hcases with hsame | ⟨c, hc, hkey⟩
              · rw [hsame, h] at hst htd
                by_cases has : key a ≤ s
                · exact Or.inl ⟨b, rfl, has, by omega⟩
                · exact Or.inr ⟨by omega, by omega⟩
              · have := hbrest c (List.mem_of_mem_tail hc)
                omega
          · rintro s' ⟨hss', hfits'⟩
            obtain ⟨hfitsRest, hfirst⟩ := fitsFrom_cons.mp hfits'
            refine hleast ⟨?_, hfitsRest⟩
            rcases hpast with ⟨htouch, hbad, h⟩ | ⟨-, h⟩
            · -- a window before the next key would meet the unacceptable entry
              rw [h]
              by_contra hlt
              refine hbad (hfirst (max s' (key a)) (by omega) ?_ (by omega) ?_)
              · rcases htouch with ⟨b', hb', hle', -⟩ | ⟨-, hin⟩
                · omega
                · omega
              · intro c hc
                have := hbrest c hc
                omega
            · omega

end Sweep

end StepProfile
