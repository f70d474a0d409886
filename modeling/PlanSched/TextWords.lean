/-
# Words of a text

A library for texts whose words are separated by single characters: what a search for a word
finds, and which words the text has.  The words are those of `List.splitOnP`.  Nothing here
names the scheduler.

* `words_induction`: a text is one word, or a word and a separator in front of a text;
* `strstr_word_none`: a search that finds nothing in the first word goes on behind it;
* `mem_splitOnP_iff`: where a word stands in its text.

Trust base: `[propext, Classical.choice, Quot.sound]`.
-/
import Mathlib.Data.List.TakeWhile
import PlanSched.TextSearch

namespace TextSearch

variable {α : Type*} {p : α → Bool}

/-! ## One word after the other -/

/-- A text without separators. -/
def IsWord (p : α → Bool) (word : List α) : Prop := ∀ c ∈ word, p c = false

/-- A text is one word, or a word and a separator in front of a text. -/
theorem words_induction {motive : List α → Prop} (last : ∀ word, IsWord p word → motive word)
    (more : ∀ word c s, IsWord p word → p c = true → motive s → motive (word ++ c :: s))
    (s : List α) : motive s := by
  induction hn : s.length using Nat.strong_induction_on generalizing s with
  | _ n ih =>
      have hword : IsWord p (s.takeWhile (fun c => !p c)) := by
        intro c hc
        simpa using List.mem_takeWhile_imp hc
      cases hrest : s.dropWhile (fun c => !p c) with
      | nil =>
          have hall : s.takeWhile (fun c => !p c) = s := by
            have hsplit := List.takeWhile_append_dropWhile (p := fun c => !p c) (l := s)
            rwa [hrest, List.append_nil] at hsplit
          rw [hall] at hword
          exact last s hword
      | cons c rest =>
          have hsep : p c = true := by
            have hhead := List.head_dropWhile_not (fun c => !p c)
              (show s.dropWhile (fun c => !p c) ≠ [] by rw [hrest]; exact List.cons_ne_nil c rest)
            simpa [hrest] using hhead
          have hsplit := List.takeWhile_append_dropWhile (p := fun c => !p c) (l := s)
          rw [hrest] at hsplit
          have hshorter : rest.length < n := by
            rw [← hn, ← hsplit, List.length_append, List.length_cons]
            omega
          rw [← hsplit]
          exact more _ c rest hword hsep (ih rest.length hshorter rest rfl)

/-- The words of a single word. -/
theorem splitOnP_word {word : List α} (h : IsWord p word) : word.splitOnP p = [word] :=
  List.splitOnP_eq_singleton h

/-- The words of a word, a separator and a text. -/
theorem splitOnP_word_cons {word : List α} {c : α} (h : IsWord p word) (hc : p c = true)
    (s : List α) : (word ++ c :: s).splitOnP p = word :: s.splitOnP p :=
  List.splitOnP_append_cons_of_forall_mem h c hc s

/-! ## Where a word stands -/

/-- A word may start behind this text. -/
def StartsWord (p : α → Bool) (front : List α) : Prop := ∀ c ∈ front.getLast?, p c = true

/-- A word may end in front of this text. -/
def EndsWord (p : α → Bool) (behind : List α) : Prop := ∀ c ∈ behind.head?, p c = true

theorem startsWord_nil : StartsWord p [] := by
  intro c hc
  cases hc

theorem endsWord_nil : EndsWord p [] := by
  intro c hc
  cases hc

/-- A first part without separators starts no word unless it is empty. -/
theorem StartsWord.eq_nil {front : List α} (h : StartsWord p front) (hword : IsWord p front) :
    front = [] := by
  by_contra hne
  obtain ⟨c, hc⟩ := Option.isSome_iff_exists.mp (List.getLast?_isSome.mpr hne)
  have htrue := h c hc
  rw [hword c (List.mem_of_getLast? hc)] at htrue
  cases htrue

/-- A last part without separators ends no word unless it is empty. -/
theorem EndsWord.eq_nil {behind : List α} (h : EndsWord p behind) (hword : IsWord p behind) :
    behind = [] := by
  cases behind with
  | nil => rfl
  | cons c behind =>
      have htrue := h c rfl
      rw [hword c List.mem_cons_self] at htrue
      cases htrue

/-- Behind a separator the start of a word is looked for in the rest only. -/
theorem startsWord_append_cons {front rest : List α} {c : α} (hc : p c = true) :
    StartsWord p (front ++ c :: rest) ↔ StartsWord p rest := by
  unfold StartsWord
  cases rest with
  | nil => simp [hc]
  | cons d rest =>
      rw [List.getLast?_append_of_ne_nil _ (List.cons_ne_nil c (d :: rest)),
        List.getLast?_cons_cons]

/-- The start of a word is looked for in the last part only. -/
theorem startsWord_append {front rest : List α} (hne : rest ≠ []) :
    StartsWord p (front ++ rest) ↔ StartsWord p rest := by
  unfold StartsWord
  rw [List.getLast?_append_of_ne_nil _ hne]

/-- Every text ends with a word, which may be empty. -/
theorem exists_last_word (s : List α) :
    ∃ front word, s = front ++ word ∧ StartsWord p front ∧ IsWord p word := by
  induction s using words_induction (p := p) with
  | last word hword => exact ⟨[], word, rfl, startsWord_nil, hword⟩
  | more first c s _ hc ih =>
      obtain ⟨front, word, rfl, hfront, hword⟩ := ih
      exact ⟨first ++ c :: front, word, by simp, (startsWord_append_cons hc).mpr hfront, hword⟩

/-- The words of a text are the texts without separators that start and end in the right
places. -/
theorem mem_splitOnP_iff {word : List α} (s : List α) :
    word ∈ s.splitOnP p ↔ IsWord p word ∧
      ∃ front behind, s = front ++ (word ++ behind) ∧ StartsWord p front ∧ EndsWord p behind := by
  constructor
  · intro h
    induction s using words_induction (p := p) with
    | last first hfirst =>
        rw [splitOnP_word hfirst, List.mem_singleton] at h
        subst h
        exact ⟨hfirst, [], [], by simp, startsWord_nil, endsWord_nil⟩
    | more first c s hfirst hc ih =>
        rw [splitOnP_word_cons hfirst hc, List.mem_cons] at h
        rcases h with rfl | h
        · refine ⟨hfirst, [], c :: s, by simp, startsWord_nil, ?_⟩
          intro d hd
          cases hd
          exact hc
        · obtain ⟨hword, front, behind, rfl, hfront, hbehind⟩ := ih h
          refine ⟨hword, first ++ c :: front, behind, by simp, ?_, hbehind⟩
          exact (startsWord_append_cons hc).mpr hfront
  · rintro ⟨hword, front, behind, rfl, hfront, hbehind⟩
    -- the word is the first one behind the separator
    have hhead : word ∈ (word ++ behind).splitOnP p := by
      cases behind with
      | nil => rw [List.append_nil, splitOnP_word hword, List.mem_singleton]
      | cons c behind =>
          rw [splitOnP_word_cons hword (hbehind c rfl)]
          exact List.mem_cons_self
    rcases List.eq_nil_or_concat front with rfl | ⟨front, c, rfl⟩
    · exact hhead
    · have hc : p c = true := hfront c (by simp)
      rw [List.concat_append, List.splitOnP_append_cons front _ hc]
      exact List.mem_append_right _ hhead

/-! ## Searching for a word -/

section Search

variable [DecidableEq α]

omit [DecidableEq α] in
/-- A text without the last character does not reach it. -/
theorem infix_of_infix_concat {pat word : List α} {c : α} (hc : c ∉ pat)
    (h : pat <:+: word ++ [c]) : pat <:+: word := by
  obtain ⟨front, behind, hsplit⟩ := h
  rcases List.eq_nil_or_concat behind with rfl | ⟨behind, d, rfl⟩
  · rcases List.eq_nil_or_concat pat with rfl | ⟨pat, d, rfl⟩
    · exact List.nil_infix
    · have hlast := congrArg List.getLast? hsplit
      simp at hlast
      simp [hlast] at hc
  · rw [List.concat_eq_append, ← List.append_assoc] at hsplit
    exact ⟨front, behind, (List.append_inj' hsplit rfl).1⟩

/-- A search that finds nothing in the first word goes on behind its separator. -/
theorem strstr_word_none {pat word : List α} {c : α} (hc : c ∉ pat) (h : ¬ pat <:+: word)
    (s : List α) :
    strstr pat (word ++ c :: s) = (strstr pat s).map (fun r => (word ++ c :: r.1, r.2)) := by
  have hnot : NotIn pat (word ++ [c]) s :=
    NotIn.of_stop hc (fun hin => h (infix_of_infix_concat hc hin)) s
  have hsearch := strstr_notIn (word ++ [c]) hnot
  simpa only [List.append_assoc, List.singleton_append] using hsearch

end Search

end TextSearch
