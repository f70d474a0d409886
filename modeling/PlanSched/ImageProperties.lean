/-
# The properties of an image

Models what the property list of a boot image says and compares it with
`alternative_has_property` (`site_pbs_cache.cpp`), whose search goes on one character behind
each occurrence that is no item of the list.

A search that starts again takes its own start for the start of an item.  So a property made of
one character repeated is found at the end of an item that ends with it once more.

* `propertyLoop_eq`: the occurrences at which the loop stops;
* `has_property_iff`: the lists and properties for which the answer is that of the list.
-/
import PlanSched.BootAlternatives
import PlanSched.TextWords

namespace PlanSched.Nodespec

open TextSearch

/-! ## The items of a list -/

/-- The separator of the items. -/
def isComma (c : Char) : Bool := c == ','

/-- The items of a property list. -/
def propertyItems (list : List Char) : List (List Char) := list.splitOnP isComma

/-- The property is one character repeated, and an item ends with it once more. -/
def RepeatedInItem (prop list : List Char) : Prop :=
  ∃ x, (∀ c ∈ prop, c = x) ∧ ∃ item ∈ propertyItems list, x :: prop <:+ item

/-! ## The loop -/

/-- An occurrence at which the loop stops: it ends in front of a comma or at the end, and it
starts behind a comma or at the front, or one character behind another occurrence. -/
def StopsAt (prop front behind : List Char) : Prop :=
  EndsWord isComma behind ∧
    (StartsWord isComma front ∨
      ∃ before x, front = before ++ [x] ∧ prop <+: x :: (prop ++ behind))

/-- The test of the beginning. -/
theorem startsWord_isComma {front : List Char} :
    StartsWord isComma front ↔ front = [] ∨ front.getLast? = some ',' := by
  unfold StartsWord isComma
  cases hlast : front.getLast? with
  | none => simp [List.getLast?_eq_none_iff.mp hlast]
  | some c =>
      have hne : front ≠ [] := by
        rintro rfl
        cases hlast
      simp [hne]

/-- The test of the end. -/
theorem endsWord_isComma {behind : List Char} :
    EndsWord isComma behind ↔ behind = [] ∨ behind.head? = some ',' := by
  unfold EndsWord isComma
  cases behind with
  | nil => simp
  | cons c behind => simp

/-- Behind the first occurrence, which does not stop the loop, it stops where it would stop in
the text that is left. -/
theorem stopsAt_tail {prop before found behind : List Char} {h : Char}
    (hprop : prop <+: h :: found) (mid : List Char)
    (hsplit : h :: found = h :: (mid ++ (prop ++ behind))) :
    StopsAt prop (before ++ h :: mid) behind ↔ StopsAt prop mid behind := by
  have hfound : found = mid ++ (prop ++ behind) := (List.cons.inj hsplit).2
  unfold StopsAt
  refine and_congr_right ?_
  intro _
  cases mid with
  | nil =>
      refine iff_of_true (Or.inr ⟨before, h, rfl, ?_⟩) (Or.inl startsWord_nil)
      rw [hfound, List.nil_append] at hprop
      exact hprop
  | cons c mid =>
      have hstart : StartsWord isComma (before ++ h :: c :: mid) ↔
          StartsWord isComma (c :: mid) := by
        rw [show before ++ h :: c :: mid = (before ++ [h]) ++ c :: mid by simp]
        exact startsWord_append (List.cons_ne_nil c mid)
      rw [hstart]
      refine or_congr_right ?_
      obtain ⟨init, last, hlast⟩ : ∃ init last, c :: mid = init ++ [last] :=
        ⟨_, _, (List.dropLast_append_getLast (List.cons_ne_nil c mid)).symm⟩
      constructor
      · rintro ⟨before', x, heq, hpre⟩
        rw [hlast, show before ++ h :: (init ++ [last]) = (before ++ h :: init) ++ [last] by simp]
          at heq
        have hx := (List.append_inj' heq rfl).2
        cases hx
        exact ⟨init, last, hlast, hpre⟩
      · rintro ⟨before', x, heq, hpre⟩
        exact ⟨before ++ h :: before', x, by rw [heq]; simp, hpre⟩

/-- The loop answers yes if it meets an occurrence at which it stops. -/
theorem propertyLoop_eq {prop : List Char} (hne : prop ≠ []) (list : List Char) :
    propertyLoop prop list = true ↔
      ∃ front behind, list = front ++ (prop ++ behind) ∧ StopsAt prop front behind := by
  induction hn : list.length using Nat.strong_induction_on generalizing list with
  | _ n ih =>
      rw [propertyLoop]
      split
      · next hfind =>
          simp only [Bool.false_eq_true, false_iff]
          rintro ⟨front, behind, rfl, -⟩
          exact (strstr_none_iff _).mp hfind ⟨front, behind, by simp⟩
      · next before found hfind =>
          obtain ⟨rfl, hpre⟩ := strstr_some list hfind
          obtain ⟨after, rfl⟩ := hpre
          simp only [List.drop_left]
          by_cases hhit : (before = [] ∨ before.getLast? = some ',') ∧
              (after = [] ∨ after.head? = some ',')
          · rw [if_pos hhit]
            exact iff_of_true rfl ⟨before, after, rfl, endsWord_isComma.mpr hhit.2,
              Or.inl (startsWord_isComma.mpr hhit.1)⟩
          · rw [if_neg hhit, dif_neg (by simp [hne])]
            obtain ⟨h, tail, hfound⟩ := List.exists_cons_of_ne_nil
              (show prop ++ after ≠ [] by simp [hne])
            have hpre : prop <+: h :: tail := ⟨after, hfound⟩
            have hshorter : (prop ++ after).tail.length < n := by
              rw [← hn, hfound, List.length_append, List.tail_cons, List.length_cons]
              omega
            rw [ih _ hshorter _ rfl, hfound, List.tail_cons]
            constructor
            · rintro ⟨front, behind, rfl, hstop⟩
              exact ⟨before ++ h :: front, behind, by simp, (stopsAt_tail hpre front rfl).mpr hstop⟩
            · rintro ⟨front, behind, hsplit, hstop⟩
              have hsplit' : before ++ (prop ++ after) = front ++ (prop ++ behind) := by
                rw [hfound]
                exact hsplit
              have hle := strstr_le _ hfind hsplit'
              obtain ⟨mid, rfl⟩ : ∃ mid, front = before ++ mid := by
                rcases List.append_eq_append_iff.mp hsplit with ⟨mid, hfront, -⟩ | ⟨mid, hbefore, -⟩
                · exact ⟨mid, hfront⟩
                · refine ⟨[], ?_⟩
                  rw [hbefore, List.length_append] at hle
                  have hnil : mid = [] := List.eq_nil_of_length_eq_zero (by omega)
                  rw [hbefore, hnil]
                  simp
              rw [List.append_assoc] at hsplit
              have hrest := List.append_cancel_left hsplit
              cases mid with
              | nil =>
                  -- the first occurrence would have stopped the loop
                  rw [List.nil_append, ← hfound] at hrest
                  have hafter := List.append_cancel_left hrest
                  rw [List.append_nil] at hstop
                  subst hafter
                  obtain ⟨hend, hstart | ⟨before', x, hbefore, hpre'⟩⟩ := hstop
                  · exact absurd ⟨startsWord_isComma.mp hstart, endsWord_isComma.mp hend⟩ hhit
                  · obtain ⟨more, hmore⟩ := hpre'
                    have hearlier : before ++ (prop ++ after) = before' ++ (prop ++ more) := by
                      rw [hmore, hbefore]
                      simp
                    have hcontra := strstr_le _ hfind hearlier
                    rw [hbefore] at hcontra
                    simp at hcontra
              | cons c mid =>
                  rw [List.cons_append, List.cons.injEq] at hrest
                  obtain ⟨rfl, rfl⟩ := hrest
                  exact ⟨mid, behind, rfl, (stopsAt_tail hpre mid rfl).mp hstop⟩

/-- What the loop answers, in terms of the items of the list. -/
theorem propertyLoop_items {prop : List Char} (hne : prop ≠ []) (hcomma : ',' ∉ prop)
    (list : List Char) :
    propertyLoop prop list = true ↔ prop ∈ propertyItems list ∨ RepeatedInItem prop list := by
  have hword : IsWord isComma prop := by
    intro c hc
    have hnot : c ≠ ',' := fun h => hcomma (h ▸ hc)
    simpa [isComma] using hnot
  rw [propertyLoop_eq hne]
  unfold propertyItems RepeatedInItem
  constructor
  · rintro ⟨front, behind, rfl, hend, hstart | ⟨before, x, rfl, hpre⟩⟩
    · exact Or.inl ((mem_splitOnP_iff _).mpr ⟨hword, front, behind, rfl, hstart, hend⟩)
    · right
      obtain ⟨more, hmore⟩ := hpre
      have hall : ∀ c ∈ prop, c = x :=
        forall_of_append_eq (List.cons_ne_nil x []) (by simp) _ rfl hmore.symm
      have hx : isComma x = false := by
        obtain ⟨c, hc⟩ := List.exists_mem_of_ne_nil prop hne
        rw [← hall c hc]
        exact hword c hc
      -- the item begins behind the last comma before the property
      obtain ⟨front, last, rfl, hfront, hlast⟩ := exists_last_word (p := isComma) before
      refine ⟨x, hall, last ++ x :: prop, ?_, List.suffix_append _ _⟩
      refine (mem_splitOnP_iff _).mpr ⟨?_, front, behind, by simp, hfront, hend⟩
      intro c hc
      rcases List.mem_append.mp hc with hc | hc
      · exact hlast c hc
      · rcases List.mem_cons.mp hc with rfl | hc
        · exact hx
        · exact hword c hc
  · rintro (hmem | ⟨x, hall, item, hitem, hsuffix⟩)
    · obtain ⟨-, front, behind, rfl, hstart, hend⟩ := (mem_splitOnP_iff _).mp hmem
      exact ⟨front, behind, rfl, hend, Or.inl hstart⟩
    · obtain ⟨-, front, behind, rfl, -, hend⟩ := (mem_splitOnP_iff _).mp hitem
      obtain ⟨init, rfl⟩ := hsuffix
      refine ⟨front ++ init ++ [x], behind, by simp, hend, Or.inr ⟨front ++ init, x, rfl, ?_⟩⟩
      have hshift : x :: prop = prop ++ [x] := by
        rw [List.eq_replicate_of_mem hall, ← List.replicate_succ, List.replicate_succ']
      exact ⟨x :: behind, by rw [← List.cons_append, hshift]; simp⟩

/-- The search for a property that is no text with a comma answers what the list says,
if and only if the property is an item or is not repeated in one. -/
theorem has_property_iff (r : RepositoryAlternatives) {list : String}
    (hlist : r.rProplist = some list) {prop : String} (hne : prop.toList ≠ [])
    (hcomma : ',' ∉ prop.toList) :
    (alternativeHasProperty r prop = true ↔ prop.toList ∈ propertyItems list.toList) ↔
      (prop.toList ∈ propertyItems list.toList ∨ ¬ RepeatedInItem prop.toList list.toList) := by
  unfold alternativeHasProperty
  rw [hlist]
  simp only
  rw [propertyLoop_items hne hcomma]
  tauto

/-- An image with two properties. -/
def twoProperties : RepositoryAlternatives := ⟨"image", some "debian,i386"⟩

/-- A property of it is found, and a part of one is not. -/
theorem has_property_debian :
    (alternativeHasProperty twoProperties "debian" = true ↔
      "debian".toList ∈ propertyItems "debian,i386".toList) ∧
    (alternativeHasProperty twoProperties "i38" = true ↔
      "i38".toList ∈ propertyItems "debian,i386".toList) := by
  have hnot : ¬ RepeatedInItem "i38".toList "debian,i386".toList := by
    rintro ⟨x, hall, -⟩
    have hi := hall 'i' (by decide)
    have h3 := hall '3' (by decide)
    rw [← hi] at h3
    cases h3
  exact ⟨(has_property_iff twoProperties rfl (by decide) (by decide)).mpr (Or.inl (by decide)),
    (has_property_iff twoProperties rfl (by decide) (by decide)).mpr (Or.inr hnot)⟩

/-- The list `abb` has no property `b`, but the search finds one. -/
theorem repeated_property_found :
    ¬ (alternativeHasProperty ⟨"image", some "abb"⟩ "b" = true ↔
      "b".toList ∈ propertyItems "abb".toList) := by
  have hfound : alternativeHasProperty ⟨"image", some "abb"⟩ "b" = true := by
    refine (propertyLoop_eq (by decide) _).mpr ⟨['a', 'b'], [], by decide, endsWord_nil, ?_⟩
    exact Or.inr ⟨['a'], 'b', rfl, by decide⟩
  have hnot : "b".toList ∉ propertyItems "abb".toList := by decide
  intro hiff
  exact hnot (hiff.mp hfound)

end PlanSched.Nodespec
