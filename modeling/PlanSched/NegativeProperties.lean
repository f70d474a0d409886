/-
# Taking out the negative properties

What the removal loop of `job_create_nodespec` does to the specification of a job: one
chunk `N:ppn=k` with properties and resources behind it, some of them negative (`^`), and
possibly `#excl`.  A negative property with another item behind it is removed with the
colon behind it, wherever it stands (`removeAll_earlier`); the last one is removed with the
colon in front, which is not there if it is the only item left (`removeAll_last`).

* `negatives_removed_iff`: the loop ends with the other items, in their order, exactly if
  there are others.
-/
import PlanSched.NodespecText
import PlanSched.JobIdentity
import PlanSched.CursorWalk

namespace PlanSched.NodespecText

open CheckedRun TextSearch

/-! ## The texts -/

/-- A property or resource. -/
structure NodespecItem where
  negative : Bool
  name : List Char
  deriving DecidableEq, Repr

/-- Its text. -/
def NodespecItem.text (item : NodespecItem) : List Char :=
  if item.negative then '^' :: item.name else item.name

/-- No character of it has a meaning of its own; a negative property has no comma or blank. -/
structure NodespecItem.Plain (item : NodespecItem) : Prop where
  noColon : ':' ∉ item.name
  noMark : '^' ∉ item.name
  noHash : '#' ∉ item.name
  noDelimiter : item.negative = true → ',' ∉ item.name ∧ ' ' ∉ item.name

/-- Items with colons between them. -/
def joinItems : List NodespecItem → List Char
  | [] => []
  | [item] => item.text
  | item :: items => item.text ++ ':' :: joinItems items

/-- Items with a colon behind each. -/
def itemsFront (items : List NodespecItem) : List Char :=
  items.flatMap (fun item => item.text ++ [':'])

/-- The specification of a job: a chunk, the items, and `#excl`. -/
def nodespecText (nodes ppn : List Char) (items : List NodespecItem) (isExcl : Bool) :
    List Char :=
  nodes ++ ":ppn=".toList ++ ppn ++ items.flatMap (fun item => ':' :: item.text)
    ++ (if isExcl then "#excl".toList else [])

/-- The items that are not negative. -/
def positives (items : List NodespecItem) : List NodespecItem :=
  items.filter (fun item => !item.negative)

/-- An item with others behind it. -/
theorem joinItems_cons (first second : NodespecItem) (rest : List NodespecItem) :
    joinItems (first :: second :: rest)
      = first.text ++ [':'] ++ joinItems (second :: rest) := by
  rw [List.append_assoc]
  rfl

/-- Some items behind others. -/
theorem joinItems_append (front : List NodespecItem) (item : NodespecItem)
    (rest : List NodespecItem) :
    joinItems (front ++ item :: rest) = itemsFront front ++ joinItems (item :: rest) := by
  induction front with
  | nil => rfl
  | cons first front ih =>
      have hjoin : joinItems (first :: (front ++ item :: rest))
          = first.text ++ ':' :: joinItems (front ++ item :: rest) := by
        cases front <;> rfl
      rw [List.cons_append, hjoin, ih]
      show _ = (first.text ++ [':'] ++ itemsFront front) ++ _
      rw [List.append_assoc, List.append_assoc]
      rfl

/-- An item behind others, with the colon between them. -/
theorem joinItems_concat {front : List NodespecItem} (hne : front ≠ []) (item : NodespecItem) :
    joinItems (front ++ [item]) = joinItems front ++ ':' :: item.text := by
  induction front with
  | nil => exact absurd rfl hne
  | cons first front ih =>
      cases front with
      | nil => rfl
      | cons second front =>
          show first.text ++ ':' :: joinItems (second :: front ++ [item]) = _
          rw [ih (List.cons_ne_nil second front)]
          show _ = first.text ++ ':' :: joinItems (second :: front) ++ _
          rw [List.append_assoc]
          rfl

/-- A character that is neither in an item nor a colon. -/
theorem notMem_itemsFront {c : Char} (hc : c ≠ ':') {items : List NodespecItem}
    (h : ∀ item ∈ items, c ∉ item.text) : c ∉ itemsFront items := by
  intro hmem
  obtain ⟨item, hitem, hmem⟩ := List.mem_flatMap.mp hmem
  rcases List.mem_append.mp hmem with hmem | hmem
  · exact h item hitem hmem
  · exact hc (List.mem_singleton.mp hmem)

/-- The same for items with colons between them. -/
theorem notMem_joinItems {c : Char} (hc : c ≠ ':') {items : List NodespecItem}
    (h : ∀ item ∈ items, c ∉ item.text) : c ∉ joinItems items := by
  rcases List.eq_nil_or_concat' items with rfl | ⟨front, item, rfl⟩
  · exact List.not_mem_nil
  · rw [joinItems_append]
    intro hmem
    rcases List.mem_append.mp hmem with hmem | hmem
    · exact notMem_itemsFront hc (fun other hother => h other (List.mem_append_left _ hother)) hmem
    · exact h item (List.mem_append_right _ (List.mem_singleton_self item)) hmem

/-- A positive item has no mark. -/
theorem NodespecItem.Plain.notMem_mark {item : NodespecItem} (h : item.Plain)
    (hpos : item.negative = false) : '^' ∉ item.text := by
  unfold NodespecItem.text
  rw [hpos]
  exact h.noMark

/-- No item has a colon. -/
theorem NodespecItem.Plain.notMem_colon {item : NodespecItem} (h : item.Plain) :
    ':' ∉ item.text := by
  unfold NodespecItem.text
  split
  · intro hmem
    rcases List.mem_cons.mp hmem with heq | hmem
    · cases heq
    · exact h.noColon hmem
  · exact h.noColon

/-! ## The text to remove -/

/-- The place of a character that is not in the first part. -/
theorem findIdx?_behind {c : Char} {front : List Char} (hc : c ∉ front) (behind : List Char) :
    (front ++ behind).findIdx? (· == c)
      = (behind.findIdx? (· == c)).map (· + front.length) := by
  have hnone : front.findIdx? (· == c) = none := by
    rw [List.findIdx?_eq_none_iff]
    intro d hd
    rw [beq_eq_false_iff_ne]
    rintro rfl
    exact hc hd
  rw [List.findIdx?_append, hnone, Option.none_or]

/-- A delimiter is not in a negative property. -/
theorem NodespecItem.Plain.notMem_delimiter {item : NodespecItem} (h : item.Plain)
    (hneg : item.negative = true) :
    ',' ∉ item.text ∧ ':' ∉ item.text ∧ ' ' ∉ item.text := by
  obtain ⟨hcomma, hblank⟩ := h.noDelimiter hneg
  have hnot : ∀ c : Char, c ≠ '^' → c ∉ item.name → c ∉ item.text := by
    intro c hc hname
    unfold NodespecItem.text
    rw [if_pos hneg, List.mem_cons, not_or]
    exact ⟨hc, hname⟩
  exact ⟨hnot _ (by decide) hcomma, hnot _ (by decide) h.noColon, hnot _ (by decide) hblank⟩

/-- A negative property with an item behind it ends with the colon. -/
theorem toRemove_earlier {item : NodespecItem} (h : item.Plain) (hneg : item.negative = true)
    (before more : List Char) :
    toRemove before (item.text ++ ':' :: more) = item.text ++ [':'] := by
  obtain ⟨hcomma, hcolon, hblank⟩ := h.notMem_delimiter hneg
  have hplace : (item.text ++ ':' :: more).findIdx? (· == ':') = some item.text.length := by
    rw [findIdx?_behind hcolon, List.findIdx?_cons]
    simp
  have hlater : ∀ c : Char, c ≠ ':' → c ∉ item.text → ∀ n,
      (item.text ++ ':' :: more).findIdx? (· == c) = some n → item.text.length < n := by
    intro c hc hnot n hn
    rw [findIdx?_behind hnot, List.findIdx?_cons] at hn
    obtain ⟨m, hm, rfl⟩ := Option.map_eq_some_iff.mp hn
    have hcolon' : (':' == c) = false := beq_eq_false_iff_ne.mpr (Ne.symm hc)
    rw [hcolon'] at hm
    simp only [Bool.false_eq_true, if_false] at hm
    obtain ⟨k, _, rfl⟩ := Option.map_eq_some_iff.mp hm
    omega
  have hchmin : chmin (item.text ++ ':' :: more) = some item.text.length := by
    unfold chmin
    rw [hplace]
    have hfirst : nearer ((item.text ++ ':' :: more).findIdx? (· == ','))
        (some item.text.length) = some item.text.length := by
      cases hn : (item.text ++ ':' :: more).findIdx? (· == ',') with
      | none => rfl
      | some n => exact if_pos (hlater ',' (by decide) hcomma n hn)
    rw [hfirst]
    cases hn : (item.text ++ ':' :: more).findIdx? (· == ' ') with
    | none => rfl
    | some n =>
        have := hlater ' ' (by decide) hblank n hn
        exact if_neg (by omega)
  unfold toRemove
  rw [hchmin]
  dsimp only
  rw [List.take_append, List.take_of_length_le (by omega), Nat.add_sub_cancel_left]
  rfl

/-- The last item, if it is negative, begins with the colon in front. -/
theorem toRemove_last {item : NodespecItem} (h : item.Plain) (hneg : item.negative = true)
    (front : List NodespecItem) : toRemove (itemsFront front) item.text = ':' :: item.text := by
  obtain ⟨hcomma, hcolon, hblank⟩ := h.notMem_delimiter hneg
  have hnone : ∀ c : Char, c ∉ item.text → item.text.findIdx? (· == c) = none := by
    intro c hc
    have := findIdx?_behind hc []
    rwa [List.append_nil] at this
  have hlast : (itemsFront front).getLast?.getD ':' = ':' := by
    rcases List.eq_nil_or_concat' front with rfl | ⟨body, last, rfl⟩
    · rfl
    · unfold itemsFront
      rw [List.flatMap_append, List.flatMap_singleton, ← List.append_assoc, List.getLast?_concat]
      rfl
  unfold toRemove chmin
  rw [hnone _ hcomma, hnone _ hcolon, hnone _ hblank]
  show (itemsFront front).getLast?.getD ':' :: _ = _
  rw [hlast]

/-! ## Removing it -/

/-- The items without an item, as far as another one stands behind it. -/
def dropEarlier (item : NodespecItem) : List NodespecItem → List NodespecItem
  | [] => []
  | [last] => [last]
  | first :: second :: rest =>
      if first = item then dropEarlier item (second :: rest)
      else first :: dropEarlier item (second :: rest)

/-- What is left are items of before. -/
theorem mem_of_mem_dropEarlier {item : NodespecItem} (items : List NodespecItem) :
    ∀ {other}, other ∈ dropEarlier item items → other ∈ items := by
  induction items using dropEarlier.induct item with
  | case1 => exact fun h => h
  | case2 last => exact fun h => h
  | case3 second rest ih =>
      intro other h
      rw [dropEarlier, if_pos rfl] at h
      exact List.mem_cons_of_mem _ (ih h)
  | case4 first second rest hne ih =>
      intro other h
      rw [dropEarlier, if_neg hne] at h
      rcases List.mem_cons.mp h with rfl | h
      · exact List.mem_cons_self
      · exact List.mem_cons_of_mem _ (ih h)

/-- Something is left. -/
theorem dropEarlier_ne_nil {item : NodespecItem} (items : List NodespecItem) :
    items ≠ [] → dropEarlier item items ≠ [] := by
  induction items using dropEarlier.induct item with
  | case1 => exact fun h => h
  | case2 last => exact fun h => h
  | case3 second rest ih =>
      intro _
      rw [dropEarlier, if_pos rfl]
      exact ih (List.cons_ne_nil _ _)
  | case4 first second rest hne ih =>
      intro _
      rw [dropEarlier, if_neg hne]
      exact List.cons_ne_nil _ _

/-- The positive items stay. -/
theorem positives_dropEarlier {item : NodespecItem} (hneg : item.negative = true)
    (items : List NodespecItem) : positives (dropEarlier item items) = positives items := by
  unfold positives
  induction items using dropEarlier.induct item with
  | case1 => rfl
  | case2 last => rfl
  | case3 second rest ih =>
      have hskip : (item :: second :: rest).filter (fun item => !item.negative)
          = (second :: rest).filter (fun item => !item.negative) :=
        List.filter_cons_of_neg (by rw [hneg]; simp)
      rw [dropEarlier, if_pos rfl, ih, hskip]
  | case4 first second rest hne ih =>
      rw [dropEarlier, if_neg hne, List.filter_cons, List.filter_cons, ih]

/-- No negative item is added. -/
theorem countP_dropEarlier_le {item : NodespecItem} (items : List NodespecItem) :
    (dropEarlier item items).countP NodespecItem.negative
      ≤ items.countP NodespecItem.negative := by
  induction items using dropEarlier.induct item with
  | case1 => exact le_rfl
  | case2 last => exact le_rfl
  | case3 second rest ih =>
      rw [dropEarlier, if_pos rfl, List.countP_cons]
      omega
  | case4 first second rest hne ih =>
      rw [dropEarlier, if_neg hne, List.countP_cons, List.countP_cons]
      omega

/-- A negative item with another one behind it is taken out. -/
theorem countP_dropEarlier_lt {item : NodespecItem} (hneg : item.negative = true)
    (front : List NodespecItem) (second : NodespecItem) (rest : List NodespecItem) :
    (dropEarlier item (front ++ item :: second :: rest)).countP NodespecItem.negative
      < (front ++ item :: second :: rest).countP NodespecItem.negative := by
  induction front with
  | nil =>
      have := @countP_dropEarlier_le item (second :: rest)
      rw [List.nil_append, dropEarlier, if_pos rfl, List.countP_cons_of_pos hneg]
      omega
  | cons first front ih =>
      have hcons : dropEarlier item (first :: (front ++ item :: second :: rest))
          = if first = item then dropEarlier item (front ++ item :: second :: rest)
            else first :: dropEarlier item (front ++ item :: second :: rest) := by
        cases front with
        | nil => rw [List.nil_append, dropEarlier]
        | cons next front => rw [List.cons_append, dropEarlier]
      rw [List.cons_append, hcons, List.countP_cons]
      split
      · omega
      · rw [List.countP_cons]
        omega

/-- The text of a negative item with its colon does not start in another item. -/
theorem notIn_item {item other : NodespecItem} (hitem : item.Plain) (hother : other.Plain)
    (hneg : item.negative = true) (hne : other ≠ item) (behind : List Char) :
    NotIn (item.text ++ [':']) (other.text ++ [':']) behind := by
  have htext : item.text = '^' :: item.name := if_pos hneg
  rw [htext]
  cases hpos : other.negative with
  | false =>
      refine NotIn.of_notMem ?_ behind
      intro hmem
      rcases List.mem_append.mp hmem with hmem | hmem
      · exact hother.notMem_mark hpos hmem
      · cases List.mem_singleton.mp hmem
  | true =>
      have htext' : other.text = '^' :: other.name := if_pos hpos
      rw [htext']
      intro skipped a rest hsplit hpre
      rw [List.cons_append, List.cons_prefix_cons] at hpre
      obtain ⟨rfl, hpre⟩ := hpre
      cases skipped with
      | nil =>
          -- both begin here: the names end at the same colon
          rw [List.cons_append, List.nil_append, List.cons.injEq] at hsplit
          obtain ⟨_, rfl⟩ := hsplit
          obtain ⟨more, hmore⟩ := hpre
          rw [List.append_assoc, List.append_assoc] at hmore
          have hnames : item.name = other.name := by
            have hname : ∀ name behind : List Char, ':' ∉ name →
                (name ++ ([':'] ++ behind)).takeWhile (· ≠ ':') = name := by
              intro name behind hname
              rw [List.takeWhile_append_of_pos]
              · exact List.append_nil name
              · intro c hc
                simp only [ne_eq, decide_eq_true_eq]
                rintro rfl
                exact hname hc
            rw [← hname item.name more hitem.noColon, hmore, hname other.name behind hother.noColon]
          refine hne ?_
          obtain ⟨negative, name⟩ := item
          obtain ⟨negative', name'⟩ := other
          dsimp only at hneg hpos hnames
          rw [hneg, hpos, hnames]
      | cons b skipped =>
          rw [List.cons_append, List.cons_append, List.cons.injEq] at hsplit
          have hmem : '^' ∈ other.name ++ [':'] := by
            rw [hsplit.2]
            exact List.mem_append_right _ List.mem_cons_self
          rcases List.mem_append.mp hmem with hmem | hmem
          · exact hother.noMark hmem
          · cases List.mem_singleton.mp hmem

/-- Removing a negative item with its colon takes it out wherever it is not the last one. -/
theorem removeAll_earlier {item : NodespecItem} (hitem : item.Plain)
    (hneg : item.negative = true) (items : List NodespecItem) :
    (∀ other ∈ items, other.Plain) →
      removeAll (item.text ++ [':']) (joinItems items) = joinItems (dropEarlier item items) := by
  have hpat : item.text ++ [':'] ≠ [] := by simp
  induction items using dropEarlier.induct item with
  | case1 =>
      intro _
      exact removeAll_of_none (by
        rw [strstr_none_iff]
        intro h
        exact hpat (List.infix_nil.mp h))
  | case2 last =>
      intro h
      refine removeAll_of_none ?_
      rw [strstr_none_iff]
      intro hoccurs
      exact (h last (List.mem_singleton_self last)).notMem_colon
        (hoccurs.subset (List.mem_append_right _ (List.mem_singleton_self ':')))
  | case3 second rest ih =>
      intro h
      rw [dropEarlier, if_pos rfl, joinItems_cons, removeAll_prefix hpat]
      exact ih (fun other hother => h other (List.mem_cons_of_mem _ hother))
  | case4 first second rest hne ih =>
      intro h
      have hrest := ih (fun other hother => h other (List.mem_cons_of_mem _ hother))
      rw [dropEarlier, if_neg hne]
      have hjoin : joinItems (first :: dropEarlier item (second :: rest))
          = first.text ++ [':'] ++ joinItems (dropEarlier item (second :: rest)) := by
        have hleft := @dropEarlier_ne_nil item (second :: rest) (List.cons_ne_nil _ _)
        obtain ⟨next, left, heq⟩ := List.exists_cons_of_ne_nil hleft
        rw [heq, joinItems_cons]
      rw [joinItems_cons, hjoin, removeAll_append hpat
        (notIn_item hitem (h first List.mem_cons_self) hneg hne _), hrest]

/-- Removing the last item with the colon in front of it. -/
theorem removeAll_last {item : NodespecItem} (hneg : item.negative = true)
    {front : List NodespecItem} (hne : front ≠ [])
    (hfront : ∀ other ∈ front, other.Plain ∧ other.negative = false) :
    removeAll (':' :: item.text) (joinItems (front ++ [item])) = joinItems front := by
  have hmark : '^' ∉ joinItems front :=
    notMem_joinItems (by decide) (fun other hother =>
      (hfront other hother).1.notMem_mark (hfront other hother).2)
  have htext : item.text = '^' :: item.name := if_pos hneg
  have hnotIn : NotIn (':' :: item.text) (joinItems front) (':' :: item.text) := by
    intro skipped a rest hsplit hpre
    rw [List.cons_prefix_cons, htext] at hpre
    cases rest with
    | nil =>
        rw [List.nil_append, List.cons_prefix_cons] at hpre
        cases hpre.2.1
    | cons b rest =>
        rw [List.cons_append, List.cons_prefix_cons] at hpre
        refine hmark ?_
        rw [hsplit, hpre.2.1]
        exact List.mem_append_right _ (List.mem_cons_of_mem _ List.mem_cons_self)
  have hend := removeAll_prefix (List.cons_ne_nil ':' item.text) []
  rw [List.append_nil] at hend
  rw [joinItems_concat hne, removeAll_append (List.cons_ne_nil _ _) hnotIn, hend,
    removeAll_of_none (by
      rw [strstr_none_iff]
      intro h
      cases List.infix_nil.mp h), List.append_nil]

/-! ## The loop -/

/-- One round, at a mark. -/
theorem removalLoop_mark {s before pch : List Char} (h : strchr '^' s = some (before, pch)) :
    removalLoop 0 s = .error .outOfSteps ∧
      ∀ fuel, removalLoop (fuel + 1) s = removalLoop fuel (removeAll (toRemove before pch) s) := by
  constructor
  · rw [removalLoop, h]
  · intro fuel
    rw [removalLoop, h]

/-- The first mark is that of the first negative item. -/
theorem strchr_joinItems {front : List NodespecItem}
    (hfront : ∀ other ∈ front, other.Plain ∧ other.negative = false) {item : NodespecItem}
    (hneg : item.negative = true) (rest : List NodespecItem) :
    strchr '^' (joinItems (front ++ item :: rest))
      = some (itemsFront front, joinItems (item :: rest)) := by
  have hmark : '^' ∉ itemsFront front :=
    notMem_itemsFront (by decide) (fun other hother =>
      (hfront other hother).1.notMem_mark (hfront other hother).2)
  have htext : item.text = '^' :: item.name := if_pos hneg
  obtain ⟨behind, hbehind⟩ : ∃ behind, joinItems (item :: rest) = '^' :: behind := by
    cases rest with
    | nil => exact ⟨item.name, htext⟩
    | cons second rest => exact ⟨_, by rw [joinItems_cons, htext]; rfl⟩
  rw [joinItems_append, hbehind]
  exact strchr_append hmark behind

/-- A round takes a negative item with another one behind it out. -/
theorem removalLoop_earlier {front : List NodespecItem}
    (hfront : ∀ other ∈ front, other.Plain ∧ other.negative = false) {item second : NodespecItem}
    (hneg : item.negative = true) {rest : List NodespecItem}
    (hitems : ∀ other ∈ front ++ item :: second :: rest, other.Plain) (fuel : ℕ) :
    removalLoop (fuel + 1) (joinItems (front ++ item :: second :: rest))
      = removalLoop fuel (joinItems (dropEarlier item (front ++ item :: second :: rest))) := by
  have hitem := hitems item (List.mem_append_right _ List.mem_cons_self)
  have hjoin : joinItems (item :: second :: rest)
      = item.text ++ ':' :: joinItems (second :: rest) := rfl
  rw [(removalLoop_mark (strchr_joinItems hfront hneg (second :: rest))).2, hjoin,
    toRemove_earlier hitem hneg, removeAll_earlier hitem hneg _ hitems]

/-- A round takes a last negative item out, if there is one in front of it. -/
theorem removalLoop_last {front : List NodespecItem} (hne : front ≠ [])
    (hfront : ∀ other ∈ front, other.Plain ∧ other.negative = false) {item : NodespecItem}
    (hitem : item.Plain) (hneg : item.negative = true) (fuel : ℕ) :
    removalLoop (fuel + 1) (joinItems (front ++ [item])) = removalLoop fuel (joinItems front) := by
  rw [(removalLoop_mark (strchr_joinItems hfront hneg [])).2, joinItems,
    toRemove_last hitem hneg, removeAll_last hneg hne hfront]

/-- A negative item that is the only one stays. -/
theorem removalLoop_only {item : NodespecItem} (hitem : item.Plain)
    (hneg : item.negative = true) (fuel : ℕ) :
    removalLoop (fuel + 1) item.text = removalLoop fuel item.text := by
  have hmark : strchr '^' item.text = some (itemsFront [], item.text) :=
    @strchr_joinItems [] (fun _ h => absurd h List.not_mem_nil) item hneg []
  rw [(removalLoop_mark hmark).2, toRemove_last hitem hneg, removeAll_of_none]
  rw [strstr_none_iff]
  intro hoccurs
  have := hoccurs.length_le
  rw [List.length_cons] at this
  omega

/-- Without negative items the loop is over. -/
theorem removalLoop_done {items : List NodespecItem}
    (hitems : ∀ item ∈ items, item.Plain ∧ item.negative = false) (fuel : ℕ) :
    removalLoop fuel (joinItems items) = .ok (joinItems items) := by
  have hnone : strchr '^' (joinItems items) = none :=
    strchr_none_iff.mpr (notMem_joinItems (by decide) (fun other hother =>
      (hitems other hother).1.notMem_mark (hitems other hother).2))
  cases fuel <;> rw [removalLoop, hnone]

/-- With a positive item the loop ends with all of them, after a round for each negative one at
most. -/
theorem removalLoop_ok (fuel : ℕ) : ∀ {items : List NodespecItem},
    (∀ item ∈ items, item.Plain) → items.countP NodespecItem.negative ≤ fuel →
    (∃ item ∈ items, item.negative = false) →
      removalLoop fuel (joinItems items) = .ok (joinItems (positives items)) := by
  induction fuel with
  | zero =>
      intro items hitems hcount _
      have hall : ∀ item ∈ items, item.negative = false := by
        intro item hitem
        rw [← Bool.not_eq_true]
        exact List.countP_eq_zero.mp (Nat.le_zero.mp hcount) item hitem
      have hsame : positives items = items :=
        List.filter_eq_self.mpr (fun item hitem => by rw [hall item hitem]; rfl)
      rw [hsame]
      exact removalLoop_done (fun item hitem => ⟨hitems item hitem, hall item hitem⟩) 0
  | succ fuel ih =>
      intro items hitems hcount hpositive
      by_cases hall : ∀ item ∈ items, item.negative = false
      · have hsame : positives items = items :=
          List.filter_eq_self.mpr (fun item hitem => by rw [hall item hitem]; rfl)
        rw [hsame]
        exact removalLoop_done (fun item hitem => ⟨hitems item hitem, hall item hitem⟩) _
      · obtain ⟨front, item, rest, rfl, hneg, hpos⟩ := CursorWalk.split_first hall
        have hfront : ∀ other ∈ front, other.Plain ∧ other.negative = false :=
          fun other hother => ⟨hitems other (List.mem_append_left _ hother), hpos other hother⟩
        -- an item at the end is taken out with the colon before it, another with the one behind
        cases rest with
        | nil =>
            have hitem := hitems item (List.mem_append_right _ (List.mem_singleton_self item))
            obtain ⟨other, hother, hotherPos⟩ := hpositive
            have hmem : other ∈ front := by
              rcases List.mem_append.mp hother with hmem | hmem
              · exact hmem
              · rw [List.mem_singleton.mp hmem, hneg] at hotherPos
                cases hotherPos
            have hleft : positives (front ++ [item]) = positives front := by
              unfold positives
              rw [List.filter_append, List.filter_cons_of_neg (by rw [hneg]; simp),
                List.filter_nil, List.append_nil]
            rw [removalLoop_last (List.ne_nil_of_mem hmem) hfront hitem hneg, hleft]
            refine ih (fun other hother => (hfront other hother).1) ?_ ⟨other, hmem, hotherPos⟩
            rw [List.countP_eq_zero.mpr (fun other hother => by rw [hpos other hother]; simp)]
            exact Nat.zero_le fuel
        | cons second rest =>
            rw [removalLoop_earlier hfront hneg hitems, ← positives_dropEarlier hneg]
            refine ih (fun other hother => hitems other (mem_of_mem_dropEarlier _ hother)) ?_ ?_
            · have := countP_dropEarlier_lt hneg front second rest
              omega
            · obtain ⟨other, hother, hotherPos⟩ := hpositive
              have hkept : other ∈ positives (front ++ item :: second :: rest) :=
                List.mem_filter.mpr ⟨hother, by rw [hotherPos]; rfl⟩
              rw [← positives_dropEarlier hneg] at hkept
              exact ⟨other, (List.mem_filter.mp hkept).1, hotherPos⟩

/-- With negative items only the loop never ends. -/
theorem removalLoop_stuck (fuel : ℕ) : ∀ {items : List NodespecItem}, items ≠ [] →
    (∀ item ∈ items, item.Plain ∧ item.negative = true) →
      removalLoop fuel (joinItems items) = .error .outOfSteps := by
  have hnone : ∀ other ∈ ([] : List NodespecItem), other.Plain ∧ other.negative = false :=
    fun _ h => absurd h List.not_mem_nil
  induction fuel with
  | zero =>
      intro items hne hitems
      obtain ⟨item, rest, rfl⟩ := List.exists_cons_of_ne_nil hne
      exact (removalLoop_mark (strchr_joinItems hnone
        (hitems item List.mem_cons_self).2 rest)).1
  | succ fuel ih =>
      intro items hne hitems
      obtain ⟨item, rest, rfl⟩ := List.exists_cons_of_ne_nil hne
      obtain ⟨hitem, hneg⟩ := hitems item List.mem_cons_self
      cases rest with
      | nil =>
          rw [joinItems, removalLoop_only hitem hneg]
          exact ih hne hitems
      | cons second rest =>
          have hround := removalLoop_earlier hnone hneg (fun other hother =>
            (hitems other hother).1) fuel
          rw [List.nil_append] at hround
          rw [hround]
          exact ih (dropEarlier_ne_nil _ hne)
            (fun other hother => hitems other (mem_of_mem_dropEarlier _ hother))

/-! ## The specification -/

/-- The start behind `ppn=`. -/
theorem tmpNsStart_ppn {nodespec front start : List Char}
    (hfirst : behindColon nodespec = .ok (front, start))
    (hppn : (strstr "ppn=".toList start).isSome = true) :
    tmpNsStart nodespec = (behindColon start.tail).map (fun split =>
      if "#excl".toList <:+ split.2 then
        ⟨front ++ start.take 1 ++ split.1, split.2.take (split.2.length - 5), true⟩
      else ⟨front ++ start.take 1 ++ split.1, split.2, false⟩) := by
  unfold tmpNsStart
  rw [hfirst]
  dsimp only [bind, Except.bind]
  rw [if_pos hppn]
  cases behindColon start.tail with
  | error fault => rfl
  | ok split =>
      show (if "#excl".toList <:+ split.2 then _ else _) = _
      by_cases hexcl : "#excl".toList <:+ split.2
      · rw [if_pos hexcl]
        show _ = Except.ok (if "#excl".toList <:+ split.2 then _ else _)
        rw [if_pos hexcl]
        rfl
      · rw [if_neg hexcl]
        show _ = Except.ok (if "#excl".toList <:+ split.2 then _ else _)
        rw [if_neg hexcl]
        rfl

/-- Items with a colon in front of each are the items with colons between them. -/
theorem flatMap_eq_joinItems (items : List NodespecItem) :
    items ≠ [] → items.flatMap (fun item => ':' :: item.text) = ':' :: joinItems items := by
  induction items with
  | nil =>
      intro hne
      exact absurd rfl hne
  | cons item rest ih =>
      intro _
      cases rest with
      | nil => simp [joinItems]
      | cons second rest =>
          rw [List.flatMap_cons, ih (List.cons_ne_nil _ _), joinItems_cons]
          simp

/-- Plain items have no `#`. -/
theorem hash_notMem_joinItems {items : List NodespecItem} (hitems : ∀ item ∈ items, item.Plain) :
    '#' ∉ joinItems items := by
  refine notMem_joinItems (by decide) ?_
  intro item hitem hmem
  unfold NodespecItem.text at hmem
  split at hmem
  · rcases List.mem_cons.mp hmem with heq | hmem
    · cases heq
    · exact (hitems item hitem).noHash hmem
  · exact (hitems item hitem).noHash hmem

/-- Behind the chunk begin the items; without any the search runs into `NULL`. -/
theorem tmpNsStart_nodespecText {nodes ppn : List Char} (hnodes : IsDecimal nodes)
    (hppn : IsDecimal ppn) {items : List NodespecItem} (hitems : ∀ item ∈ items, item.Plain)
    (isExcl : Bool) :
    tmpNsStart (nodespecText nodes ppn items isExcl)
      = if items = [] then .error .nullPointer
        else .ok ⟨nodes ++ ":ppn=".toList ++ ppn ++ [':'], joinItems items, isExcl⟩ := by
  have hdigits : ∀ digits : List Char, IsDecimal digits → ':' ∉ digits := by
    intro digits hdecimal hmem
    cases hdecimal.2 _ hmem
  have hcolon : ':' ∉ "pn=".toList ++ ppn := by
    intro hmem
    rcases List.mem_append.mp hmem with hmem | hmem
    · revert hmem
      decide
    · exact hdigits ppn hppn hmem
  set excl : List Char := if isExcl then "#excl".toList else [] with hexcl
  set behind := items.flatMap (fun item => ':' :: item.text) ++ excl with hbehind
  have htext : nodespecText nodes ppn items isExcl
      = nodes ++ ':' :: ("ppn=".toList ++ ppn ++ behind) := by
    unfold nodespecText
    rw [← hexcl, hbehind]
    simp only [List.append_assoc]
    rfl
  have hfirst : behindColon (nodespecText nodes ppn items isExcl)
      = .ok (nodes ++ [':'], "ppn=".toList ++ ppn ++ behind) := by
    unfold behindColon
    rw [htext, strchr_append (hdigits nodes hnodes)]
    rfl
  have hppnFound : (strstr "ppn=".toList ("ppn=".toList ++ ppn ++ behind)).isSome = true := by
    cases hfind : strstr "ppn=".toList ("ppn=".toList ++ ppn ++ behind) with
    | some found => rfl
    | none =>
        rw [strstr_none_iff, List.append_assoc] at hfind
        exact absurd (List.prefix_append _ _).isInfix hfind
  have htail : ("ppn=".toList ++ ppn ++ behind).tail = "pn=".toList ++ ppn ++ behind := rfl
  rw [tmpNsStart_ppn hfirst hppnFound, htail]
  -- the second colon is the one before the first item
  by_cases hne : items = []
  · rw [if_pos hne]
    have hnone : strchr ':' ("pn=".toList ++ ppn ++ behind) = none := by
      rw [strchr_none_iff, hbehind, hne, hexcl]
      intro hmem
      rcases List.mem_append.mp hmem with hmem | hmem
      · exact hcolon hmem
      · revert hmem
        cases isExcl <;> decide
    unfold behindColon
    rw [hnone]
    rfl
  · rw [if_neg hne]
    have hsecond : behindColon ("pn=".toList ++ ppn ++ behind)
        = .ok ("pn=".toList ++ ppn ++ [':'], joinItems items ++ excl) := by
      unfold behindColon
      rw [hbehind, flatMap_eq_joinItems items hne, List.cons_append, strchr_append hcolon]
      rfl
    rw [hsecond]
    show Except.ok (if "#excl".toList <:+ joinItems items ++ excl then _ else _) = _
    cases isExcl with
    | true =>
        rw [hexcl, if_pos rfl, if_pos (List.suffix_append _ _), List.length_append]
        have htake : (joinItems items ++ "#excl".toList).take
            ((joinItems items).length + "#excl".toList.length - 5) = joinItems items := by
          show List.take ((joinItems items).length + 5 - 5) _ = _
          rw [Nat.add_sub_cancel, List.take_left]
        rw [htake]
        simp
    | false =>
        have hno : ¬ "#excl".toList <:+ joinItems items ++ excl := by
          rw [hexcl, if_neg Bool.false_ne_true, List.append_nil]
          intro hsuffix
          exact hash_notMem_joinItems hitems (hsuffix.subset (by decide))
        rw [if_neg hno, hexcl, if_neg Bool.false_ne_true, List.append_nil]
        simp

/-- The negative properties are taken out of a specification: the loop ends, and the text
behind the chunk has the other items, in their order. -/
def NegativesRemoved (nodespec : List Char) (items : List NodespecItem) : Prop :=
  ∃ fuel opening, tmpNsStart nodespec = .ok opening ∧
    removalLoop fuel opening.start = .ok (joinItems (positives items))

/-- They are taken out exactly if there is an item that is not negative. -/
theorem negatives_removed_iff {nodes ppn : List Char} (hnodes : IsDecimal nodes)
    (hppn : IsDecimal ppn) {items : List NodespecItem} (hitems : ∀ item ∈ items, item.Plain)
    (isExcl : Bool) :
    NegativesRemoved (nodespecText nodes ppn items isExcl) items ↔
      ∃ item ∈ items, item.negative = false := by
  unfold NegativesRemoved
  rw [tmpNsStart_nodespecText hnodes hppn hitems]
  constructor
  · rintro ⟨fuel, opening, hopening, hloop⟩
    by_cases hne : items = []
    · rw [if_pos hne] at hopening
      cases hopening
    · rw [if_neg hne] at hopening
      cases hopening
      by_contra hnone
      rw [removalLoop_stuck fuel hne ?_] at hloop
      · cases hloop
      · intro item hitem
        refine ⟨hitems item hitem, ?_⟩
        rw [← Bool.not_eq_false]
        exact fun hpos => hnone ⟨item, hitem, hpos⟩
  · rintro ⟨item, hitem, hpos⟩
    rw [if_neg (List.ne_nil_of_mem hitem)]
    exact ⟨_, _, rfl, removalLoop_ok _ hitems le_rfl ⟨item, hitem, hpos⟩⟩

/-! ### Negative properties only -/

/-- `^cl`. -/
def notCl : NodespecItem := ⟨true, ['c', 'l']⟩

theorem notCl_plain : notCl.Plain := ⟨by decide, by decide, by decide, fun _ => by decide⟩

/-- The property `ssd`. -/
def ssd : NodespecItem := ⟨false, ['s', 's', 'd']⟩

/-- From `1:ppn=1:^cl:ssd:^cl` the property `ssd` is left. -/
theorem negatives_removed_ssd :
    NegativesRemoved (nodespecText ['1'] ['1'] [notCl, ssd, notCl] false) [notCl, ssd, notCl] := by
  refine (negatives_removed_iff ⟨by simp, by simp⟩ ⟨by simp, by simp⟩ ?_ false).mpr
    ⟨ssd, by simp, rfl⟩
  intro item hitem
  simp only [List.mem_cons, List.not_mem_nil, or_false] at hitem
  rcases hitem with rfl | rfl | rfl
  · exact notCl_plain
  · exact ⟨by decide, by decide, by decide, fun h => by cases h⟩
  · exact notCl_plain

/-- For `1:ppn=1:^cl` the loop never ends. -/
theorem onlyNegative_never_ends :
    nodespecText ['1'] ['1'] [notCl] false = "1:ppn=1:^cl".toList ∧
    (∀ fuel, removalLoop fuel "^cl".toList = .error .outOfSteps) ∧
    ¬ NegativesRemoved "1:ppn=1:^cl".toList [notCl] := by
  have hplain : ∀ item ∈ [notCl], item.Plain ∧ item.negative = true := by
    intro item hitem
    rw [List.mem_singleton.mp hitem]
    exact ⟨notCl_plain, rfl⟩
  have hstuck : ∀ fuel, removalLoop fuel "^cl".toList = .error .outOfSteps :=
    fun fuel => removalLoop_stuck fuel (List.cons_ne_nil notCl []) hplain
  refine ⟨rfl, hstuck, ?_⟩
  rintro ⟨fuel, opening, hopening, hloop⟩
  have hstart := @tmpNsStart_nodespecText ['1'] ['1'] ⟨by simp, by simp⟩ ⟨by simp, by simp⟩
    [notCl] (fun item hitem => (hplain item hitem).1) false
  rw [if_neg (List.cons_ne_nil _ _)] at hstart
  cases hstart.symm.trans hopening
  have := hstuck fuel
  rw [show "^cl".toList = joinItems [notCl] from rfl, hloop] at this
  cases this

end PlanSched.NodespecText
