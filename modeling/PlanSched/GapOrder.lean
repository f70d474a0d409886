/-
# Gap lists in order

What `insert_new_gap` does to a list of gaps that follow one another in time: it
stays such a list, and no gap of it ends later than the old and the new ones did.

`InsertCall` says once what a call can do (append the gap, put it between two
others, or cut it and the gap it meets into pieces with common ends); the results
about whole insertions are inductions over the calls.
-/
import PlanSched.Gaps
import PlanSched.Selection

namespace PlanSched

open CheckedRun

/-! ## One call of `insert_new_gap` -/

/-- The walk stops at a gap of the list that ends after the new gap starts, and
whose predecessor does not. -/
theorem walkBack_spec {gaps : List PlanGap} {startTime : ℤ} :
    ∀ {p : ℕ} {last : PlanGap}, gaps[p]? = some last → startTime < last.endTime →
      ∃ i last', walkBack gaps startTime p = i ∧ gaps[i]? = some last' ∧
        startTime < last'.endTime ∧
        ∀ previous ∈ (gaps.take i).getLast?, previous.endTime ≤ startTime := by
  intro p
  induction p with
  | zero =>
      intro last hlast hend
      refine ⟨0, last, rfl, hlast, hend, ?_⟩
      intro previous hprevious
      cases hprevious
  | succ p ih =>
      intro last hlast hend
      obtain ⟨hlt, -⟩ := List.getElem?_eq_some_iff.mp hlast
      have hp : gaps[p]? = some gaps[p] := List.getElem?_eq_getElem (by omega)
      rw [walkBack, hp]
      dsimp only
      split
      · next hbefore =>
          refine ⟨p + 1, last, rfl, hlast, hend, ?_⟩
          intro previous hprevious
          rw [List.take_add_one, hp, Option.toList_some, List.getLast?_append_cons] at hprevious
          cases hprevious
          exact hbefore
      · next hafter =>
          exact ih hp (by omega)

/-- What one call of `insert_new_gap` does. -/
inductive InsertCall (cluster : PlanCluster) (jobs : List PlanJob) (fuel : ℕ)
    (gaps : List PlanGap) (lastGap : Option ℕ) (gapNew : PlanGap) :
    Run (List PlanGap) → Prop
  /-- the gap is appended, behind all gaps if the list is in order -/
  | append (adjusted : PlanGap)
      (hadjusted : adjusted = gapNew ∨
        ∃ last, adjusted = adjustGapMemory cluster jobs gapNew last)
      (hlast : ∀ last, gaps[lastGap.getD (gaps.length - 1)]? = some last →
        last.endTime ≤ gapNew.startTime) :
      InsertCall cluster jobs fuel gaps lastGap gapNew (.ok (gaps ++ [adjusted]))
  /-- the gap fits between two gaps of the list -/
  | before (pre post : List PlanGap) (last : PlanGap) (hgaps : gaps = pre ++ last :: post)
      (hpre : ∀ previous ∈ pre.getLast?, previous.endTime ≤ gapNew.startTime)
      (hafter : gapNew.endTime ≤ last.startTime) :
      InsertCall cluster jobs fuel gaps lastGap gapNew (.ok (pre ++ [gapNew, last] ++ post))
  /-- the gap ends with the one it meets -/
  | same (pre post front : List PlanGap) (last last' gapNew' : PlanGap)
      (hgaps : gaps = pre ++ last :: post)
      (hpre : ∀ previous ∈ pre.getLast?, previous.endTime ≤ gapNew.startTime)
      (hmeets : gapNew.startTime < last.endTime ∧ last.startTime < gapNew.endTime)
      (halign : alignStarts last gapNew = (front, last', gapNew'))
      (hend : last'.endTime = gapNew'.endTime) :
      InsertCall cluster jobs fuel gaps lastGap gapNew
        (.ok (pre ++ (front ++ [addMemGapToGap last' gapNew']) ++ post))
  /-- the gap ends inside the one it meets -/
  | inside (pre post front : List PlanGap) (last last' gapNew' : PlanGap)
      (hgaps : gaps = pre ++ last :: post)
      (hpre : ∀ previous ∈ pre.getLast?, previous.endTime ≤ gapNew.startTime)
      (hmeets : gapNew.startTime < last.endTime ∧ last.startTime < gapNew.endTime)
      (halign : alignStarts last gapNew = (front, last', gapNew'))
      (hend : gapNew'.endTime < last'.endTime) :
      InsertCall cluster jobs fuel gaps lastGap gapNew
        (.ok (pre ++ (front ++ [addMemGapToGap (last'.upTo gapNew'.endTime) gapNew',
          last'.from gapNew'.endTime]) ++ post))
  /-- the gap ends behind the one it meets: its rest is inserted behind that one -/
  | beyond (pre post front : List PlanGap) (last last' gapNew' : PlanGap)
      (hgaps : gaps = pre ++ last :: post)
      (hposition : pre.length =
        walkBack gaps gapNew.startTime (lastGap.getD (gaps.length - 1)))
      (hlast : ∀ gap, gaps[lastGap.getD (gaps.length - 1)]? = some gap →
        gapNew.startTime < gap.endTime)
      (hpre : ∀ previous ∈ pre.getLast?, previous.endTime ≤ gapNew.startTime)
      (hmeets : gapNew.startTime < last.endTime ∧ last.startTime < gapNew.endTime)
      (halign : alignStarts last gapNew = (front, last', gapNew'))
      (hend : last'.endTime < gapNew'.endTime) :
      InsertCall cluster jobs fuel gaps lastGap gapNew
        (insertNewGapAux cluster jobs fuel
          (pre ++ (front ++ [addMemGapToGap last' gapNew']) ++ post)
          (if post = [] then none
            else some (pre ++ (front ++ [addMemGapToGap last' gapNew'])).length)
          ((adjustGapMemory cluster jobs gapNew' last').from last'.endTime))

/-- What aligning two gaps does: the earlier one is cut where the other one starts. -/
inductive AlignCall (last gapNew : PlanGap) : List PlanGap → PlanGap → PlanGap → Prop
  | newEarlier (hlt : gapNew.startTime < last.startTime) :
      AlignCall last gapNew [gapNew.upTo last.startTime] last (gapNew.from last.startTime)
  | lastEarlier (hlt : last.startTime < gapNew.startTime) :
      AlignCall last gapNew [last.upTo gapNew.startTime] (last.from gapNew.startTime) gapNew
  | together (heq : last.startTime = gapNew.startTime) : AlignCall last gapNew [] last gapNew

/-- Every call does one of the three things. -/
theorem alignStarts_call {last gapNew last' gapNew' : PlanGap} {front : List PlanGap}
    (h : alignStarts last gapNew = (front, last', gapNew')) :
    AlignCall last gapNew front last' gapNew' := by
  unfold alignStarts at h
  split at h
  · next hlt =>
      cases h
      exact .newEarlier hlt
  · split at h
    · next hlt =>
        cases h
        exact .lastEarlier hlt
    · cases h
      exact .together (by omega)

/-- Every call does one of the five things. -/
theorem insertNewGapAux_call (cluster : PlanCluster) (jobs : List PlanJob) (fuel : ℕ)
    (gaps : List PlanGap) (lastGap : Option ℕ) (gapNew : PlanGap) :
    InsertCall cluster jobs fuel gaps lastGap gapNew
      (insertNewGapAux cluster jobs (fuel + 1) gaps lastGap gapNew) := by
  rw [insertNewGapAux]
  split
  · next hnone =>
      refine .append gapNew (Or.inl rfl) ?_
      intro last hlast
      rw [hnone] at hlast
      cases hlast
  · next last hlast =>
      split
      · next hbehind =>
          refine .append _ ?_ ?_
          · split
            · exact Or.inr ⟨last, rfl⟩
            · exact Or.inl rfl
          · intro last' hlast'
            rw [hlast] at hlast'
            cases hlast'
            exact hbehind
      · next hmeets =>
          -- the walk back stops at a gap that ends behind the new start, its predecessor not
          obtain ⟨i, last', hi, hlast', hend, hpre⟩ := walkBack_spec hlast (not_le.mp hmeets)
          obtain ⟨hlt, hget⟩ := List.getElem?_eq_some_iff.mp hlast'
          have hsplit : gaps = gaps.take i ++ last' :: gaps.drop (i + 1) := by
            rw [← hget, List.getElem_cons_drop, List.take_append_drop]
          have hlength : (gaps.take i).length = i := List.length_take_of_le hlt.le
          dsimp only
          rw [hi, hlast']
          dsimp only
          split
          · next hafter =>
              have hdrop : gapNew :: gaps.drop i = [gapNew, last'] ++ gaps.drop (i + 1) := by
                rw [← hget, ← List.getElem_cons_drop hlt]
                rfl
              rw [hdrop, ← List.append_assoc]
              exact .before (gaps.take i) (gaps.drop (i + 1)) last' hsplit hpre hafter
          · next hstart =>
              have hboth : gapNew.startTime < last'.endTime ∧ last'.startTime < gapNew.endTime :=
                ⟨hend, not_le.mp hstart⟩
              obtain ⟨front, last₁, gapNew₁, halign⟩ :
                  ∃ front l g, alignStarts last' gapNew = (front, l, g) := ⟨_, _, _, rfl⟩
              have hone : ∀ gap, gaps.take i ++ front ++ gap :: gaps.drop (i + 1)
                  = gaps.take i ++ (front ++ [gap]) ++ gaps.drop (i + 1) := by
                intro gap
                simp
              have htwo : ∀ gap gap', gaps.take i ++ front ++ gap :: gap' :: gaps.drop (i + 1)
                  = gaps.take i ++ (front ++ [gap, gap']) ++ gaps.drop (i + 1) := by
                intro gap gap'
                simp
              rw [halign]
              dsimp only
              split
              · next heq =>
                  rw [hone]
                  exact .same _ _ front last' last₁ gapNew₁ hsplit hpre hboth halign heq
              · next hne =>
                  split
                  · next hinside =>
                      rw [htwo]
                      exact .inside _ _ front last' last₁ gapNew₁ hsplit hpre hboth halign hinside
                  · next hbeyond =>
                      have hpost : (if i + 1 < gaps.length then some (i + front.length + 1)
                          else none) = if gaps.drop (i + 1) = [] then none
                          else some (gaps.take i ++
                            (front ++ [addMemGapToGap last₁ gapNew₁])).length := by
                        simp only [List.drop_eq_nil_iff, List.length_append, List.length_singleton,
                          hlength, Nat.add_assoc]
                        split
                        · rw [if_neg (by omega)]
                        · rw [if_pos (by omega)]
                      rw [hone, hpost]
                      refine .beyond _ _ front last' last₁ gapNew₁ hsplit
                        (hlength.trans hi.symm) ?_ hpre hboth halign (by omega)
                      intro gap hgap
                      rw [hlast] at hgap
                      cases hgap
                      exact not_le.mp hmeets

/-! ## Gap lists in order -/

/-- The gap is not empty and knows its length. -/
def PlanGap.Proper (gap : PlanGap) : Prop :=
  gap.startTime < gap.endTime ∧ gap.duration = gap.endTime - gap.startTime

/-- The gaps are proper and follow one another in time. -/
structure OrderedGaps (gaps : List PlanGap) : Prop where
  proper : ∀ gap ∈ gaps, gap.Proper
  ordered : gaps.Pairwise (fun gap gap' => gap.endTime ≤ gap'.startTime)

/-- One gap of an ordered list may be replaced by ordered pieces that begin behind
the gaps before it and do not reach further than it did. -/
theorem OrderedGaps.replace {pre mid post : List PlanGap} {last : PlanGap}
    (h : OrderedGaps (pre ++ last :: post)) (hmid : OrderedGaps mid)
    (hpre : ∀ gap ∈ pre, ∀ piece ∈ mid, gap.endTime ≤ piece.startTime)
    (hend : ∀ piece ∈ mid, piece.endTime ≤ last.endTime) :
    OrderedGaps (pre ++ mid ++ post) := by
  obtain ⟨hordpre, hordpost, hcross⟩ := List.pairwise_append.mp h.ordered
  obtain ⟨hlast, hordpost⟩ := List.pairwise_cons.mp hordpost
  constructor
  · intro gap hgap
    rcases List.mem_append.mp hgap with hgap | hgap
    · rcases List.mem_append.mp hgap with hgap | hgap
      · exact h.proper gap (List.mem_append_left _ hgap)
      · exact hmid.proper gap hgap
    · exact h.proper gap (List.mem_append_right _ (List.mem_cons_of_mem _ hgap))
  · refine List.pairwise_append.mpr
      ⟨List.pairwise_append.mpr ⟨hordpre, hmid.ordered, hpre⟩, hordpost, ?_⟩
    intro gap hgap gap' hgap'
    rcases List.mem_append.mp hgap with hgap | hgap
    · exact hcross gap hgap gap' (List.mem_cons_of_mem _ hgap')
    · exact (hend gap hgap).trans (hlast gap' hgap')

/-- In an ordered list, all gaps end before a time if the last of them does. -/
theorem OrderedGaps.end_le_of_getLast? {gaps : List PlanGap} {t : ℤ} (h : OrderedGaps gaps)
    (hlast : ∀ last ∈ gaps.getLast?, last.endTime ≤ t) {gap : PlanGap} (hgap : gap ∈ gaps) :
    gap.endTime ≤ t := by
  obtain ⟨last, hget⟩ : ∃ last, gaps.getLast? = some last :=
    ⟨_, List.getLast?_eq_some_getLast (List.ne_nil_of_mem hgap)⟩
  obtain ⟨init, rfl⟩ := List.getLast?_eq_some_iff.mp hget
  have hend := hlast last hget
  rcases List.mem_append.mp hgap with hgap | hgap
  · have horder := (List.pairwise_append.mp h.ordered).2.2 gap hgap last
      (List.mem_singleton.mpr rfl)
    have := (h.proper last (List.mem_append_right _ (List.mem_singleton.mpr rfl))).1
    omega
  · rw [List.mem_singleton.mp hgap]
    exact hend

/-- A front part of an ordered list is ordered. -/
theorem OrderedGaps.left {gaps gaps' : List PlanGap} (h : OrderedGaps (gaps ++ gaps')) :
    OrderedGaps gaps :=
  ⟨fun gap hgap => h.proper gap (List.mem_append_left _ hgap),
    (List.pairwise_append.mp h.ordered).1⟩

/-- One proper gap is an ordered list. -/
theorem orderedGaps_singleton {gap : PlanGap} (h : gap.Proper) : OrderedGaps [gap] :=
  ⟨fun _ hgap => (List.mem_singleton.mp hgap).symm ▸ h, List.pairwise_singleton _ _⟩

/-- Ordered lists may be joined when the first ends before the second begins. -/
theorem OrderedGaps.append {gaps gaps' : List PlanGap} (h : OrderedGaps gaps)
    (h' : OrderedGaps gaps')
    (hcross : ∀ gap ∈ gaps, ∀ gap' ∈ gaps', gap.endTime ≤ gap'.startTime) :
    OrderedGaps (gaps ++ gaps') := by
  refine ⟨?_, List.pairwise_append.mpr ⟨h.ordered, h'.ordered, hcross⟩⟩
  intro gap hgap
  rcases List.mem_append.mp hgap with hgap | hgap
  · exact h.proper gap hgap
  · exact h'.proper gap hgap

/-- The gap up to a time inside of it is proper. -/
theorem upTo_proper {gap : PlanGap} {t : ℤ} (h : gap.startTime < t) : (gap.upTo t).Proper :=
  ⟨h, rfl⟩

/-- The gap from a time inside of it is proper. -/
theorem from_proper {gap : PlanGap} {t : ℤ} (h : t < gap.endTime) : (gap.from t).Proper :=
  ⟨h, rfl⟩

/-- Adding CPUs to a gap leaves its times. -/
theorem addMemGapToGap_proper {target : PlanGap} (source : PlanGap) (h : target.Proper) :
    (addMemGapToGap target source).Proper := h

/-- The memory of a gap does not touch its times. -/
theorem adjustGapMemory_times (cluster : PlanCluster) (jobs : List PlanJob)
    (gapNew last : PlanGap) :
    (adjustGapMemory cluster jobs gapNew last).startTime = gapNew.startTime ∧
      (adjustGapMemory cluster jobs gapNew last).endTime = gapNew.endTime ∧
      (adjustGapMemory cluster jobs gapNew last).duration = gapNew.duration := by
  unfold adjustGapMemory
  split <;> exact ⟨rfl, rfl, rfl⟩

/-- What the alignment of two gaps that meet leaves: two proper gaps with one start,
and in front of it the piece of the one that begins earlier. -/
structure Aligned (last gapNew : PlanGap) (front : List PlanGap) (last' gapNew' : PlanGap) :
    Prop where
  last_end : last'.endTime = last.endTime
  new_end : gapNew'.endTime = gapNew.endTime
  start_eq : last'.startTime = gapNew'.startTime
  last_proper : last'.Proper
  new_proper : gapNew'.Proper
  start_le : min last.startTime gapNew.startTime ≤ last'.startTime
  front_ordered : OrderedGaps front
  front_end : ∀ piece ∈ front, piece.endTime ≤ last'.startTime
  front_start : ∀ piece ∈ front, min last.startTime gapNew.startTime ≤ piece.startTime

/-- Two proper gaps that meet are aligned. -/
theorem alignStarts_aligned {last gapNew last' gapNew' : PlanGap} {front : List PlanGap}
    (hlast : last.Proper) (hnew : gapNew.Proper)
    (hmeets : gapNew.startTime < last.endTime ∧ last.startTime < gapNew.endTime)
    (h : alignStarts last gapNew = (front, last', gapNew')) :
    Aligned last gapNew front last' gapNew' := by
  cases alignStarts_call h with
  | newEarlier hlt =>
      refine ⟨rfl, rfl, rfl, hlast, from_proper hmeets.2, min_le_left _ _,
        orderedGaps_singleton (upTo_proper hlt), ?_, ?_⟩
      · intro piece hpiece
        rw [List.mem_singleton.mp hpiece]
        exact le_rfl
      · intro piece hpiece
        rw [List.mem_singleton.mp hpiece]
        exact min_le_right _ _
  | lastEarlier hlt =>
      refine ⟨rfl, rfl, rfl, from_proper hmeets.1, hnew, min_le_right _ _,
        orderedGaps_singleton (upTo_proper hlt), ?_, ?_⟩
      · intro piece hpiece
        rw [List.mem_singleton.mp hpiece]
        exact le_rfl
      · intro piece hpiece
        rw [List.mem_singleton.mp hpiece]
        exact min_le_left _ _
  | together heq =>
      exact ⟨rfl, rfl, heq, hlast, hnew, min_le_left _ _, ⟨by simp, List.Pairwise.nil⟩,
        by simp, by simp⟩

/-- The front piece, a proper gap with the common start, and proper gaps behind it
are in order. -/
theorem Aligned.ordered {last gapNew last' gapNew' : PlanGap} {front pieces : List PlanGap}
    (h : Aligned last gapNew front last' gapNew') (hpieces : OrderedGaps pieces)
    (hstart : ∀ piece ∈ pieces, last'.startTime ≤ piece.startTime) :
    OrderedGaps (front ++ pieces) :=
  h.front_ordered.append hpieces
    (fun _ hgap _ hpiece => (h.front_end _ hgap).trans (hstart _ hpiece))

/-- In an ordered list, one gap may be replaced by the pieces an alignment leaves. -/
theorem OrderedGaps.replace_aligned {pre post front pieces : List PlanGap}
    {last gapNew last' gapNew' : PlanGap} (h : OrderedGaps (pre ++ last :: post))
    (hpre : ∀ previous ∈ pre.getLast?, previous.endTime ≤ gapNew.startTime)
    (halign : Aligned last gapNew front last' gapNew') (hpieces : OrderedGaps pieces)
    (hstart : ∀ piece ∈ pieces, last'.startTime ≤ piece.startTime)
    (hend : ∀ piece ∈ pieces, piece.endTime ≤ last.endTime) :
    OrderedGaps (pre ++ (front ++ pieces) ++ post) := by
  have hbefore : ∀ gap ∈ pre, gap.endTime ≤ min last.startTime gapNew.startTime := by
    intro gap hgap
    refine le_min ?_ (h.left.end_le_of_getLast? hpre hgap)
    exact (List.pairwise_append.mp h.ordered).2.2 gap hgap last List.mem_cons_self
  refine h.replace (halign.ordered hpieces hstart) ?_ ?_
  · intro gap hgap piece hpiece
    rcases List.mem_append.mp hpiece with hpiece | hpiece
    · exact (hbefore gap hgap).trans (halign.front_start piece hpiece)
    · exact (hbefore gap hgap).trans (halign.start_le.trans (hstart piece hpiece))
  · intro piece hpiece
    rcases List.mem_append.mp hpiece with hpiece | hpiece
    · have := halign.front_end piece hpiece
      have := halign.last_proper.1
      rw [halign.last_end] at this
      omega
    · exact hend piece hpiece

/-- Two proper gaps, one behind the other, are an ordered list. -/
theorem orderedGaps_pair {gap gap' : PlanGap} (h : gap.Proper) (h' : gap'.Proper)
    (hle : gap.endTime ≤ gap'.startTime) : OrderedGaps [gap, gap'] := by
  refine (orderedGaps_singleton h).append (orderedGaps_singleton h') ?_
  intro g hg g' hg'
  rw [List.mem_singleton.mp hg, List.mem_singleton.mp hg']
  exact hle

/-- The merged gap of an alignment takes the place of the old one. -/
theorem OrderedGaps.replace_merged {pre post front : List PlanGap}
    {last gapNew last' gapNew' : PlanGap} (h : OrderedGaps (pre ++ last :: post))
    (hpre : ∀ previous ∈ pre.getLast?, previous.endTime ≤ gapNew.startTime)
    (halign : Aligned last gapNew front last' gapNew') :
    OrderedGaps (pre ++ (front ++ [addMemGapToGap last' gapNew']) ++ post) := by
  refine h.replace_aligned hpre halign
    (orderedGaps_singleton (addMemGapToGap_proper gapNew' halign.last_proper)) ?_ ?_
  · intro piece hpiece
    rw [List.mem_singleton.mp hpiece]
    exact le_rfl
  · intro piece hpiece
    rw [List.mem_singleton.mp hpiece]
    exact halign.last_end.le

/-- `insert_new_gap` keeps a list in order. -/
theorem insertNewGapAux_ordered {cluster : PlanCluster} {jobs : List PlanJob} (fuel : ℕ) :
    ∀ {gaps gaps' : List PlanGap} {lastGap : Option ℕ} {gapNew : PlanGap}, OrderedGaps gaps →
      gapNew.Proper →
      (∀ p ∈ lastGap, ∃ last, gaps[p]? = some last ∧ gapNew.startTime < last.endTime) →
      insertNewGapAux cluster jobs fuel gaps lastGap gapNew = .ok gaps' → OrderedGaps gaps' := by
  induction fuel with
  | zero =>
      intro gaps gaps' lastGap gapNew _ _ _ h
      rw [insertNewGapAux] at h
      cases h
  | succ fuel ih =>
      intro gaps gaps' lastGap gapNew hgaps hnew hposition h
      have hcall := insertNewGapAux_call cluster jobs fuel gaps lastGap gapNew
      rw [h] at hcall
      generalize hresult : (Except.ok gaps' : Run (List PlanGap)) = result at hcall
      cases hcall with
      | append adjusted hadjusted hlast =>
          have htimes : adjusted.startTime = gapNew.startTime ∧ adjusted.Proper := by
            rcases hadjusted with rfl | ⟨last, rfl⟩
            · exact ⟨rfl, hnew⟩
            · obtain ⟨hs, he, hd⟩ := adjustGapMemory_times cluster jobs gapNew last
              refine ⟨hs, ?_⟩
              unfold PlanGap.Proper
              rw [hs, he, hd]
              exact hnew
          rw [Except.ok.inj hresult]
          refine hgaps.append (orderedGaps_singleton htimes.2) ?_
          intro gap hgap gap' hgap'
          rw [List.mem_singleton.mp hgap', htimes.1]
          cases lastGap with
          | none =>
              refine hgaps.end_le_of_getLast? ?_ hgap
              intro last hget
              refine hlast last ?_
              rw [Option.getD_none, ← List.getLast?_eq_getElem?]
              exact hget
          | some p =>
              obtain ⟨last, hget, hlt⟩ := hposition p rfl
              have := hlast last hget
              omega
      | before pre post last hsplit hpre hafter =>
          rw [hsplit] at hgaps
          have hlastproper := hgaps.proper last (by simp)
          rw [Except.ok.inj hresult]
          refine hgaps.replace (orderedGaps_pair hnew hlastproper hafter) ?_ ?_
          · intro gap hgap piece hpiece
            have hbefore := hgaps.left.end_le_of_getLast? hpre hgap
            have hstart := hnew.1
            rcases List.mem_pair.mp hpiece with rfl | rfl <;> omega
          · intro piece hpiece
            have := hlastproper.1
            rcases List.mem_pair.mp hpiece with rfl | rfl <;> omega
      | same pre post front last last' gapNew' hsplit hpre hmeets halign hend =>
          rw [hsplit] at hgaps
          have hal := alignStarts_aligned (hgaps.proper last (by simp)) hnew hmeets halign
          rw [Except.ok.inj hresult]
          exact hgaps.replace_merged hpre hal
      | inside pre post front last last' gapNew' hsplit hpre hmeets halign hend =>
          rw [hsplit] at hgaps
          have hal := alignStarts_aligned (hgaps.proper last (by simp)) hnew hmeets halign
          have hstart : last'.startTime < gapNew'.endTime := by
            rw [hal.start_eq]
            exact hal.new_proper.1
          rw [Except.ok.inj hresult]
          refine hgaps.replace_aligned hpre hal
            (orderedGaps_pair (addMemGapToGap_proper gapNew' (upTo_proper hstart))
              (from_proper hend) le_rfl) ?_ ?_
          · intro piece hpiece
            rcases List.mem_pair.mp hpiece with rfl | rfl
            · exact le_rfl
            · exact hstart.le
          · intro piece hpiece
            rw [← hal.last_end]
            rcases List.mem_pair.mp hpiece with rfl | rfl
            · exact hend.le
            · exact le_rfl
      | beyond pre post front last last' gapNew' hsplit _ _ hpre hmeets halign hend =>
          rw [hsplit] at hgaps
          have hal := alignStarts_aligned (hgaps.proper last (by simp)) hnew hmeets halign
          obtain ⟨-, he, -⟩ := adjustGapMemory_times cluster jobs gapNew' last'
          refine ih (hgaps.replace_merged hpre hal) (from_proper (by rw [he]; exact hend)) ?_
            hresult.symm
          -- the rest is inserted at the gap behind, which starts no earlier
          intro p hp
          cases post with
          | nil => cases hp
          | cons next post =>
              rw [if_neg (List.cons_ne_nil _ _)] at hp
              cases hp
              refine ⟨next, by rw [List.getElem?_append_right le_rfl, Nat.sub_self]; rfl, ?_⟩
              have hnext := List.pairwise_cons.mp (List.pairwise_append.mp hgaps.ordered).2.1
              have hle := hnext.1 next List.mem_cons_self
              have hproper := hgaps.proper next (by simp)
              show last'.endTime < next.endTime
              rw [hal.last_end]
              exact lt_of_le_of_lt hle hproper.1

/-- The pieces in front of an alignment end no later than the old gap. -/
theorem alignStarts_ends {last gapNew last' gapNew' : PlanGap} {front : List PlanGap} {t : ℤ}
    (hlast : last.endTime ≤ t) (hmeets : gapNew.startTime < last.endTime ∧
      last.startTime < gapNew.endTime) (hnew : gapNew.endTime ≤ t)
    (h : alignStarts last gapNew = (front, last', gapNew')) :
    last'.endTime ≤ t ∧ gapNew'.endTime ≤ t ∧ ∀ piece ∈ front, piece.endTime ≤ t := by
  cases alignStarts_call h with
  | newEarlier hlt =>
      refine ⟨hlast, hnew, ?_⟩
      intro piece hpiece
      rw [List.mem_singleton.mp hpiece]
      exact (hmeets.2.trans_le hnew).le
  | lastEarlier hlt =>
      refine ⟨hlast, hnew, ?_⟩
      intro piece hpiece
      rw [List.mem_singleton.mp hpiece]
      exact (hmeets.1.trans_le hlast).le
  | together heq => exact ⟨hlast, hnew, by simp⟩

/-- The gaps of the list end no later than `t`. -/
def EndBy (t : ℤ) (gaps : List PlanGap) : Prop := ∀ gap ∈ gaps, gap.endTime ≤ t

/-- `insert_new_gap` makes no gap that ends later. -/
theorem insertNewGapAux_endBy {cluster : PlanCluster} {jobs : List PlanJob} {t : ℤ} (fuel : ℕ) :
    ∀ {gaps gaps' : List PlanGap} {lastGap : Option ℕ} {gapNew : PlanGap}, EndBy t gaps →
      gapNew.endTime ≤ t →
      insertNewGapAux cluster jobs fuel gaps lastGap gapNew = .ok gaps' → EndBy t gaps' := by
  induction fuel with
  | zero =>
      intro gaps gaps' lastGap gapNew _ _ h
      rw [insertNewGapAux] at h
      cases h
  | succ fuel ih =>
      intro gaps gaps' lastGap gapNew hgaps hnew h
      unfold EndBy at hgaps ih ⊢
      have hcall := insertNewGapAux_call cluster jobs fuel gaps lastGap gapNew
      rw [h] at hcall
      generalize hresult : (Except.ok gaps' : Run (List PlanGap)) = result at hcall
      -- a rest is left only by a call that goes beyond the last gap; it ends with the new gap
      cases hcall with
      | append adjusted hadjusted hlast =>
          have hend : adjusted.endTime = gapNew.endTime := by
            rcases hadjusted with rfl | ⟨last, rfl⟩
            · rfl
            · exact (adjustGapMemory_times cluster jobs gapNew last).2.1
          rw [Except.ok.inj hresult, List.forall_mem_append, List.forall_mem_singleton, hend]
          exact ⟨hgaps, hnew⟩
      | before pre post last hsplit hpre hafter =>
          rw [hsplit, List.forall_mem_append, List.forall_mem_cons] at hgaps
          rw [Except.ok.inj hresult, List.forall_mem_append, List.forall_mem_append,
            List.forall_mem_cons, List.forall_mem_singleton]
          exact ⟨⟨hgaps.1, hnew, hgaps.2.1⟩, hgaps.2.2⟩
      | same pre post front last last' gapNew' hsplit hpre hmeets halign hend =>
          rw [hsplit, List.forall_mem_append, List.forall_mem_cons] at hgaps
          obtain ⟨hlast', -, hfront⟩ := alignStarts_ends hgaps.2.1 hmeets hnew halign
          rw [Except.ok.inj hresult, List.forall_mem_append, List.forall_mem_append,
            List.forall_mem_append, List.forall_mem_singleton]
          exact ⟨⟨hgaps.1, hfront, hlast'⟩, hgaps.2.2⟩
      | inside pre post front last last' gapNew' hsplit hpre hmeets halign hend =>
          rw [hsplit, List.forall_mem_append, List.forall_mem_cons] at hgaps
          obtain ⟨hlast', hnew', hfront⟩ := alignStarts_ends hgaps.2.1 hmeets hnew halign
          rw [Except.ok.inj hresult, List.forall_mem_append, List.forall_mem_append,
            List.forall_mem_append, List.forall_mem_cons, List.forall_mem_singleton]
          exact ⟨⟨hgaps.1, hfront, hnew', hlast'⟩, hgaps.2.2⟩
      | beyond pre post front last last' gapNew' hsplit _ _ hpre hmeets halign hend =>
          rw [hsplit, List.forall_mem_append, List.forall_mem_cons] at hgaps
          obtain ⟨hlast', hnew', hfront⟩ := alignStarts_ends hgaps.2.1 hmeets hnew halign
          refine ih ?_ ?_ hresult.symm
          · rw [List.forall_mem_append, List.forall_mem_append, List.forall_mem_append,
              List.forall_mem_singleton]
            exact ⟨⟨hgaps.1, hfront, hlast'⟩, hgaps.2.2⟩
          · exact (adjustGapMemory_times cluster jobs gapNew' last').2.1.le.trans hnew'

/-- `insert_new_gap` of proper gaps, one after the other: the list stays in order
and within the time the gaps end by. -/
theorem foldlM_insertNewGap {cluster : PlanCluster} {jobs : List PlanJob} {t : ℤ}
    {new gaps gaps' : List PlanGap} (hgaps : OrderedGaps gaps) (hends : EndBy t gaps)
    (hnew : ∀ gap ∈ new, gap.Proper) (hnewends : EndBy t new)
    (h : new.foldlM (insertNewGap cluster jobs) gaps = .ok gaps') :
    OrderedGaps gaps' ∧ EndBy t gaps' := by
  refine foldlM_invariant (fun gs => OrderedGaps gs ∧ EndBy t gs) _ new gaps gaps' ?_
    ⟨hgaps, hends⟩ h
  intro gs gap gs' hgap hgs hstep
  unfold insertNewGap at hstep
  exact ⟨insertNewGapAux_ordered _ hgs.1 (hnew gap hgap) (by simp) hstep,
    insertNewGapAux_endBy _ hgs.2 (hnewends gap hgap) hstep⟩

/-! ## The new gaps -/

/-- The nodes of a gap do not touch its times. -/
theorem gapMemoryCreate_times {gap gap' : PlanGap} {cpuIndexes : List ℕ}
    {slots : List FirstFreeSlot} (h : gapMemoryCreate gap cpuIndexes slots = .ok gap') :
    gap'.startTime = gap.startTime ∧ gap'.endTime = gap.endTime ∧
      gap'.duration = gap.duration := by
  unfold gapMemoryCreate at h
  obtain ⟨own, -, h⟩ := bind_ok.mp h
  rw [← pure_ok.mp h]
  exact ⟨rfl, rfl, rfl⟩

/-- The same for all nodes of the cluster. -/
theorem gapMemoryCreateLast_times {cluster : PlanCluster} {gap gap' : PlanGap}
    {slots : List FirstFreeSlot} (h : gapMemoryCreateLast cluster gap slots = .ok gap') :
    gap'.startTime = gap.startTime ∧ gap'.endTime = gap.endTime ∧
      gap'.duration = gap.duration := by
  unfold gapMemoryCreateLast at h
  obtain ⟨counted, -, h⟩ := bind_ok.mp h
  rw [← pure_ok.mp h]
  exact ⟨rfl, rfl, rfl⟩

/-- The gaps in front of a job are proper and end when one of its CPUs, a slot of
the table, becomes free. -/
theorem gapsOfJob_spec {job : PlanJob} {slots : List FirstFreeSlot} (cpus : List ℕ) :
    ∀ {gapStart : ℤ} {gaps : List PlanGap}, ByTime (slotTime slots) cpus →
      (gapStart = -1 ∨ ∀ c ∈ cpus, gapStart ≤ slotTime slots c) →
      gapsOfJob job slots cpus gapStart = .ok gaps →
      ∀ gap ∈ gaps, gap.Proper ∧
        ∃ c ∈ cpus, c < slots.length ∧ gap.endTime = slotTime slots c := by
  induction cpus with
  | nil =>
      intro gapStart gaps _ _ h gap hgap
      rw [gapsOfJob] at h
      cases h
      cases hgap
  | cons c cpus ih =>
      intro gapStart gaps hsorted hstart h gap hgap
      obtain ⟨hhead, htail⟩ := List.pairwise_cons.mp hsorted
      rw [gapsOfJob] at h
      obtain ⟨slot, hslot, h⟩ := bind_ok.mp h
      have htime := slotTime_of_getElem? (getAt_ok.mp hslot)
      dsimp only at h
      -- the CPUs come in the order in which they get free
      have hle : (if gapStart = -1 then slot.time else gapStart) ≤ slot.time := by
        split
        · exact le_rfl
        · next hne =>
            rw [← htime]
            exact (hstart.resolve_left hne) c List.mem_cons_self
      generalize (if gapStart = -1 then slot.time else gapStart) = start at h hle
      split at h
      · next hne =>
          obtain ⟨first, hfirst, h⟩ := bind_ok.mp h
          obtain ⟨others, hothers, h⟩ := bind_ok.mp h
          rw [← pure_ok.mp h] at hgap
          rcases List.mem_cons.mp hgap with rfl | hgap
          · obtain ⟨hs, he, hd⟩ := gapMemoryCreate_times hfirst
            obtain ⟨hlen, -⟩ := List.getElem?_eq_some_iff.mp (getAt_ok.mp hslot)
            refine ⟨⟨?_, ?_⟩, c, List.mem_cons_self, hlen, ?_⟩
            · rw [hs, he]
              exact lt_of_le_of_ne hle hne
            · rw [hs, he, hd]
              rfl
            · rw [he, htime]
              rfl
          · obtain ⟨hproper, d, hd, hend⟩ :=
              ih htail (Or.inr (fun d hd => htime ▸ hhead d hd)) hothers gap hgap
            exact ⟨hproper, d, List.mem_cons_of_mem _ hd, hend⟩
      · obtain ⟨hproper, d, hd, hend⟩ :=
          ih htail (Or.inr (fun d hd => hle.trans (htime ▸ hhead d hd))) h gap hgap
        exact ⟨hproper, d, List.mem_cons_of_mem _ hd, hend⟩

/-- The gaps after the last use of a CPU are proper and end with the plan. -/
theorem gapsBetweenSlots_spec {cluster : PlanCluster} {slots : List FirstFreeSlot}
    {maxCompletionTime : ℤ} (n : ℕ) :
    ∀ {avail : List Bool} {gapStart : ℤ} {gaps : List PlanGap},
      gapsBetweenSlots cluster slots maxCompletionTime n avail gapStart = .ok gaps →
      ∀ gap ∈ gaps, gap.Proper ∧ gap.endTime ≤ maxCompletionTime := by
  induction n with
  | zero =>
      intro avail gapStart gaps h gap hgap
      rw [gapsBetweenSlots] at h
      cases h
      cases hgap
  | succ n ih =>
      intro avail gapStart gaps h gap hgap
      rw [gapsBetweenSlots] at h
      split at h
      · exact ih h gap hgap
      · next c hc =>
          dsimp only at h
          generalize (if gapStart = -1 then slotTime slots c else gapStart) = start at h
          -- a gap is cut off at the end of the plan
          have hclip : (if maxCompletionTime < slotTime slots c then maxCompletionTime
              else slotTime slots c) ≤ maxCompletionTime := by
            split <;> omega
          generalize (if maxCompletionTime < slotTime slots c then maxCompletionTime
            else slotTime slots c) = gapEnd at h hclip
          split at h
          · split at h
            · next hlt =>
                obtain ⟨first, hfirst, h⟩ := bind_ok.mp h
                obtain ⟨others, hothers, h⟩ := bind_ok.mp h
                rw [← pure_ok.mp h] at hgap
                rcases List.mem_cons.mp hgap with rfl | hgap
                · obtain ⟨hs, he, hd⟩ := gapMemoryCreateLast_times hfirst
                  refine ⟨⟨?_, ?_⟩, ?_⟩
                  · rw [hs, he]
                    exact hlt
                  · rw [hs, he, hd]
                    rfl
                  · rw [he]
                    exact hclip
                · exact ih hothers gap hgap
            · exact ih h gap hgap
          · exact ih h gap hgap

end PlanSched
