/-
# The shares of the fairshare trees

Every group has shares among its siblings, and its percentage is the part of its parent's
percentage that they give.  Percentages are computed for the whole tree when it is built
(`calc_fair_share_perc`), and for the groups under `unknown` whenever a group is added there.  The
siblings' shares are added up in an `int`.

* `Shared` is what the computation leaves of a group and its children, whether or not their total
  is an `int`; it is kept by everything that adds a group or changes a usage (`LookedUp.shared`);
* `distributed_iff`: in such a tree the percentages form a distribution exactly when all totals
  are `int`s;
* `percentages_distribute_iff` says this of the resource group file and the names looked up.
-/
import PlanSched.GroupNames

namespace PlanSched.Fairshare

open CheckedRun CText SiblingTree

variable {tree : SiblingTree GroupInfo} {start st : FairshareTree × ℕ}

/-! ## Totals -/

/-- The shares of some siblings. -/
def totalShares (children : List GroupInfo) : ℤ := (children.map GroupInfo.shares).sum

/-- Siblings have shares that are not negative, and not all zero. -/
def PositiveShares (_ : GroupInfo) (children : List GroupInfo) : Prop :=
  (∀ ginfo ∈ children, 0 ≤ ginfo.shares) ∧ (children ≠ [] → 0 < totalShares children)

/-- The total of the siblings is an `int`. -/
def TotalFits (_ : GroupInfo) (children : List GroupInfo) : Prop := totalShares children < 2 ^ 31

/-- The total as an `int`. -/
def intTotal (children : List GroupInfo) : Option ℤ :=
  if totalShares children < 2 ^ 31 then some (totalShares children) else none

/-- A total that fits. -/
theorem intTotal_of_fits {parent : GroupInfo} {children : List GroupInfo}
    (h : TotalFits parent children) : intTotal children = some (totalShares children) := if_pos h

/-- A total that does not. -/
theorem intTotal_of_not {parent : GroupInfo} {children : List GroupInfo}
    (h : ¬ TotalFits parent children) : intTotal children = none := if_neg h

/-- One group more. -/
theorem totalShares_cons (ginfo : GroupInfo) (children : List GroupInfo) :
    totalShares (ginfo :: children) = ginfo.shares + totalShares children := by
  rw [totalShares, List.map_cons, List.sum_cons]
  rfl

/-- The total of shares that are not negative. -/
theorem totalShares_nonneg {children : List GroupInfo}
    (h : ∀ ginfo ∈ children, 0 ≤ ginfo.shares) : 0 ≤ totalShares children := by
  apply List.sum_nonneg
  intro shares hshares
  obtain ⟨ginfo, hginfo, rfl⟩ := List.mem_map.mp hshares
  exact h ginfo hginfo

/-- Siblings with the same shares have the same total. -/
theorem totalShares_congr {children children' : List GroupInfo}
    (h : children.map GroupInfo.entry = children'.map GroupInfo.entry) :
    totalShares children = totalShares children' := by
  have hshares := congrArg (List.map Prod.snd) h
  rw [List.map_map, List.map_map] at hshares
  exact congrArg List.sum hshares

/-- The loop reaches the end if the total is an `int`. -/
theorem sumShares_eq (tree : SiblingTree GroupInfo) :
    ∀ {shares : ℤ}, 0 ≤ shares → shares < 2 ^ 31 → (∀ ginfo ∈ tree.siblings, 0 ≤ ginfo.shares) →
      sumShares shares tree = if shares + totalShares tree.siblings < 2 ^ 31 then
        some (shares + totalShares tree.siblings) else none := by
  induction tree with
  | null =>
      intro shares _ hlt _
      rw [siblings, show totalShares [] = 0 from rfl, add_zero, if_pos hlt]
      rfl
  | node ginfo sibling child ihs ihc =>
      intro shares hle hlt h
      obtain ⟨hfirst, hrest⟩ := List.forall_mem_cons.mp h
      rw [sumShares, siblings, totalShares_cons, ← add_assoc]
      by_cases hsum : shares + ginfo.shares < 2 ^ 31
      · rw [if_pos ⟨by omega, hsum⟩, ihs (by omega) hsum hrest]
      · -- the sums after this one are not smaller
        have hnonneg := totalShares_nonneg hrest
        rw [if_neg (fun hint => hsum hint.2), if_neg (by omega)]

/-- The total of siblings is what the loop counts. -/
theorem countShares_eq (h : ∀ ginfo ∈ tree.siblings, 0 ≤ ginfo.shares) :
    countShares tree = intTotal tree.siblings := by
  rw [countShares, sumShares_eq tree le_rfl (by decide) h, zero_add]
  rfl

/-- It is not the mark of a total that has not been counted. -/
theorem countShares_ne (h : ∀ ginfo ∈ tree.siblings, 0 ≤ ginfo.shares) :
    countShares tree ≠ some rescUnspecified := by
  rw [countShares_eq h]
  unfold intTotal
  split
  · intro hmark
    have hnonneg := totalShares_nonneg h
    rw [Option.some.inj hmark] at hnonneg
    revert hnonneg
    decide
  · simp

/-! ## Percentages -/

/-- Each child has the percentage that its shares of the `int` total give. -/
def Computed (parent : GroupInfo) (children : List GroupInfo) : Prop :=
  ∀ ginfo ∈ children,
    ginfo.percentage = sharePerc ginfo.shares (intTotal children) parent.percentage

/-- Positive shares with the percentages computed from them. -/
def Shared (parent : GroupInfo) (children : List GroupInfo) : Prop :=
  PositiveShares parent children ∧ Computed parent children

/-- Positive shares can be read off the entries. -/
theorem PositiveShares.congr {parent parent' : GroupInfo} {children children' : List GroupInfo}
    (heq : children.map GroupInfo.entry = children'.map GroupInfo.entry)
    (h : PositiveShares parent children) : PositiveShares parent' children' := by
  refine ⟨?_, ?_⟩
  · intro ginfo hginfo
    have hentry : ginfo.entry ∈ children.map GroupInfo.entry := by
      rw [heq]
      exact List.mem_map_of_mem hginfo
    obtain ⟨old, hold, hsame⟩ := List.mem_map.mp hentry
    have hshares : old.shares = ginfo.shares := congrArg Prod.snd hsame
    rw [← hshares]
    exact h.1 old hold
  · intro hne
    rw [← totalShares_congr heq]
    apply h.2
    rintro rfl
    exact hne (List.map_eq_nil_iff.mp heq.symm)

/-- Usages play no part. -/
theorem Shared.unused {parent parent' : GroupInfo} {children children' : List GroupInfo}
    (hparent : parent.unused = parent'.unused)
    (heq : children.map GroupInfo.unused = children'.map GroupInfo.unused)
    (h : Shared parent children) : Shared parent' children' := by
  have hentries : children.map GroupInfo.entry = children'.map GroupInfo.entry := by
    have hlists := congrArg (List.map GroupInfo.entry) heq
    rw [List.map_map, List.map_map] at hlists
    exact hlists
  have hpercentage : parent.percentage = parent'.percentage := by
    have := congrArg GroupInfo.percentage hparent
    exact this
  refine ⟨h.1.congr hentries, ?_⟩
  intro ginfo hginfo
  have hmem : ginfo.unused ∈ children.map GroupInfo.unused := by
    rw [heq]
    exact List.mem_map_of_mem hginfo
  obtain ⟨old, hold, hsame⟩ := List.mem_map.mp hmem
  have hold' : old.percentage = ginfo.percentage ∧ old.shares = ginfo.shares := by
    have hp := congrArg GroupInfo.percentage hsame
    have hs := congrArg GroupInfo.shares hsame
    exact ⟨hp, hs⟩
  rw [← hold'.1, ← hold'.2, h.2 old hold, hpercentage, intTotal, intTotal,
    totalShares_congr hentries]

/-- A chain that starts without a total gets its own. -/
theorem calcFairSharePerc_unspecified (parent : Option ℚ) (tree : SiblingTree GroupInfo) :
    calcFairSharePerc parent tree (some rescUnspecified)
      = calcFairSharePerc parent tree (countShares tree) := by
  cases tree with
  | null => rfl
  | node ginfo sibling child =>
      rw [calcFairSharePerc, calcFairSharePerc, if_pos rfl, ite_self]

/-- The total is handed on along the chain. -/
theorem siblings_calcFairSharePerc (parent : Option ℚ) {total : Option ℤ}
    (h : total ≠ some rescUnspecified) (tree : SiblingTree GroupInfo) :
    (calcFairSharePerc parent tree total).siblings
      = tree.siblings.map (fun ginfo =>
          { ginfo with percentage := sharePerc ginfo.shares total parent }) := by
  induction tree with
  | null => rfl
  | node ginfo sibling child ihs ihc =>
      rw [calcFairSharePerc, if_neg h, siblings, ihs, siblings, List.map_cons]

/-- Siblings get the percentages of their shares. -/
theorem computed_calcFairSharePerc (h : ∀ ginfo ∈ tree.siblings, 0 ≤ ginfo.shares)
    (parent : GroupInfo) :
    Computed parent
      (calcFairSharePerc parent.percentage tree (some rescUnspecified)).siblings := by
  rw [calcFairSharePerc_unspecified, siblings_calcFairSharePerc _ (countShares_ne h)]
  intro ginfo hginfo
  obtain ⟨old, _, rfl⟩ := List.mem_map.mp hginfo
  have htotal : totalShares (tree.siblings.map (fun ginfo =>
      { ginfo with percentage := sharePerc ginfo.shares (countShares tree) parent.percentage }))
        = totalShares tree.siblings := by
    rw [totalShares, List.map_map]
    rfl
  rw [intTotal, htotal, countShares_eq h]
  rfl

/-- So do all families below. -/
theorem everyFamily_calcFairSharePerc (tree : SiblingTree GroupInfo) :
    ∀ (parent : Option ℚ) {total : Option ℤ}, total ≠ some rescUnspecified →
      tree.EveryFamily PositiveShares →
        (calcFairSharePerc parent tree total).EveryFamily Computed := by
  induction tree with
  | null => exact fun _ _ _ _ => trivial
  | node ginfo sibling child ihs ihc =>
      intro parent total htotal h
      obtain ⟨hchildren, hs, hc⟩ := h
      rw [calcFairSharePerc, if_neg htotal]
      refine ⟨?_, ihs parent htotal hs, ?_⟩
      · exact computed_calcFairSharePerc hchildren.1
          { ginfo with percentage := sharePerc ginfo.shares total parent }
      · rw [calcFairSharePerc_unspecified]
        exact ihc _ (countShares_ne hchildren.1) hc

/-- Computing the percentages of a chain of children and of everything below. -/
theorem shared_calcFairSharePerc {parent : GroupInfo} (h : PositiveShares parent tree.siblings)
    (hfamilies : tree.EveryFamily PositiveShares) :
    Shared parent (calcFairSharePerc parent.percentage tree (some rescUnspecified)).siblings ∧
      (calcFairSharePerc parent.percentage tree (some rescUnspecified)).EveryFamily Shared := by
  have hentries := (relabel_entry_core
    (relabel_calcFairSharePerc tree parent.percentage (some rescUnspecified))).symm
  refine ⟨⟨h.congr ?_, computed_calcFairSharePerc h.1 parent⟩, everyFamily_and.mpr ⟨?_, ?_⟩⟩
  · rw [← siblings_relabel, ← siblings_relabel, hentries]
  · exact EveryFamily.of_relabel (fun _ _ _ _ _ heq hpositive => hpositive.congr heq) hentries
      hfamilies
  · rw [calcFairSharePerc_unspecified]
    exact everyFamily_calcFairSharePerc tree _ (countShares_ne h.1) hfamilies

/-- A new group under `unknown`. -/
theorem shared_addUnknown (h : tree.EveryFamily Shared) {ginfo : GroupInfo}
    (hshares : ginfo.shares = 1) : (addUnknown tree ginfo).EveryFamily Shared := by
  unfold addUnknown
  rw [updateChild_addFirst]
  refine h.updateChild fun parent child hfind => ?_
  obtain ⟨hparent, hchild⟩ := h.of_findFamily hfind
  apply shared_calcFairSharePerc
  · refine ⟨?_, fun _ => ?_⟩
    · intro sibling hsibling
      rcases List.mem_cons.mp hsibling with rfl | hsibling
      · rw [hshares]
        exact zero_le_one
      · exact hparent.1.1 sibling hsibling
    · rw [siblings, totalShares_cons, hshares]
      exact add_pos_of_pos_of_nonneg zero_lt_one (totalShares_nonneg hparent.1.1)
  · exact ⟨⟨fun _ hmem => (List.not_mem_nil hmem).elim, fun hne => absurd rfl hne⟩,
      (everyFamily_and.mp hchild).1, trivial⟩

/-! ## The root -/

/-- The tree starts with a node of percentage one that has no siblings. -/
def Rooted (tree : SiblingTree GroupInfo) : Prop :=
  ∃ root child, tree = .node root .null child ∧ root.percentage = some 1

/-- A change below a node keeps the root. -/
theorem Rooted.updateChild (h : Rooted tree) (p : GroupInfo → Bool)
    (change : GroupInfo → SiblingTree GroupInfo → SiblingTree GroupInfo) :
    Rooted (tree.updateChild p change) := by
  obtain ⟨root, child, rfl, hpercentage⟩ := h
  rw [SiblingTree.updateChild]
  split
  · exact ⟨root, _, rfl, hpercentage⟩
  · rw [SiblingTree.find, if_neg (by simp)]
    exact ⟨root, _, rfl, hpercentage⟩

/-- So does a group that is found or added. -/
theorem Rooted.findAlloc (h : Rooted st.1.root) (name : String) :
    Rooted (findAllocGinfo st name).2.1.root := by
  unfold findAllocGinfo
  split
  · exact h
  · show Rooted (addUnknown st.1.root _)
    rw [addUnknown, updateChild_addFirst]
    exact h.updateChild _ _

/-- So do the lines of a file. -/
theorem Rooted.addGroups (lines : List GroupLine) :
    ∀ {st : FairshareTree × ℕ}, Rooted st.1.root → Rooted (lines.foldl addGroup st).1.root := by
  induction lines with
  | nil => exact fun h => h
  | cons line lines ih =>
      intro st h
      refine ih ?_
      show Rooted ((findAllocGinfo st line.parent).2.1.root.addFirst _ _)
      rw [addFirst_eq_updateChild]
      exact (h.findAlloc line.parent).updateChild _ _

/-- So does a change of usages. -/
theorem Rooted.unused {tree' : SiblingTree GroupInfo} (h : Rooted tree)
    (hsame : tree'.relabel GroupInfo.unused = tree.relabel GroupInfo.unused) : Rooted tree' := by
  obtain ⟨root, child, rfl, hpercentage⟩ := h
  cases tree' with
  | null => cases hsame
  | node root' sibling' child' =>
      rw [relabel, relabel, node.injEq] at hsame
      have hone := congrArg GroupInfo.percentage hsame.1
      cases sibling' with
      | null => exact ⟨root', child', rfl, hone.trans hpercentage⟩
      | node _ _ _ => cases hsame.2.1

/-- Look-ups keep the root and the percentages that are computed. -/
theorem LookedUp.shared {lookups : List String} (h : LookedUp start lookups st)
    (hroot : Rooted start.1.root) (hshared : start.1.root.EveryFamily Shared) :
    Rooted st.1.root ∧ st.1.root.EveryFamily Shared := by
  induction h with
  | start => exact ⟨hroot, hshared⟩
  | findAlloc _ name ih =>
      refine ⟨ih.1.findAlloc name, ?_⟩
      unfold findAllocGinfo
      split
      · exact ih.2
      · exact shared_addUnknown ih.2 rfl
  | usages _ hsame ih =>
      exact ⟨ih.1.unused hsame,
        EveryFamily.of_relabel (fun _ _ _ _ => Shared.unused) hsame.symm ih.2⟩

/-! ## Distributions -/

/-- Each child has the part of its parent's percentage that its shares give. -/
def SharesOut (parent : GroupInfo) (children : List GroupInfo) : Prop :=
  ∃ whole : ℚ, parent.percentage = some whole ∧ ∀ ginfo ∈ children,
    ginfo.percentage = some ((ginfo.shares : ℚ) / totalShares children * whole)

/-- The children, if there are any, have their parent's percentage together. -/
def AddsUp (parent : GroupInfo) (children : List GroupInfo) : Prop :=
  children ≠ [] → ∃ parts : List ℚ, children.map GroupInfo.percentage = parts.map some ∧
    parent.percentage = some parts.sum

/-- The percentages form a distribution at every level. -/
structure Distributed (tree : SiblingTree GroupInfo) : Prop where
  root : ∃ root child, tree = .node root .null child ∧ root.percentage = some 1
  sharesOut : tree.EveryFamily SharesOut
  addsUp : tree.EveryFamily AddsUp

/-- Siblings that share out a percentage have it together. -/
theorem SharesOut.addsUp {parent : GroupInfo} {children : List GroupInfo}
    (h : SharesOut parent children) (hpositive : PositiveShares parent children) :
    AddsUp parent children := by
  intro hne
  obtain ⟨whole, hwhole, hparts⟩ := h
  have htotal : (totalShares children : ℚ) ≠ 0 := by
    exact_mod_cast (hpositive.2 hne).ne'
  have hsum : (children.map (fun ginfo : GroupInfo => (ginfo.shares : ℚ))).sum
      = totalShares children := by
    rw [totalShares, Int.cast_list_sum, List.map_map]
    rfl
  refine ⟨children.map (fun ginfo : GroupInfo =>
    (ginfo.shares : ℚ) * ((totalShares children : ℚ)⁻¹ * whole)), ?_, ?_⟩
  · rw [List.map_map]
    refine List.map_congr_left fun ginfo hginfo => ?_
    rw [hparts ginfo hginfo, div_eq_mul_inv, mul_assoc]
    rfl
  · rw [hwhole, List.sum_map_mul_right, hsum, ← mul_assoc, mul_inv_cancel₀ htotal, one_mul]

/-- Siblings with a total that is an `int` share out a percentage. -/
theorem Shared.sharesOut {parent : GroupInfo} {children : List GroupInfo}
    (h : Shared parent children) (hfits : TotalFits parent children) {whole : ℚ}
    (hwhole : parent.percentage = some whole) : SharesOut parent children := by
  refine ⟨whole, hwhole, fun ginfo hginfo => ?_⟩
  have htotal : totalShares children ≠ 0 := (h.1.2 (List.ne_nil_of_mem hginfo)).ne'
  rw [h.2 ginfo hginfo, hwhole, intTotal_of_fits hfits]
  exact if_neg htotal

/-- From the percentages of some siblings all below are determined. -/
theorem sharesOut_of_totalFits (tree : SiblingTree GroupInfo) :
    (∀ ginfo ∈ tree.siblings, ∃ whole, ginfo.percentage = some whole) →
      tree.EveryFamily Shared → tree.EveryFamily TotalFits → tree.EveryFamily SharesOut := by
  induction tree with
  | null => exact fun _ _ _ => trivial
  | node ginfo sibling child ihs ihc =>
      rintro hknown ⟨hshared, hs, hc⟩ ⟨hfits, hfs, hfc⟩
      obtain ⟨⟨whole, hwhole⟩, hrest⟩ := List.forall_mem_cons.mp hknown
      have hout := hshared.sharesOut hfits hwhole
      refine ⟨hout, ihs hrest hs hfs, ihc ?_ hc hfc⟩
      obtain ⟨_, -, hparts⟩ := hout
      exact fun other hother => ⟨_, hparts other hother⟩

/-- In a tree with computed percentages these form a distribution exactly when all totals are
`int`s. -/
theorem distributed_iff (hroot : Rooted tree) (h : tree.EveryFamily Shared) :
    Distributed tree ↔ tree.EveryFamily TotalFits := by
  constructor
  · intro hdistributed
    refine (everyFamily_and.mpr ⟨h, hdistributed.sharesOut⟩).imp ?_
    rintro parent children ⟨hshared, whole, -, hparts⟩
    by_contra hover
    -- without a total no child has a percentage
    cases children with
    | nil => exact hover (show totalShares [] < 2 ^ 31 by decide)
    | cons ginfo rest =>
        have hnone := hshared.2 ginfo List.mem_cons_self
        rw [hparts ginfo List.mem_cons_self, intTotal_of_not hover] at hnone
        cases hnone
  · intro hfits
    obtain ⟨root, child, rfl, hone⟩ := hroot
    have hknown : ∀ ginfo ∈ (node root null child).siblings,
        ∃ whole, ginfo.percentage = some whole := by
      intro ginfo hginfo
      rw [List.mem_singleton.mp hginfo]
      exact ⟨1, hone⟩
    have hout := sharesOut_of_totalFits _ hknown h hfits
    exact ⟨⟨root, child, rfl, hone⟩, hout, (everyFamily_and.mpr ⟨h, hout⟩).imp
      fun _ _ hboth => hboth.2.addsUp hboth.1.1⟩

/-! ## The totals of a tree that grows -/

/-- All totals are `int`s, also when `added` groups come under `unknown`. -/
structure TotalsFit (tree : FairshareTree) (added : ℕ) : Prop where
  families : tree.root.EveryFamily TotalFits
  unknown : ∀ family ∈ tree.root.findFamily (named "unknown"),
    totalShares family.2.siblings + added < 2 ^ 31

/-- The names that are looked up and not in the tree. -/
def newNames (tree : FairshareTree) (lookups : List String) : Finset String :=
  lookups.toFinset.filter (fun name => name ∉ tree.names)

/-- The totals can be read off the entries. -/
theorem TotalsFit.congr {tree tree' : FairshareTree} {added : ℕ}
    (heq : tree.root.relabel GroupInfo.entry = tree'.root.relabel GroupInfo.entry)
    (h : TotalsFit tree added) : TotalsFit tree' added := by
  refine ⟨?_, ?_⟩
  · refine EveryFamily.of_relabel ?_ heq h.families
    intro _ _ children children' _ hchildren hfits
    rw [TotalFits, ← totalShares_congr hchildren]
    exact hfits
  · intro family hfamily
    have hname : ∀ ginfo : GroupInfo,
        decide (ginfo.entry.1 = "unknown") = named "unknown" ginfo := fun _ => rfl
    have hboth := findFamily_relabel (r := fun entry : String × ℤ => decide (entry.1 = "unknown"))
      hname tree'.root
    rw [← heq, findFamily_relabel hname, hfamily, Option.map_some, Option.map_eq_some_iff] at hboth
    obtain ⟨old, hold, hsame⟩ := hboth
    have hchildren := congrArg siblings (congrArg Prod.snd hsame)
    rw [siblings_relabel, siblings_relabel] at hchildren
    rw [← totalShares_congr hchildren]
    exact h.unknown old hold

/-- A new group under `unknown` is one of those to come. -/
theorem totalsFit_addUnknown (tree : FairshareTree) {ginfo : GroupInfo}
    (hshares : ginfo.shares = 1) (added : ℕ) :
    TotalsFit (tree.addUnknown ginfo) added ↔ TotalsFit tree (added + 1) := by
  have hentries : (tree.addUnknown ginfo).root.relabel GroupInfo.entry
      = (tree.addChild "unknown" ginfo).root.relabel GroupInfo.entry :=
    relabel_entry_core (relabel_addUnknown tree.root ginfo)
  refine Iff.trans ⟨TotalsFit.congr hentries, TotalsFit.congr hentries.symm⟩ ?_
  have hroot : (tree.addChild "unknown" ginfo).root
      = tree.root.updateChild (named "unknown") (fun _ child => node ginfo child null) :=
    addFirst_eq_updateChild tree.root
  have htotal : ∀ child : SiblingTree GroupInfo,
      totalShares (node ginfo child null).siblings = 1 + totalShares child.siblings := by
    intro child
    rw [siblings, totalShares_cons, hshares]
  constructor
  · rintro ⟨hfamilies, hunknown⟩
    rw [hroot] at hfamilies
    refine ⟨hfamilies.of_updateChild ?_, ?_⟩
    · intro parent child hfits hbelow
      rw [TotalFits, htotal] at hfits
      exact ⟨show totalShares child.siblings < 2 ^ 31 by omega, hbelow.2.1⟩
    · intro family hfamily
      rw [hroot, findFamily_updateChild, Option.mem_def.mp hfamily] at hunknown
      have hlt := hunknown _ rfl
      rw [htotal] at hlt
      push_cast
      omega
  · rintro ⟨hfamilies, hunknown⟩
    refine ⟨?_, ?_⟩
    · rw [hroot]
      refine hfamilies.updateChild fun parent child hfind => ?_
      have hlt := hunknown _ hfind
      push_cast at hlt
      refine ⟨?_, show totalShares [] < 2 ^ 31 by decide, (hfamilies.of_findFamily hfind).2,
        trivial⟩
      rw [TotalFits, htotal]
      omega
    · intro family hfamily
      rw [hroot, findFamily_updateChild, Option.mem_def, Option.map_eq_some_iff] at hfamily
      obtain ⟨old, hold, rfl⟩ := hfamily
      have hlt := hunknown old hold
      rw [htotal]
      push_cast at hlt
      omega

/-- One look-up more. -/
theorem card_newNames_concat {lookups : List String} (h : LookedUp start lookups st)
    (name : String) :
    (newNames start.1 (lookups ++ [name])).card
      = (newNames start.1 lookups).card + if name ∈ st.1.names then 0 else 1 := by
  have hset : newNames start.1 (lookups ++ [name])
      = if name ∈ st.1.names then newNames start.1 lookups
        else insert name (newNames start.1 lookups) := by
    ext other
    have hname := h.mem_names name
    simp only [newNames, Finset.mem_filter, List.mem_toFinset, List.mem_append,
      List.mem_singleton]
    split <;> simp only [Finset.mem_insert, Finset.mem_filter, List.mem_toFinset] <;> grind
  rw [hset]
  split
  · rw [add_zero]
  · next hnew =>
      refine Finset.card_insert_of_notMem ?_
      intro hmem
      rw [newNames, Finset.mem_filter, List.mem_toFinset] at hmem
      exact hnew ((h.mem_names name).mpr (Or.inl hmem.1))

/-- The totals after some look-ups. -/
theorem LookedUp.totalsFit_iff {lookups : List String} (h : LookedUp start lookups st) :
    ∀ added : ℕ, TotalsFit st.1 added
      ↔ TotalsFit start.1 (added + (newNames start.1 lookups).card) := by
  induction h with
  | start => exact fun added => Iff.rfl
  | @findAlloc lookups st hlooked name ih =>
      intro added
      rw [card_newNames_concat hlooked]
      by_cases hname : name ∈ st.1.names
      · obtain ⟨ginfo, hfind⟩ := Option.isSome_iff_exists.mp (findGinfo_isSome.mpr hname)
        rw [if_pos hname, add_zero, ← ih]
        unfold findAllocGinfo
        rw [hfind]
      · have hfind : st.1.findGinfo name = none := by
          rwa [← findGinfo_isSome, Bool.not_eq_true, Option.isSome_eq_false_iff,
            Option.isNone_iff_eq_none] at hname
        rw [if_neg hname, ← add_assoc, add_right_comm, ← ih]
        unfold findAllocGinfo
        rw [hfind]
        exact totalsFit_addUnknown st.1 rfl added
  | usages _ hsame ih =>
      intro added
      rw [← ih]
      have hentries := relabel_entry_unused hsame
      exact ⟨TotalsFit.congr hentries, TotalsFit.congr hentries.symm⟩

/-! ## From the file -/

/-- With a resource group file that is accepted and gives positive shares to all siblings, a tree is
built, and after any look-ups its percentages form a distribution at every level exactly when the
totals of all siblings are `int`s, with one share under `unknown` for each new name. -/
theorem percentages_distribute_iff {unknownShares : ℤ} {files : TreeFiles} {next : ℕ}
    {configured : FairshareTree × ℕ}
    (hread : readConfiguration files (initFairshareRoot unknownShares next) = .ok configured)
    (hpositive : configured.1.root.EveryFamily PositiveShares) :
    ∃ built, buildTree unknownShares files next = .ok built ∧ ∀ names : List String,
      (Distributed (names.foldl (fun st name => (findAllocGinfo st name).2) built).1.root
        ↔ TotalsFit configured.1 (newNames configured.1 (usageNames files ++ names)).card) := by
  refine ⟨readUsage files (configured.1.calcPercentages, configured.2), ?_, fun names => ?_⟩
  · unfold buildTree
    rw [hread]
    rfl
  · have hrooted : Rooted configured.1.root := by
      rw [readConfiguration_eq hread]
      exact Rooted.addGroups _ ⟨_, _, rfl, rfl⟩
    obtain ⟨root, child, htree, hone⟩ := hrooted
    have hcalc : configured.1.calcPercentages.root
        = .node root .null (calcFairSharePerc root.percentage child (some rescUnspecified)) := by
      show calcRootPerc configured.1.root = _
      rw [htree]
      rfl
    rw [htree] at hpositive
    have hchildren := shared_calcFairSharePerc hpositive.1 hpositive.2.2
    have hroot : Rooted configured.1.calcPercentages.root := ⟨root, _, hcalc, hone⟩
    have hshared : configured.1.calcPercentages.root.EveryFamily Shared := by
      rw [hcalc]
      exact ⟨hchildren.1, trivial, hchildren.2⟩
    -- the groups that `read_usage` adds, and then those of the look-ups
    have hlooked := (readUsage_lookedUp files
      (configured.1.calcPercentages, configured.2)).trans (findAllocs_lookedUp names _)
    obtain ⟨hroot', hshared'⟩ := hlooked.shared hroot hshared
    have hfits := hlooked.totalsFit_iff 0
    rw [zero_add] at hfits
    have hentries := relabel_entry_core (relabel_calcRootPerc configured.1.root)
    have hnames : newNames configured.1.calcPercentages (usageNames files ++ names)
        = newNames configured.1 (usageNames files ++ names) := by
      rw [newNames, names_calcPercentages, newNames]
    rw [hnames] at hfits
    rw [distributed_iff hroot' hshared']
    constructor
    · intro hfamilies
      refine TotalsFit.congr hentries (hfits.mp ⟨hfamilies, ?_⟩)
      intro family hfamily
      have hunknown : totalShares family.2.siblings < 2 ^ 31 := (hfamilies.of_findFamily hfamily).1
      simpa using hunknown
    · exact fun h => (hfits.mpr (TotalsFit.congr hentries.symm h)).families

/-- The tree of the department has positive shares, and its percentages are a distribution, also
with accounts that the file does not have. -/
theorem percentages_distribute_department :
    ∃ built, buildTree 10 departmentFiles 0 = .ok built ∧
      Distributed (["dora", "anna"].foldl (fun st name => (findAllocGinfo st name).2)
        built).1.root := by
  have hpositive : departmentTree.root.EveryFamily PositiveShares := by
    simp [departmentTree, EveryFamily, siblings, PositiveShares, totalShares]
  obtain ⟨built, hbuild, hiff⟩ :=
    percentages_distribute_iff readConfiguration_department hpositive
  refine ⟨built, hbuild, (hiff ["dora", "anna"]).mpr ⟨?_, ?_⟩⟩
  · simp [departmentTree, EveryFamily, siblings, TotalFits, totalShares]
  · intro family hfamily
    rw [show departmentTree.root.findFamily (named "unknown")
      = some (⟨1, "unknown", 10, some 0, 1, 1⟩, null) from rfl, Option.mem_some_iff] at hfamily
    rw [← hfamily]
    decide +kernel

/-- A file that gives two departments two thousand million shares each. -/
def largeFiles : TreeFiles where
  resourceGroup := some "physics 10 root 2000000000\nchemistry 11 root 2000000000\n".toList
  ini := none
  usage := none

/-- The tree of that file. -/
def largeTree : FairshareTree where
  root := .node ⟨0, "root", -1, some 1, 1, 1⟩ .null
    (.node ⟨3, "chemistry", 2000000000, some 0, 1, 1⟩
      (.node ⟨2, "physics", 2000000000, some 0, 1, 1⟩
        (.node ⟨1, "unknown", 10, some 0, 1, 1⟩ .null .null) .null) .null)
  hasUnknown := rfl

/-- Its shares are positive, but together they are no `int`, and no group has a percentage. -/
theorem large_shares_overflow :
    readConfiguration largeFiles (initFairshareRoot 10 0) = .ok (largeTree, 4) ∧
      largeTree.root.EveryFamily PositiveShares ∧
      ∃ built, buildTree 10 largeFiles 0 = .ok built ∧ ¬ Distributed built.1.root := by
  refine ⟨rfl, ?_, (largeTree.calcPercentages, 4), rfl, ?_⟩
  · simp [largeTree, EveryFamily, siblings, PositiveShares, totalShares]
  · intro hdistributed
    obtain ⟨whole, -, hparts⟩ := hdistributed.sharesOut.1
    have hnone : ∃ ginfo ∈ (calcFairSharePerc (some 1)
        (.node ⟨3, "chemistry", 2000000000, some 0, 1, 1⟩
          (.node ⟨2, "physics", 2000000000, some 0, 1, 1⟩
            (.node ⟨1, "unknown", 10, some 0, 1, 1⟩ .null .null) .null) .null)
        (some rescUnspecified)).siblings, ginfo.percentage = none := by decide +kernel
    obtain ⟨ginfo, hginfo, hpercentage⟩ := hnone
    rw [hparts ginfo hginfo] at hpercentage
    cases hpercentage

end PlanSched.Fairshare
