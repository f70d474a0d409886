/-
# Every group at its own address

The records of the last cycle point to the groups of the fairshare trees by address, so
what is charged to whom rests on the addresses being different.  A group enters a tree
at an address that was never used before (`newGroupInfo` with the next address), and
neither a look-up nor a cycle moves one: `World.Sound` is kept, and a look-up only adds
groups (`lookupGinfo_grows`).
-/
import PlanSched.TempUsage

namespace PlanSched.Fairshare

open CheckedRun

/-! ## One tree -/

/-- The addresses of the groups of a tree. -/
def FairshareTree.addrs (tree : FairshareTree) : List ℕ := tree.root.toList.map GroupInfo.addr

/-- Between `st` and `st'` groups came to a tree at addresses that were next. -/
def Grows (st st' : FairshareTree × ℕ) : Prop :=
  st.2 ≤ st'.2 ∧ ∃ added : List ℕ, st'.1.addrs.Perm (added ++ st.1.addrs) ∧ added.Nodup ∧
    ∀ a ∈ added, st.2 ≤ a ∧ a < st'.2

/-- Nothing came. -/
theorem Grows.of_addrs_eq {tree tree' : FairshareTree} (n : ℕ) (h : tree'.addrs = tree.addrs) :
    Grows (tree, n) (tree', n) :=
  ⟨le_rfl, [], by rw [List.nil_append, h], List.nodup_nil, by simp⟩

/-- Additions follow one another. -/
theorem Grows.trans {st st' st'' : FairshareTree × ℕ} (h : Grows st st') (h' : Grows st' st'') :
    Grows st st'' := by
  obtain ⟨hle, added, hperm, hnodup, hrange⟩ := h
  obtain ⟨hle', added', hperm', hnodup', hrange'⟩ := h'
  refine ⟨hle.trans hle', added' ++ added, ?_, ?_, ?_⟩
  · rw [List.append_assoc]
    exact hperm'.trans (hperm.append_left added')
  · refine List.Nodup.append hnodup' hnodup ?_
    intro a ha' ha
    exact absurd (hrange a ha).2 (not_lt.mpr (hrange' a ha').1)
  · intro a ha
    rcases List.mem_append.mp ha with ha | ha
    · exact ⟨hle.trans (hrange' a ha).1, (hrange' a ha).2⟩
    · exact ⟨(hrange a ha).1, (hrange a ha).2.trans_le hle'⟩

/-- A new child comes to the groups of its tree, if its parent is there. -/
theorem addChild_perm {tree : FairshareTree} {parent : String}
    (h : (tree.findGinfo parent).isSome) (ginfo : GroupInfo) :
    (tree.addChild parent ginfo).root.toList.Perm (ginfo :: tree.root.toList) := by
  show (tree.root.addFirst (named parent) ginfo).toList.Perm _
  rw [SiblingTree.addFirst_eq_updateChild]
  have hchange : ∀ (_ : GroupInfo) (child : SiblingTree GroupInfo),
      ((SiblingTree.node ginfo child .null).toList.map id).Perm
        ([ginfo] ++ child.toList.map id) := by
    simp [SiblingTree.toList]
  simpa using SiblingTree.perm_updateChild (id : GroupInfo → GroupInfo) [ginfo] hchange h

/-- A new child at the next address. -/
theorem grows_addChild {tree : FairshareTree} {parent : String} (n : ℕ) (name : String)
    (shares : ℤ) (h : (tree.findGinfo parent).isSome) :
    Grows (tree, n) (tree.addChild parent (newGroupInfo n name shares), n + 1) := by
  refine ⟨Nat.le_succ n, [n], (addChild_perm h _).map GroupInfo.addr, List.nodup_singleton n, ?_⟩
  intro a ha
  obtain rfl := List.mem_singleton.mp ha
  exact ⟨le_rfl, Nat.lt_succ_self a⟩

/-- Computing percentages moves no group. -/
theorem addrs_core {tree tree' : FairshareTree}
    (h : tree'.root.relabel GroupInfo.core = tree.root.relabel GroupInfo.core) :
    tree'.addrs = tree.addrs := by
  have haddrs : ∀ tree : FairshareTree,
      tree.addrs = (tree.root.relabel GroupInfo.core).toList.map GroupInfo.addr := by
    intro tree
    rw [SiblingTree.toList_relabel, List.map_map]
    rfl
  rw [haddrs, haddrs, h]

/-- `find_alloc_ginfo` adds at most one group. -/
theorem grows_findAllocGinfo (st : FairshareTree × ℕ) (name : String) :
    Grows st (findAllocGinfo st name).2 := by
  unfold findAllocGinfo
  split
  · exact Grows.of_addrs_eq st.2 rfl
  · exact (grows_addChild st.2 name 1 st.1.hasUnknown).trans
      (Grows.of_addrs_eq (st.2 + 1) (addrs_core (relabel_addUnknown st.1.root _)))

/-- The group that is looked for is there afterwards. -/
theorem findAllocGinfo_isSome (st : FairshareTree × ℕ) (name : String) :
    ((findAllocGinfo st name).2.1.findGinfo name).isSome := by
  rw [find_findAllocGinfo]
  rfl

/-- Setting a usage moves no group. -/
theorem addrs_setUsage (tree : FairshareTree) (name : String) (usage : ℤ) :
    (tree.setUsage name usage).addrs = tree.addrs := by
  unfold FairshareTree.addrs
  rw [← SiblingTree.toList_relabel, ← SiblingTree.toList_relabel]
  exact congrArg SiblingTree.toList (SiblingTree.relabel_modifyFirst
    (f := fun ginfo : GroupInfo => { ginfo with usage := usage, tempUsage := usage })
    (g := GroupInfo.addr) (fun _ => rfl) tree.root)

/-- A line of the resource group file adds groups. -/
theorem grows_readConfigurationLine {st st' : FairshareTree × ℕ} {line : List Char}
    (h : readConfigurationLine st line = .ok st') : Grows st st' := by
  rcases (readConfigurationLine_cases h).2 with rfl | ⟨parent, name, shares, rfl⟩
  · exact Grows.of_addrs_eq _ rfl
  · exact (grows_findAllocGinfo st parent).trans
      (grows_addChild _ name shares (findAllocGinfo_isSome st parent))

/-- So does a recorded usage. -/
theorem grows_readEntry (st : FairshareTree × ℕ) (entry : String × ℤ) :
    Grows st (readEntry st entry) := by
  unfold readEntry
  exact (grows_findAllocGinfo st entry.1).trans (Grows.of_addrs_eq _ (addrs_setUsage _ _ _))

/-- So do all of them. -/
theorem grows_readUsage (files : TreeFiles) (st : FairshareTree × ℕ) :
    Grows st (readUsage files st) := by
  have hold : ∀ (entries : List (String × ℤ)) (st : FairshareTree × ℕ),
      Grows st (entries.foldl readEntry st) := by
    intro entries
    induction entries with
    | nil => exact fun st => Grows.of_addrs_eq st.2 rfl
    | cons entry rest ih => exact fun st => (grows_readEntry st entry).trans (ih _)
  have hini : ∀ (entries : List (String × Option ℤ)) (st : FairshareTree × ℕ),
      Grows st (readIni st entries).1 := by
    intro entries
    induction entries with
    | nil => exact fun st => Grows.of_addrs_eq st.2 rfl
    | cons entry rest ih =>
        intro st
        obtain ⟨name, usage⟩ := entry
        cases usage with
        | none => exact grows_findAllocGinfo st name
        | some usage => exact (grows_readEntry st (name, usage)).trans (ih _)
  unfold readUsage
  split
  · exact hold _ st
  · next entries _ =>
      dsimp only
      split
      · exact hini entries st
      · exact (hini entries st).trans (hold _ _)

/-- A tree that is built has its groups at new addresses. -/
theorem buildTree_addrs {unknownShares : ℤ} {files : TreeFiles} {next n : ℕ}
    {tree : FairshareTree} (h : buildTree unknownShares files next = .ok (tree, n)) :
    tree.addrs.Nodup ∧ next ≤ n ∧ ∀ a ∈ tree.addrs, next ≤ a ∧ a < n := by
  obtain ⟨text, st, -, hlines, hread⟩ := buildTree_ok.mp h
  have hlines' : ∀ (lines : List (List Char)) {st st' : FairshareTree × ℕ},
      lines.foldlM readConfigurationLine st = .ok st' → Grows st st' := by
    intro lines
    induction lines with
    | nil =>
        intro st st' h
        cases h
        exact Grows.of_addrs_eq _ rfl
    | cons line rest ih =>
        intro st st' h
        rw [List.foldlM_cons] at h
        cases hline : readConfigurationLine st line with
        | error failure =>
            rw [hline] at h
            cases h
        | ok st₁ =>
            rw [hline] at h
            exact (grows_readConfigurationLine hline).trans (ih h)
  have hcalc : Grows st (st.1.calcPercentages, st.2) :=
    Grows.of_addrs_eq st.2 (addrs_core (relabel_calcRootPerc st.1.root))
  have hgrows := ((hlines' _ hlines).trans hcalc).trans (grows_readUsage files _)
  rw [hread] at hgrows
  obtain ⟨hle, added, hperm, hnodup, hrange⟩ := hgrows
  have hroot : (initFairshareRoot unknownShares next).1.addrs = [next, next + 1] := rfl
  have hnext : (initFairshareRoot unknownShares next).2 = next + 2 := rfl
  rw [hroot] at hperm
  rw [hnext] at hle hrange
  refine ⟨hperm.nodup_iff.mpr ?_, by omega, ?_⟩
  · refine List.Nodup.append hnodup (by simp) ?_
    intro a ha hinit
    have := (hrange a ha).1
    simp only [List.mem_cons, List.not_mem_nil, or_false] at hinit
    omega
  · intro a ha
    rcases List.mem_append.mp (hperm.mem_iff.mp ha) with ha | ha
    · exact ⟨by have := (hrange a ha).1; omega, (hrange a ha).2⟩
    · simp only [List.mem_cons, List.not_mem_nil, or_false] at ha
      omega

/-! ## All trees -/

/-- Each tree has its name to itself, and each group its address, which was given out. -/
structure World.Sound (world : World) : Prop where
  names : (world.trees.map Prod.fst).Nodup
  placed : world.Placed
  below : ∀ ginfo ∈ world.groups, ginfo.addr < world.next

/-- The groups of all trees without their percentages. -/
def World.cores (world : World) : List GroupInfo := world.groups.map GroupInfo.core

/-- Groups came to a world at addresses that were next, and nothing else but percentages changed. -/
structure World.GrowsTo (world world' : World) : Prop where
  next_le : world.next ≤ world'.next
  added : ∃ added : List GroupInfo, world'.cores.Perm (added ++ world.cores) ∧
    (added.map GroupInfo.addr).Nodup ∧
      ∀ ginfo ∈ added, world.next ≤ ginfo.addr ∧ ginfo.addr < world'.next
  names : (world.trees.map Prod.fst).Nodup → (world'.trees.map Prod.fst).Nodup
  lastRunning : world'.lastRunning = world.lastRunning
  lastDecay : world'.lastDecay = world.lastDecay

/-- Additions follow one another. -/
theorem World.GrowsTo.trans {world world' world'' : World} (h : world.GrowsTo world')
    (h' : world'.GrowsTo world'') : world.GrowsTo world'' := by
  obtain ⟨added, hperm, hnodup, hrange⟩ := h.added
  obtain ⟨added', hperm', hnodup', hrange'⟩ := h'.added
  refine ⟨h.next_le.trans h'.next_le, ⟨added' ++ added, ?_, ?_, ?_⟩,
    fun hnames => h'.names (h.names hnames), h'.lastRunning.trans h.lastRunning,
    h'.lastDecay.trans h.lastDecay⟩
  · rw [List.append_assoc]
    exact hperm'.trans (hperm.append_left added')
  · rw [List.map_append]
    refine List.Nodup.append hnodup' hnodup ?_
    intro a ha' ha
    obtain ⟨ginfo', hginfo', rfl⟩ := List.mem_map.mp ha'
    obtain ⟨ginfo, hginfo, heq⟩ := List.mem_map.mp ha
    have hold := (hrange ginfo hginfo).2
    have hnew := (hrange' ginfo' hginfo').1
    omega
  · intro ginfo hginfo
    rcases List.mem_append.mp hginfo with hginfo | hginfo
    · exact ⟨h.next_le.trans (hrange' ginfo hginfo).1, (hrange' ginfo hginfo).2⟩
    · exact ⟨(hrange ginfo hginfo).1, (hrange ginfo hginfo).2.trans_le h'.next_le⟩

/-- Nothing came. -/
theorem World.GrowsTo.refl (world : World) : world.GrowsTo world :=
  ⟨le_rfl, ⟨[], List.Perm.refl _, List.nodup_nil, by simp⟩, id, rfl, rfl⟩

/-- A group of a world that grew came at an address that was next, or was there before. -/
theorem World.GrowsTo.came {world world' : World} (h : world.GrowsTo world') {ginfo : GroupInfo}
    (hmem : ginfo ∈ world'.groups) :
    (world.next ≤ ginfo.addr ∧ ginfo.addr < world'.next) ∨
      ∃ old ∈ world.groups, old.core = ginfo.core := by
  obtain ⟨added, hperm, -, hrange⟩ := h.added
  rcases List.mem_append.mp (hperm.mem_iff.mp (List.mem_map_of_mem hmem)) with hnew | hold
  · have hnext := hrange ginfo.core hnew
    exact Or.inl hnext
  · exact Or.inr (List.mem_map.mp hold)

/-- The groups stay. -/
theorem World.GrowsTo.kept {world world' : World} (h : world.GrowsTo world') {ginfo : GroupInfo}
    (hmem : ginfo ∈ world.groups) : ∃ later ∈ world'.groups, later.core = ginfo.core := by
  obtain ⟨added, hperm, -⟩ := h.added
  have hlater := hperm.mem_iff.mpr (List.mem_append_right added (List.mem_map_of_mem hmem))
  exact List.mem_map.mp hlater

/-- The addresses of all groups. -/
theorem World.map_addr_cores (world : World) :
    world.cores.map GroupInfo.addr = world.groups.map GroupInfo.addr := by
  rw [World.cores, List.map_map]
  rfl

/-- A world that only grew is sound. -/
theorem World.Sound.grown {world world' : World} (h : world.Sound) (hgrows : world.GrowsTo world') :
    world'.Sound := by
  refine ⟨hgrows.names h.names, ?_, ?_⟩
  · obtain ⟨added, hperm, hnodup, hrange⟩ := hgrows.added
    unfold World.Placed
    rw [← World.map_addr_cores, (hperm.map GroupInfo.addr).nodup_iff, List.map_append,
      World.map_addr_cores]
    refine List.Nodup.append hnodup h.placed ?_
    intro a hnew hold
    obtain ⟨ginfo', hginfo', rfl⟩ := List.mem_map.mp hnew
    obtain ⟨ginfo, hginfo, heq⟩ := List.mem_map.mp hold
    have := h.below ginfo hginfo
    have := (hrange ginfo' hginfo').1
    omega
  · intro ginfo hginfo
    rcases hgrows.came hginfo with hnew | ⟨old, hold, hcore⟩
    · exact hnew.2
    · rw [← addr_of_core hcore]
      exact (h.below old hold).trans_le hgrows.next_le

/-- Storing a tree with more groups adds these to the groups. -/
theorem setTree_groups {world : World} {name : String} {tree tree' : FairshareTree}
    (hnames : (world.trees.map Prod.fst).Nodup) (hlive : world.trees.lookup name = some tree)
    {added : List GroupInfo} (hperm : (tree'.root.toList.map GroupInfo.core).Perm
      (added ++ tree.root.toList.map GroupInfo.core)) :
    (world.setTree name tree').cores.Perm (added ++ world.cores) := by
  unfold World.setTree World.cores World.groups
  rw [List.map_flatMap, List.map_flatMap]
  dsimp only
  generalize world.trees = trees at hnames hlive
  induction trees with
  | nil => cases hlive
  | cons entry rest ih =>
      obtain ⟨hfresh, hrest⟩ := List.nodup_cons.mp hnames
      rw [List.map_cons, List.flatMap_cons, List.flatMap_cons]
      rw [List.lookup_cons] at hlive
      by_cases hname : entry.1 = name
      · -- the other trees have other names
        rw [beq_iff_eq.mpr hname.symm] at hlive
        cases hlive
        have hsame : rest.map (fun entry => if entry.1 = name then (name, tree') else entry)
            = rest := by
          rw [List.map_congr_left (g := id), List.map_id]
          intro other hother
          refine if_neg fun heq => hfresh ?_
          rw [hname, ← heq]
          exact List.mem_map_of_mem hother
        rw [if_pos hname, hsame, ← List.append_assoc]
        exact hperm.append_right _
      · rw [beq_eq_false_iff_ne.mpr (Ne.symm hname)] at hlive
        rw [if_neg hname]
        refine ((ih hrest hlive).append_left _).trans ?_
        rw [← List.append_assoc, ← List.append_assoc]
        exact List.perm_append_comm.append_right _

/-- `get_tree` adds the groups of a tree it builds. -/
theorem getTree_grows {world world' : World} {name : String} {tree : FairshareTree}
    (h : world.getTree name = .ok (tree, world')) : world.GrowsTo world' := by
  unfold World.getTree at h
  split at h
  · cases h
    exact World.GrowsTo.refl world
  · next hnone =>
      cases hbuild : buildTree world.unknownShares (world.files name) world.next with
      | error failure =>
          rw [hbuild] at h
          cases h
      | ok built =>
          obtain ⟨built, n⟩ := built
          rw [hbuild] at h
          cases h
          obtain ⟨hnodup, hle, hrange⟩ := buildTree_addrs hbuild
          refine ⟨hle, ⟨tree.root.toList.map GroupInfo.core, ?_, ?_, ?_⟩, ?_, rfl, rfl⟩
          · exact List.Perm.of_eq List.map_append
          · rw [List.map_map]
            exact hnodup
          · intro ginfo hginfo
            obtain ⟨node, hnode, rfl⟩ := List.mem_map.mp hginfo
            exact hrange node.addr (List.mem_map_of_mem hnode)
          · intro hnames
            refine List.nodup_cons.mpr ⟨?_, hnames⟩
            intro hmem
            obtain ⟨entry, hentry, heq⟩ := List.mem_map.mp hmem
            rw [List.lookup_eq_none_iff] at hnone
            have := hnone entry hentry
            simp [heq] at this

/-- **A look-up adds groups and changes none.** -/
theorem lookupGinfo_grows {world world' : World} {treeName account : String} {ginfo : GroupInfo}
    (hsound : world.Sound) (h : world.lookupGinfo treeName account = .ok (ginfo, world')) :
    world.GrowsTo world' ∧ ginfo ∈ world'.groups := by
  unfold World.lookupGinfo at h
  cases hget : world.getTree treeName with
  | error failure =>
      rw [hget] at h
      cases h
  | ok got =>
      obtain ⟨tree, world₁⟩ := got
      rw [hget] at h
      have hgrows := getTree_grows hget
      have hlive := (getTree_cases hget).2.1
      have hnames := hgrows.names hsound.names
      cases h
      have hfound := find_findAllocGinfo (tree, world₁.next) account
      obtain ⟨added, hperm, hnodup, hrange⟩ :
          ∃ added : List GroupInfo,
            ((findAllocGinfo (tree, world₁.next) account).2.1.root.toList.map GroupInfo.core).Perm
              (added ++ tree.root.toList.map GroupInfo.core) ∧ (added.map GroupInfo.addr).Nodup ∧
            ∀ ginfo ∈ added, world₁.next ≤ ginfo.addr ∧
              ginfo.addr < (findAllocGinfo (tree, world₁.next) account).2.2 := by
        unfold findAllocGinfo
        split
        · exact ⟨[], List.Perm.refl _, List.nodup_nil, by simp⟩
        · refine ⟨[(newGroupInfo world₁.next account 1).core], ?_, List.nodup_singleton _,
            by simp [newGroupInfo, GroupInfo.core]⟩
          -- the percentages of the new group's siblings do not count
          have hlists := congrArg SiblingTree.toList
            (relabel_addUnknown tree.root (newGroupInfo world₁.next account 1))
          rw [SiblingTree.toList_relabel, SiblingTree.toList_relabel] at hlists
          refine (List.Perm.of_eq hlists).trans ?_
          exact (addChild_perm tree.hasUnknown _).map GroupInfo.core
      have hle := (grows_findAllocGinfo (tree, world₁.next) account).1
      constructor
      · refine hgrows.trans ⟨hle, ⟨added, setTree_groups hnames hlive hperm, hnodup, hrange⟩,
          fun hnames => ?_, rfl, rfl⟩
        unfold World.setTree
        rw [List.map_map, List.map_congr_left (g := Prod.fst)]
        · exact hnames
        · intro entry _
          show (if entry.1 = treeName then _ else entry).1 = entry.1
          split
          · next heq => exact heq.symm
          · rfl
      · -- the node is in the tree that has been stored
        have hstored := lookup_setTree_self (by rw [hlive]; rfl)
          (findAllocGinfo (tree, world₁.next) account).2.1
        obtain ⟨front, behind, htrees, -⟩ := List.lookup_eq_some_iff.mp hstored
        refine List.mem_flatMap.mpr
          ⟨(treeName, (findAllocGinfo (tree, world₁.next) account).2.1), ?_,
            SiblingTree.mem_of_find hfound⟩
        show _ ∈ (world₁.setTree treeName (findAllocGinfo (tree, world₁.next) account).2.1).trees
        rw [htrees]
        simp

/-! ## What moves no group -/

/-- The trees, their groups and the next address are the same. -/
structure World.SameGroups (world world' : World) : Prop where
  next_eq : world'.next = world.next
  names_eq : world'.trees.map Prod.fst = world.trees.map Prod.fst
  addrs_eq : world'.groups.map GroupInfo.addr = world.groups.map GroupInfo.addr

/-- They stay the same. -/
theorem World.SameGroups.trans {world world' world'' : World} (h : world.SameGroups world')
    (h' : world'.SameGroups world'') : world.SameGroups world'' :=
  ⟨h'.next_eq.trans h.next_eq, h'.names_eq.trans h.names_eq, h'.addrs_eq.trans h.addrs_eq⟩

/-- Such a world is as sound. -/
theorem World.Sound.same {world world' : World} (h : world.Sound)
    (hsame : world.SameGroups world') : world'.Sound := by
  refine ⟨hsame.names_eq ▸ h.names, ?_, ?_⟩
  · unfold World.Placed
    rw [hsame.addrs_eq]
    exact h.placed
  · intro ginfo hginfo
    have hmem := List.mem_map_of_mem (f := GroupInfo.addr) hginfo
    rw [hsame.addrs_eq] at hmem
    obtain ⟨old, hold, heq⟩ := List.mem_map.mp hmem
    rw [← heq, hsame.next_eq]
    exact h.below old hold

/-- Writing usages moves no group. -/
theorem setUsageAt_sameGroups {world world' : World} {addr : ℕ} {f : GroupInfo → ℤ × ℤ}
    (h : world.setUsageAt addr f = .ok world') : world.SameGroups world' := by
  have hgroups := (setUsageAt_groups h).1
  unfold World.setUsageAt at h
  split at h
  · cases h
    refine ⟨rfl, List.map_map, ?_⟩
    rw [hgroups, List.map_map]
    refine List.map_congr_left fun ginfo _ => ?_
    show (if ginfo.addr = addr then _ else ginfo).addr = ginfo.addr
    split
    · rfl
    · rfl
  · cases h

/-- Nor does charging a record. -/
theorem chargeJob_sameGroups {jobs : List CycleJob} {world world' : World} {record : PrevJobInfo}
    (h : chargeJob jobs world record = .ok world') : world.SameGroups world' := by
  unfold chargeJob at h
  dsimp only at h
  split at h
  · cases h
    exact ⟨rfl, rfl, rfl⟩
  · split at h
    · cases h
    · obtain ⟨usage, -, h⟩ := bind_ok.mp h
      exact setUsageAt_sameGroups h

/-- Nor does a loop over the records. -/
theorem foldlM_sameGroups {f : World → PrevJobInfo → Except Failure World}
    (hstep : ∀ world record world', f world record = .ok world' → world.SameGroups world')
    (records : List PrevJobInfo) :
    ∀ {world world' : World}, records.foldlM f world = .ok world' → world.SameGroups world' := by
  induction records with
  | nil =>
      intro world world' h
      cases h
      exact ⟨rfl, rfl, rfl⟩
  | cons record records ih =>
      intro world world' h
      rw [List.foldlM_cons] at h
      obtain ⟨next, hnext, h⟩ := bind_ok.mp h
      exact (hstep _ _ _ hnext).trans (ih h)

/-- Nor do the decays. -/
theorem decayTrees_sameGroups (n : ℕ) :
    ∀ world : World, world.SameGroups (World.decayTrees^[n] world) := by
  induction n with
  | zero => exact fun world => ⟨rfl, rfl, rfl⟩
  | succ n ih =>
      intro world
      rw [Function.iterate_succ_apply]
      have hone : world.SameGroups world.decayTrees := by
        refine ⟨rfl, List.map_map, ?_⟩
        have hgroups := decayTrees_groups 1 world
        rw [Function.iterate_one] at hgroups
        rw [hgroups, List.map_map]
        rfl
      exact hone.trans (ih _)

/-- Nor does the whole update of the fairshare data. -/
theorem updateFairshare_sameGroups {conf : CycleConf} {jobs : List CycleJob}
    {world world' : World} (h : updateFairshare conf jobs world = .ok world') :
    world.SameGroups world' := by
  unfold updateFairshare at h
  split at h
  · cases h
    exact ⟨rfl, rfl, rfl⟩
  · obtain ⟨charged, hcharged, h⟩ := bind_ok.mp h
    obtain ⟨assigned, hassigned, h⟩ := bind_ok.mp h
    obtain ⟨decayed, hdecayed, h⟩ := bind_ok.mp h
    have hbefore := (foldlM_sameGroups (fun _ _ _ => chargeJob_sameGroups) _ hcharged).trans
      (foldlM_sameGroups (fun _ _ _ => setUsageAt_sameGroups) _ hassigned)
    obtain ⟨n, -, rfl⟩ := decayLoop_ok_iff.mp hdecayed
    refine (hbefore.trans (decayTrees_sameGroups n assigned)).trans ?_
    -- the times and the files are written
    dsimp only at h
    by_cases hdue : conf.now - assigned.lastDecay.getD 0 > conf.halfLife
    · simp only [if_pos hdue] at h
      split at h <;> cases h <;> exact ⟨rfl, rfl, rfl⟩
    · simp only [if_neg hdue] at h
      split at h <;> cases h <;> exact ⟨rfl, rfl, rfl⟩

end PlanSched.Fairshare
