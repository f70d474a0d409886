/-
# The names of the groups in a fairshare tree

`find_alloc_ginfo` adds a group only when its name is not in the tree, but `read_configuration`
adds the group of each line without looking: a parent that is named on a line before its own, or
on its own, is there twice afterwards, once under `unknown` and once where its line puts it.

* `readConfiguration_eq` says what the lines of the file leave, `nodup_addGroups` when all names
  differ;
* `LookedUp` are the trees that look-ups make of a tree, `readUsage_lookedUp` says that
  `read_usage` makes such look-ups;
* `names_unique_iff`: the names of the tree are unique exactly when no line names a parent whose
  own line comes later or is the line itself.
-/
import PlanSched.Fairshare

namespace PlanSched.Fairshare

open CheckedRun CText SiblingTree

/-! ## Entries -/

/-- The groups of the tree. -/
def FairshareTree.groups (tree : FairshareTree) : List GroupInfo := tree.root.toList

/-- The names of the groups. -/
def FairshareTree.names (tree : FairshareTree) : List String := tree.groups.map GroupInfo.name

/-- The name and the shares of a group. -/
def GroupInfo.entry (ginfo : GroupInfo) : String × ℤ := (ginfo.name, ginfo.shares)

/-- The names of all groups with their shares. -/
def FairshareTree.entries (tree : FairshareTree) : List (String × ℤ) :=
  tree.groups.map GroupInfo.entry

variable {tree tree' : FairshareTree} {start st st' : FairshareTree × ℕ} {name : String}

/-- Names are read off the entries. -/
theorem map_fst_entries (tree : FairshareTree) : tree.entries.map Prod.fst = tree.names := by
  rw [FairshareTree.entries, List.map_map]
  rfl

/-- Groups with the same entries have the same names. -/
theorem perm_names {added : List (String × ℤ)} (h : tree'.entries.Perm (added ++ tree.entries)) :
    tree'.names.Perm (added.map Prod.fst ++ tree.names) := by
  rw [← map_fst_entries, ← map_fst_entries, ← List.map_append]
  exact h.map Prod.fst

/-- A search for a name ends if the name is there. -/
theorem findGinfo_isSome : (tree.findGinfo name).isSome ↔ name ∈ tree.names := by
  rw [FairshareTree.findGinfo, find_isSome_iff, FairshareTree.names, List.mem_map]
  exact exists_congr fun ginfo => and_congr_right fun _ => named_iff

/-- The group `unknown` is there. -/
theorem unknown_mem_names (tree : FairshareTree) : "unknown" ∈ tree.names :=
  findGinfo_isSome.mp tree.hasUnknown

/-- The group without its usages. -/
def GroupInfo.unused (ginfo : GroupInfo) : GroupInfo := { ginfo with usage := 1, tempUsage := 1 }

/-- Trees that differ in percentages have the same entries. -/
theorem relabel_entry_core {t t' : SiblingTree GroupInfo}
    (h : t.relabel GroupInfo.core = t'.relabel GroupInfo.core) :
    t.relabel GroupInfo.entry = t'.relabel GroupInfo.entry := by
  have hentries := congrArg (relabel GroupInfo.entry) h
  rw [relabel_relabel, relabel_relabel] at hentries
  exact hentries

/-- So have trees that differ in usages. -/
theorem relabel_entry_unused {t t' : SiblingTree GroupInfo}
    (h : t.relabel GroupInfo.unused = t'.relabel GroupInfo.unused) :
    t.relabel GroupInfo.entry = t'.relabel GroupInfo.entry := by
  have hentries := congrArg (relabel GroupInfo.entry) h
  rw [relabel_relabel, relabel_relabel] at hentries
  exact hentries

/-- The entries in the order of the search. -/
theorem entries_eq (h : tree'.root.relabel GroupInfo.entry = tree.root.relabel GroupInfo.entry) :
    tree'.entries = tree.entries := by
  have hlists := congrArg toList h
  rwa [toList_relabel, toList_relabel] at hlists

/-- Computing percentages keeps the entries. -/
theorem entries_calcPercentages (tree : FairshareTree) :
    tree.calcPercentages.entries = tree.entries :=
  entries_eq (relabel_entry_core (relabel_calcRootPerc tree.root))

/-- It keeps the names. -/
theorem names_calcPercentages (tree : FairshareTree) :
    tree.calcPercentages.names = tree.names := by
  rw [← map_fst_entries, entries_calcPercentages, map_fst_entries]

/-- A new child adds its entry. -/
theorem entries_addChild (h : name ∈ tree.names) (ginfo : GroupInfo) :
    (tree.addChild name ginfo).entries.Perm (ginfo.entry :: tree.entries) := by
  show ((tree.root.addFirst (named name) ginfo).toList.map GroupInfo.entry).Perm _
  rw [addFirst_eq_updateChild]
  refine perm_updateChild GroupInfo.entry [ginfo.entry] (fun _ child => ?_)
    (findGinfo_isSome.mpr h)
  rw [toList, toList, List.append_nil, List.map_cons]
  exact List.Perm.refl _

/-- A look-up adds an entry for a name that is missing. -/
theorem entries_findAlloc (st : FairshareTree × ℕ) (name : String) :
    (findAllocGinfo st name).2.1.entries.Perm
      ((if name ∈ st.1.names then [] else [(name, 1)]) ++ st.1.entries) := by
  unfold findAllocGinfo
  cases hfind : st.1.findGinfo name with
  | some ginfo =>
      have hname : name ∈ st.1.names := findGinfo_isSome.mp (by rw [hfind]; rfl)
      rw [if_pos hname]
      exact List.Perm.refl _
  | none =>
      have hname : name ∉ st.1.names := by
        rw [← findGinfo_isSome, hfind]
        simp
      rw [if_neg hname]
      have hadded : (st.1.addUnknown (newGroupInfo st.2 name 1)).entries
          = (st.1.addChild "unknown" (newGroupInfo st.2 name 1)).entries :=
        entries_eq (relabel_entry_core (relabel_addUnknown st.1.root _))
      exact (List.Perm.of_eq hadded).trans (entries_addChild (unknown_mem_names st.1) _)

/-- The names after a look-up. -/
theorem mem_names_findAlloc (st : FairshareTree × ℕ) (name other : String) :
    other ∈ (findAllocGinfo st name).2.1.names ↔ other = name ∨ other ∈ st.1.names := by
  rw [(perm_names (entries_findAlloc st name)).mem_iff, List.mem_append]
  split
  · next hname =>
      rw [List.map_nil, or_iff_right List.not_mem_nil]
      refine ⟨Or.inr, ?_⟩
      rintro (rfl | hother)
      · exact hname
      · exact hother
  · rw [List.map_singleton, List.mem_singleton]

/-- A look-up keeps the names apart, and brings none together. -/
theorem nodup_findAlloc (st : FairshareTree × ℕ) (name : String) :
    (findAllocGinfo st name).2.1.names.Nodup ↔ st.1.names.Nodup := by
  rw [(perm_names (entries_findAlloc st name)).nodup_iff]
  split
  · rfl
  · next hname =>
      rw [List.map_singleton, List.singleton_append, List.nodup_cons]
      exact and_iff_right hname

/-! ## The lines of the file -/

/-- A group of the resource group file. -/
structure GroupLine where
  name : String
  parent : String
  shares : ℤ
  deriving DecidableEq, Repr

/-- The group of a line; a line that is skipped has none. -/
def groupLine (line : List Char) : Option GroupLine :=
  let text := stripNewline line
  if skipLine text then none
  else
    (lineTokens text).map fun (nametok, _, grouptok, sharestok) =>
      ⟨String.ofList nametok, String.ofList grouptok, atoi sharestok⟩

/-- The groups of the file, in order. -/
def groupLines (files : TreeFiles) : List GroupLine :=
  ((files.resourceGroup.map (fun text => fgetsLines text [])).getD []).filterMap groupLine

/-- What a line leaves. -/
def addGroup (st : FairshareTree × ℕ) (line : GroupLine) : FairshareTree × ℕ :=
  let (_, tree, next) := findAllocGinfo st line.parent
  (tree.addChild line.parent (newGroupInfo next line.name line.shares), next + 1)

/-- An accepted line. -/
theorem readConfigurationLine_eq {line : List Char}
    (h : readConfigurationLine st line = .ok st') :
    st' = (groupLine line).toList.foldl addGroup st := by
  unfold readConfigurationLine at h
  unfold groupLine
  dsimp only at h ⊢
  by_cases hskip : skipLine (stripNewline line) = true
  · rw [if_pos hskip] at h ⊢
    cases h
    rfl
  · rw [if_neg hskip] at h ⊢
    cases htokens : lineTokens (stripNewline line) with
    | none =>
        rw [htokens] at h
        cases h
    | some tokens =>
        rw [htokens] at h
        dsimp only at h
        split at h
        · cases h
        · split at h
          · cases h
          · cases h
            rfl

/-- All lines of an accepted file. -/
theorem readConfigurationLines_eq (lines : List (List Char)) :
    ∀ {st st' : FairshareTree × ℕ}, lines.foldlM readConfigurationLine st = .ok st' →
      st' = (lines.filterMap groupLine).foldl addGroup st := by
  induction lines with
  | nil =>
      intro st st' h
      cases h
      rfl
  | cons line lines ih =>
      intro st st' h
      rw [List.foldlM_cons, bind_ok] at h
      obtain ⟨next, hline, h⟩ := h
      rw [ih h, readConfigurationLine_eq hline, List.filterMap_cons]
      cases groupLine line with
      | none => rfl
      | some group => rfl

/-- The tree of an accepted file. -/
theorem readConfiguration_eq {files : TreeFiles} (h : readConfiguration files st = .ok st') :
    st' = (groupLines files).foldl addGroup st := by
  unfold readConfiguration at h
  unfold groupLines
  split at h
  · cases h
  · next text htext =>
      rw [htext]
      exact readConfigurationLines_eq _ h

/-- The entries after a line. -/
theorem entries_addGroup (st : FairshareTree × ℕ) (line : GroupLine) :
    (addGroup st line).1.entries.Perm
      ([(line.name, line.shares)] ++ (findAllocGinfo st line.parent).2.1.entries) :=
  entries_addChild ((mem_names_findAlloc st _ _).mpr (Or.inl rfl)) _

/-- The names after a line. -/
theorem mem_names_addGroup (st : FairshareTree × ℕ) (line : GroupLine) (other : String) :
    other ∈ (addGroup st line).1.names
      ↔ other = line.name ∨ other = line.parent ∨ other ∈ st.1.names := by
  rw [(perm_names (entries_addGroup st line)).mem_iff, List.map_singleton, List.singleton_append,
    List.mem_cons]
  exact or_congr_right (mem_names_findAlloc st line.parent other)

/-- A line keeps the names apart exactly if its group is new, also after its parent. -/
theorem nodup_addGroup (st : FairshareTree × ℕ) (line : GroupLine) :
    (addGroup st line).1.names.Nodup
      ↔ st.1.names.Nodup ∧ line.name ∉ st.1.names ∧ line.parent ≠ line.name := by
  rw [(perm_names (entries_addGroup st line)).nodup_iff, List.map_singleton,
    List.singleton_append, List.nodup_cons, mem_names_findAlloc, nodup_findAlloc, not_or]
  constructor
  · rintro ⟨⟨hparent, hnew⟩, hold⟩
    exact ⟨hold, hnew, fun hself => hparent hself.symm⟩
  · rintro ⟨hold, hnew, hparent⟩
    exact ⟨⟨fun hself => hparent hself.symm, hnew⟩, hold⟩

/-! ## All lines -/

/-- The names stay apart exactly when every line's group is new: not in the tree before, not the
group or the parent of an earlier line, and not its own parent. -/
theorem nodup_addGroups (lines : List GroupLine) :
    ∀ st : FairshareTree × ℕ, (lines.foldl addGroup st).1.names.Nodup
      ↔ st.1.names.Nodup ∧
        (∀ line ∈ lines, line.name ∉ st.1.names ∧ line.parent ≠ line.name) ∧
        lines.Pairwise (fun earlier line =>
          earlier.name ≠ line.name ∧ earlier.parent ≠ line.name) := by
  induction lines with
  | nil => simp
  | cons line lines ih =>
      intro st
      rw [List.foldl_cons, ih, nodup_addGroup, List.forall_mem_cons, List.pairwise_cons]
      constructor
      · rintro ⟨⟨hnodup, hline⟩, hlines, hpairs⟩
        refine ⟨hnodup, ⟨hline, ?_⟩, ?_, hpairs⟩
        · intro later hlater
          obtain ⟨hnew, hself⟩ := hlines later hlater
          rw [mem_names_addGroup] at hnew
          exact ⟨fun hold => hnew (Or.inr (Or.inr hold)), hself⟩
        · intro later hlater
          have hnew := (hlines later hlater).1
          rw [mem_names_addGroup] at hnew
          exact ⟨fun heq => hnew (Or.inl heq.symm), fun heq => hnew (Or.inr (Or.inl heq.symm))⟩
      · rintro ⟨hnodup, ⟨hline, hlines⟩, hfirst, hpairs⟩
        refine ⟨⟨hnodup, hline⟩, ?_, hpairs⟩
        intro later hlater
        refine ⟨?_, (hlines later hlater).2⟩
        rw [mem_names_addGroup]
        rintro (heq | heq | hold)
        · exact (hfirst later hlater).1 heq.symm
        · exact (hfirst later hlater).2 heq.symm
        · exact (hlines later hlater).1 hold

/-- Every line leaves its entry, and no entry is lost. -/
theorem mem_entries_addGroups (lines : List GroupLine) :
    ∀ st : FairshareTree × ℕ,
      (∀ entry ∈ st.1.entries, entry ∈ (lines.foldl addGroup st).1.entries) ∧
        ∀ line ∈ lines, (line.name, line.shares) ∈ (lines.foldl addGroup st).1.entries := by
  induction lines with
  | nil => exact fun st => ⟨fun _ hentry => hentry, fun _ hline => (List.not_mem_nil hline).elim⟩
  | cons line lines ih =>
      intro st
      obtain ⟨hold, hnew⟩ := ih (addGroup st line)
      refine ⟨?_, ?_⟩
      · intro entry hentry
        apply hold
        refine (entries_addGroup st line).mem_iff.mpr (List.mem_append_right _ ?_)
        exact (entries_findAlloc st line.parent).mem_iff.mpr (List.mem_append_right _ hentry)
      · intro group hgroup
        rcases List.mem_cons.mp hgroup with rfl | hgroup
        · refine hold _ ((entries_addGroup st group).mem_iff.mpr ?_)
          exact List.mem_append_left _ (List.mem_singleton_self _)
        · exact hnew group hgroup

/-! ## Look-ups -/

/-- The trees that look-ups make of a tree, with the names that are looked up; between the look-ups
usages may change. -/
inductive LookedUp (start : FairshareTree × ℕ) : List String → FairshareTree × ℕ → Prop where
  | start : LookedUp start [] start
  | findAlloc {lookups : List String} {st : FairshareTree × ℕ} (h : LookedUp start lookups st)
      (name : String) : LookedUp start (lookups ++ [name]) (findAllocGinfo st name).2
  | usages {lookups : List String} {st : FairshareTree × ℕ} {tree : FairshareTree}
      (h : LookedUp start lookups st)
      (hsame : tree.root.relabel GroupInfo.unused = st.1.root.relabel GroupInfo.unused) :
      LookedUp start lookups (tree, st.2)

/-- Look-ups follow one another. -/
theorem LookedUp.trans {lookups more : List String} (h : LookedUp start lookups st)
    (h' : LookedUp st more st') : LookedUp start (lookups ++ more) st' := by
  induction h' with
  | start =>
      rw [List.append_nil]
      exact h
  | findAlloc _ name ih =>
      rw [← List.append_assoc]
      exact ih.findAlloc name
  | usages _ hsame ih => exact ih.usages hsame

/-- A recorded usage is looked up. -/
theorem readEntry_lookedUp (st : FairshareTree × ℕ) (entry : String × ℤ) :
    LookedUp st [entry.1] (readEntry st entry) := by
  have hsame := relabel_modifyFirst (p := named entry.1)
    (f := fun ginfo : GroupInfo => { ginfo with usage := entry.2, tempUsage := entry.2 })
    (g := GroupInfo.unused) (fun _ => rfl) (findAllocGinfo st entry.1).2.1.root
  exact (LookedUp.start.findAlloc entry.1).usages hsame

/-- So are all of them. -/
theorem readEntries_lookedUp (entries : List (String × ℤ)) :
    ∀ st : FairshareTree × ℕ, LookedUp st (entries.map Prod.fst) (entries.foldl readEntry st) := by
  induction entries with
  | nil => exact fun st => LookedUp.start
  | cons entry entries ih => exact fun st => (readEntry_lookedUp st entry).trans (ih _)

/-- The names that the loop over the ini file looks up: to the first value that is no number. -/
def iniNames : List (String × Option ℤ) → List String
  | [] => []
  | (name, some _) :: rest => name :: iniNames rest
  | (name, none) :: _ => [name]

/-- The loop does so. -/
theorem readIni_lookedUp (entries : List (String × Option ℤ)) :
    ∀ st : FairshareTree × ℕ, LookedUp st (iniNames entries) (readIni st entries).1 := by
  induction entries with
  | nil => exact fun st => LookedUp.start
  | cons entry entries ih =>
      intro st
      obtain ⟨name, value⟩ := entry
      cases value with
      | none => exact LookedUp.start.findAlloc name
      | some usage => exact (readEntry_lookedUp st (name, usage)).trans (ih _)

/-- The names that `read_usage` looks up: those of the ini file, and, without it or with a value
that is no number, those of the old file. -/
def usageNames (files : TreeFiles) : List String :=
  let oldNames := (files.usage.getD []).map Prod.fst
  match files.ini with
  | none => oldNames
  | some entries =>
      if entries.all (fun entry => entry.2.isSome) then iniNames entries
      else iniNames entries ++ oldNames

/-- It looks them up. -/
theorem readUsage_lookedUp (files : TreeFiles) (st : FairshareTree × ℕ) :
    LookedUp st (usageNames files) (readUsage files st) := by
  unfold readUsage usageNames
  cases files.ini with
  | none => exact readEntries_lookedUp _ st
  | some entries =>
      have hread := readIni_lookedUp entries st
      have hdone := (usageOf_readIni entries st).2
      dsimp only
      rw [hdone]
      split
      · exact hread
      · exact hread.trans (readEntries_lookedUp _ _)

/-- Look-ups of some names, one after the other. -/
theorem findAllocs_lookedUp (lookups : List String) :
    ∀ st : FairshareTree × ℕ,
      LookedUp st lookups (lookups.foldl (fun st name => (findAllocGinfo st name).2) st) := by
  induction lookups with
  | nil => exact fun st => LookedUp.start
  | cons name lookups ih => exact fun st => (LookedUp.start.findAlloc name).trans (ih _)

/-- The names that are looked up are there afterwards, with the old ones. -/
theorem LookedUp.mem_names {lookups : List String} (h : LookedUp start lookups st)
    (other : String) : other ∈ st.1.names ↔ other ∈ lookups ∨ other ∈ start.1.names := by
  induction h with
  | start => rw [or_iff_right List.not_mem_nil]
  | findAlloc _ name ih =>
      rw [mem_names_findAlloc, ih, List.mem_append, List.mem_singleton]
      tauto
  | usages _ hsame ih =>
      rw [← map_fst_entries, entries_eq (relabel_entry_unused hsame), map_fst_entries]
      exact ih

/-- Look-ups keep all entries, and the names apart if they are. -/
theorem LookedUp.entries {lookups : List String} (h : LookedUp start lookups st) :
    (st.1.names.Nodup ↔ start.1.names.Nodup) ∧
      ∀ entry ∈ start.1.entries, entry ∈ st.1.entries := by
  induction h with
  | start => exact ⟨Iff.rfl, fun _ hentry => hentry⟩
  | findAlloc _ name ih =>
      refine ⟨(nodup_findAlloc _ name).trans ih.1, fun entry hentry => ?_⟩
      exact (entries_findAlloc _ name).mem_iff.mpr (List.mem_append_right _ (ih.2 entry hentry))
  | usages _ hsame ih =>
      rw [← map_fst_entries, entries_eq (relabel_entry_unused hsame), map_fst_entries]
      exact ih

/-! ## After the configuration -/

/-- What happens to a tree later. -/
inductive TreeCall : Type where
  | readUsage (files : TreeFiles)
  | findAllocGinfo (name : String)

/-- The tree after a call. -/
def TreeCall.run (st : FairshareTree × ℕ) : TreeCall → FairshareTree × ℕ
  | readUsage files => Fairshare.readUsage files st
  | findAllocGinfo name => (Fairshare.findAllocGinfo st name).2

/-- Calls are look-ups, one after the other. -/
theorem run_calls (calls : List TreeCall) :
    ∀ st : FairshareTree × ℕ, ∃ lookups, LookedUp st lookups (calls.foldl TreeCall.run st) := by
  induction calls with
  | nil => exact fun st => ⟨[], .start⟩
  | cons call calls ih =>
      intro st
      obtain ⟨lookups, hcalls⟩ := ih (TreeCall.run st call)
      cases call with
      | readUsage files => exact ⟨_, (readUsage_lookedUp files st).trans hcalls⟩
      | findAllocGinfo name => exact ⟨_, (LookedUp.start.findAlloc name).trans hcalls⟩

/-- The names of the tree are unique, and each configured group is found with its shares. -/
structure NamesUnique (lines : List GroupLine) (tree : FairshareTree) : Prop where
  once : tree.names.Nodup
  configured : ∀ line ∈ lines, ∃ ginfo, tree.findGinfo line.name = some ginfo ∧
    ginfo.shares = line.shares

/-- No line names a parent whose own line comes later or is the line itself. -/
def ParentsFirst (lines : List GroupLine) : Prop :=
  (∀ line ∈ lines, line.parent ≠ line.name) ∧
    lines.Pairwise (fun earlier line => earlier.parent ≠ line.name)

instance (lines : List GroupLine) : Decidable (ParentsFirst lines) :=
  inferInstanceAs (Decidable (_ ∧ _))

/-- With the names apart, a search finds the entry of the name. -/
theorem find_of_mem_entries (hnodup : tree.names.Nodup) {shares : ℤ}
    (hmem : (name, shares) ∈ tree.entries) :
    ∃ ginfo, tree.findGinfo name = some ginfo ∧ ginfo.shares = shares := by
  have hname : name ∈ tree.names := by
    rw [← map_fst_entries]
    exact List.mem_map.mpr ⟨_, hmem, rfl⟩
  obtain ⟨ginfo, hfind⟩ := Option.isSome_iff_exists.mp (findGinfo_isSome.mpr hname)
  refine ⟨ginfo, hfind, ?_⟩
  have hentry : ginfo.entry ∈ tree.entries := List.mem_map_of_mem (mem_of_find hfind)
  have hsame : ginfo.entry.1 = (name, shares).1 := named_iff.mp (find_passes hfind)
  rw [← map_fst_entries] at hnodup
  exact congrArg Prod.snd (List.inj_on_of_nodup_map hnodup hentry hmem hsame)

/-- After a file whose groups have different names other than `root` and `unknown` has been read,
and after any later calls, the names are unique exactly when the file has no parent before its own
line. -/
theorem names_unique_iff {unknownShares : ℤ} {files : TreeFiles} {next : ℕ}
    {configured : FairshareTree × ℕ}
    (hread : readConfiguration files (initFairshareRoot unknownShares next) = .ok configured)
    (hdistinct : ((groupLines files).map GroupLine.name).Nodup)
    (hnew : ∀ line ∈ groupLines files, line.name ≠ "root" ∧ line.name ≠ "unknown")
    (calls : List TreeCall) :
    NamesUnique (groupLines files)
        (calls.foldl TreeCall.run (configured.1.calcPercentages, configured.2)).1
      ↔ ParentsFirst (groupLines files) := by
  have hinit : (initFairshareRoot unknownShares next).1.names = ["root", "unknown"] := rfl
  have hconfigured := readConfiguration_eq hread
  have hlines := (mem_entries_addGroups (groupLines files)
    (initFairshareRoot unknownShares next)).2
  rw [← hconfigured] at hlines
  -- the groups differ in name, so only a parent before its own line is entered twice
  have hnodup : configured.1.names.Nodup ↔ ParentsFirst (groupLines files) := by
    rw [hconfigured, nodup_addGroups, hinit]
    constructor
    · rintro ⟨-, hself, hpairs⟩
      exact ⟨fun line hline => (hself line hline).2, hpairs.imp And.right⟩
    · rintro ⟨hself, hpairs⟩
      refine ⟨by decide, fun line hline => ⟨?_, hself line hline⟩, ?_⟩
      · obtain ⟨hroot, hunknownName⟩ := hnew line hline
        simp [hroot, hunknownName]
      · exact (List.pairwise_map.mp hdistinct).and hpairs
  obtain ⟨lookups, hlooked⟩ := run_calls calls (configured.1.calcPercentages, configured.2)
  obtain ⟨hkept, hentries⟩ := hlooked.entries
  rw [names_calcPercentages, hnodup] at hkept
  constructor
  · intro h
    exact hkept.mp h.once
  · intro h
    have honce := hkept.mpr h
    refine ⟨honce, fun line hline => find_of_mem_entries honce (hentries _ ?_)⟩
    rw [entries_calcPercentages]
    exact hlines line hline

/-- A file that gives a department twice the shares of `unknown`. -/
def departmentFiles : TreeFiles where
  resourceGroup := some "staff 10 root 20\nanna 11 staff 3\nbob 12 staff 1\n".toList
  ini := some [("anna", some 1000), ("carl", some 50)]
  usage := none

/-- The tree of that file. -/
def departmentTree : FairshareTree where
  root := .node ⟨0, "root", -1, some 1, 1, 1⟩ .null
    (.node ⟨2, "staff", 20, some 0, 1, 1⟩ (.node ⟨1, "unknown", 10, some 0, 1, 1⟩ .null .null)
      (.node ⟨4, "bob", 1, some 0, 1, 1⟩ (.node ⟨3, "anna", 3, some 0, 1, 1⟩ .null .null) .null))
  hasUnknown := rfl

/-- It is read. -/
theorem readConfiguration_department :
    readConfiguration departmentFiles (initFairshareRoot 10 0) = .ok (departmentTree, 5) := by
  rfl

/-- A file with every parent before its groups. -/
theorem names_unique_iff_department :
    NamesUnique (groupLines departmentFiles)
      ([TreeCall.readUsage departmentFiles, .findAllocGinfo "dora"].foldl TreeCall.run
        (departmentTree.calcPercentages, 5)).1 := by
  refine (names_unique_iff readConfiguration_department ?_ ?_ _).mpr ?_
  · decide +kernel
  · decide +kernel
  · decide +kernel

/-- A file with a group before the line of its parent. -/
def childFirstFiles : TreeFiles where
  resourceGroup := some "anna 11 staff 3\nstaff 10 root 20\n".toList
  ini := none
  usage := none

/-- Its group `staff` is in the tree twice. -/
theorem child_first_duplicates :
    ∃ configured,
      readConfiguration childFirstFiles (initFairshareRoot 10 0) = .ok configured ∧
        ((groupLines childFirstFiles).map GroupLine.name).Nodup ∧
        (∀ line ∈ groupLines childFirstFiles, line.name ≠ "root" ∧ line.name ≠ "unknown") ∧
        (configured.1.names.filter (fun name => name = "staff")).length = 2 ∧
        ¬ NamesUnique (groupLines childFirstFiles) configured.1 := by
  refine ⟨_, rfl, ?_, ?_, ?_, ?_⟩
  · decide +kernel
  · decide +kernel
  · decide +kernel
  · intro h
    have honce := h.once
    revert honce
    decide +kernel

end PlanSched.Fairshare
