/-
# Usages written and read back

`dump_to_ini` writes the usages that are not the default one, a line for each, and a tree that is
built later reads them with `boost::property_tree`, adding the groups that the configuration does
not have.  What the library makes of a text is a parameter; `ReadsIni` is what is assumed of it,
and `readIniLines` is such a reader.

* `Reached` are the trees that look-ups and changes of usages make of a tree;
* `usages_restored`: a tree built from the file that a reached tree has written knows the usages
  of its groups.
-/
import PlanSched.GroupNames
import PlanSched.NodespecBuffers

namespace PlanSched.Fairshare

open CheckedRun CText NodespecText SiblingTree

/-! ## The text -/

/-- A line of the file. -/
def iniLine (entry : String × ℤ) : List Char :=
  entry.1.toList ++ '=' :: (printInt entry.2 ++ ['\n'])

/-- `dump_to_ini` for a group, its siblings and its children. -/
def dumpNodes : SiblingTree GroupInfo → List Char
  | .null => []
  | .node ginfo sibling child =>
      (if ginfo.usage ≠ 1 then iniLine (ginfo.name, ginfo.usage) else [])
        ++ dumpNodes sibling ++ dumpNodes child

/-- `dump_to_ini`. -/
def FairshareTree.dumpToIni (tree : FairshareTree) : List Char :=
  "[default]\n".toList ++ dumpNodes tree.root

/-- A file with one section. -/
def iniText (entries : List (String × ℤ)) : List Char :=
  "[default]\n".toList ++ entries.flatMap iniLine

/-- The lines of the groups whose usage is not the default one. -/
theorem dumpNodes_eq (t : SiblingTree GroupInfo) :
    dumpNodes t
      = ((t.toList.filter (fun ginfo => ginfo.usage ≠ 1)).map
          (fun ginfo => (ginfo.name, ginfo.usage))).flatMap iniLine := by
  induction t with
  | null => rfl
  | node ginfo sibling child ihs ihc =>
      rw [dumpNodes, ihs, ihc, toList]
      by_cases husage : ginfo.usage ≠ 1
      · rw [if_pos husage, List.filter_cons_of_pos (by simpa using husage), List.map_cons,
          List.flatMap_cons, List.filter_append, List.map_append, List.flatMap_append,
          List.append_assoc]
      · rw [if_neg husage, List.nil_append, List.filter_cons_of_neg (by simpa using husage),
          List.filter_append, List.map_append, List.flatMap_append]

/-- The file has the usages that are not the default one. -/
theorem dumpToIni_eq (tree : FairshareTree) : tree.dumpToIni = iniText tree.dump := by
  exact congrArg ("[default]\n".toList ++ ·) (dumpNodes_eq tree.root)

/-- A name that stays whole in the file. -/
def PlainName (name : String) : Prop :=
  name.toList ≠ [] ∧ ∀ c ∈ name.toList, isspace c = false ∧ c ∉ ['=', ';', '#', '[']

instance (name : String) : Decidable (PlainName name) :=
  @instDecidableAnd _ _ inferInstance (List.decidableBAll _ _)

/-- The reader returns the lines of a section in order, each with its key and its number. -/
def ReadsIni (readIni : List Char → Option (List (String × Option ℤ))) : Prop :=
  ∀ entries : List (String × ℤ), (∀ entry ∈ entries, PlainName entry.1) →
    (entries.map Prod.fst).Nodup →
      readIni (iniText entries) = some (entries.map (fun entry => (entry.1, some entry.2)))

/-! ## A reader -/

/-- The number of a text of digits. -/
def readDigits (digits : List Char) : Option ℤ :=
  if digits ≠ [] ∧ digits.all Char.isDigit then some (digitsValue 10 digits) else none

/-- The number a text stands for. -/
def readNumber : List Char → Option ℤ
  | '-' :: digits => (readDigits digits).map (fun n => -n)
  | digits => readDigits digits

/-- Written digits are read. -/
theorem readDigits_toDigits (m : ℕ) : readDigits (Nat.toDigits 10 m) = some (m : ℤ) := by
  unfold readDigits
  rw [if_pos, digitsValue_toDigits]
  refine ⟨List.ne_nil_of_length_pos Nat.length_toDigits_pos, ?_⟩
  rw [List.all_eq_true]
  exact fun c hc => Nat.isDigit_of_mem_toDigits (by omega) (by omega) hc

/-- A written number is read. -/
theorem readNumber_printInt (n : ℤ) : readNumber (printInt n) = some n := by
  unfold printInt
  split
  · next hneg =>
      show (readDigits (Nat.toDigits 10 n.natAbs)).map (fun n => -n) = some n
      rw [readDigits_toDigits, Option.map_some, Int.ofNat_natAbs_of_nonpos hneg.le, neg_neg]
  · next hnonneg =>
      have hread : readNumber (Nat.toDigits 10 n.natAbs)
          = readDigits (Nat.toDigits 10 n.natAbs) := by
        unfold readNumber
        split
        · next ds hds =>
            -- a digit is no minus
            have hminus : '-' ∈ Nat.toDigits 10 n.natAbs := hds ▸ List.mem_cons_self
            have := Nat.isDigit_of_mem_toDigits (by omega) (by omega) hminus
            cases this
        · rfl
      rw [hread, readDigits_toDigits, Int.natAbs_of_nonneg (not_lt.mp hnonneg)]

/-- A line is cut at the first `=`. -/
def readIniLine (line : List Char) : String × Option ℤ :=
  (String.ofList (line.takeWhile (· ≠ '=')), readNumber ((line.dropWhile (· ≠ '=')).drop 1))

/-- The lines behind the first one, which names the section. -/
def readIniLines (text : List Char) : Option (List (String × Option ℤ)) :=
  some (((text.splitOn '\n').drop 1).dropLast.map readIniLine)

/-- This reader returns the lines in order. -/
theorem readsIni_readIniLines : ReadsIni readIniLines := by
  intro entries hplain hnodup
  clear hnodup
  -- the lines without their ends
  have hsplit : (entries.flatMap iniLine).splitOn '\n'
      = entries.map (fun entry => entry.1.toList ++ '=' :: printInt entry.2) ++ [[]] := by
    induction entries with
    | nil => rfl
    | cons entry entries ih =>
        have hnoend : '\n' ∉ entry.1.toList ++ '=' :: printInt entry.2 := by
          intro hmem
          rcases List.mem_append.mp hmem with hname | hvalue
          · have := ((hplain entry List.mem_cons_self).2 _ hname).1
            cases this
          · rcases List.mem_cons.mp hvalue with hsign | hnumber
            · cases hsign
            · rcases (printInt_chars entry.2).2 _ hnumber with hdigit | hminus
              · cases hdigit
              · cases hminus
        have hline : (entry :: entries).flatMap iniLine
            = (entry.1.toList ++ '=' :: printInt entry.2) ++ '\n' :: entries.flatMap iniLine := by
          rw [List.flatMap_cons, iniLine]
          simp
        rw [hline, List.splitOn_append_cons_self_of_not_mem hnoend,
          ih (fun entry hentry => hplain entry (List.mem_cons_of_mem _ hentry))]
        rfl
  have hheader : iniText entries = "[default]".toList ++ '\n' :: entries.flatMap iniLine := rfl
  unfold readIniLines
  rw [hheader, List.splitOn_append_cons_self_of_not_mem (by decide), hsplit]
  rw [List.drop_one, List.tail_cons, List.dropLast_concat, List.map_map]
  refine congrArg some (List.map_congr_left fun entry hentry => ?_)
  have hname : ∀ c ∈ entry.1.toList, decide (c ≠ '=') = true := by
    intro c hc
    refine decide_eq_true ?_
    rintro rfl
    exact ((hplain entry hentry).2 _ hc).2 List.mem_cons_self
  show readIniLine (entry.1.toList ++ '=' :: printInt entry.2) = _
  unfold readIniLine
  rw [List.takeWhile_append_of_pos hname, List.dropWhile_append_of_pos hname,
    List.takeWhile_cons_of_neg (by simp), List.dropWhile_cons_of_neg (by simp), List.append_nil,
    List.drop_one, List.tail_cons, readNumber_printInt, String.ofList_toList]

/-! ## Trees in use -/

/-- The trees that look-ups and changes of usages make of a tree. -/
inductive Reached (start : FairshareTree × ℕ) : FairshareTree × ℕ → Prop
  | start : Reached start start
  | findAllocGinfo {st : FairshareTree × ℕ} (h : Reached start st) (name : String) :
      Reached start (findAllocGinfo st name).2
  | usages {st : FairshareTree × ℕ} (h : Reached start st) (f : GroupInfo → ℤ × ℤ) :
      Reached start (st.1.mapUsage f, st.2)

variable {start st : FairshareTree × ℕ}

/-- They are trees that look-ups make. -/
theorem Reached.lookedUp (h : Reached start st) : ∃ lookups, LookedUp start lookups st := by
  induction h with
  | start => exact ⟨[], .start⟩
  | findAllocGinfo _ name ih =>
      obtain ⟨lookups, hlooked⟩ := ih
      exact ⟨_, hlooked.findAlloc name⟩
  | usages _ f ih =>
      obtain ⟨lookups, hlooked⟩ := ih
      have hsame := relabel_map (f := fun ginfo : GroupInfo =>
        { ginfo with usage := (f ginfo).1, tempUsage := (f ginfo).2 }) (g := GroupInfo.unused)
        (fun _ => rfl)
      exact ⟨lookups, hlooked.usages (hsame _)⟩

/-- The names of a tree that is built are apart exactly if those of the lines of its resource group
file keep them apart. -/
theorem nodup_buildTree_iff {unknownShares : ℤ} {files : TreeFiles} {next : ℕ}
    (h : buildTree unknownShares files next = .ok st) :
    st.1.names.Nodup ↔
      ((groupLines files).foldl addGroup (initFairshareRoot unknownShares next)).1.names.Nodup := by
  unfold buildTree at h
  obtain ⟨configured, hread, hst⟩ := bind_ok.mp h
  cases hst
  rw [(readUsage_lookedUp files (configured.1.calcPercentages, configured.2)).entries.1,
    names_calcPercentages, readConfiguration_eq hread]

/-- The names of a tree stay apart through all that adds groups to it later, and through reading
its configuration again with other usage files. -/
theorem Reached.nodup_rebuilt {unknownShares unknownShares' : ℤ} {files files' : TreeFiles}
    {next next' : ℕ} {st' : FairshareTree × ℕ}
    (hbuild : buildTree unknownShares files next = .ok start) (h : Reached start st)
    (hdistinct : st.1.names.Nodup) (hfile : files'.resourceGroup = files.resourceGroup)
    (hrebuild : buildTree unknownShares' files' next' = .ok st') : st'.1.names.Nodup := by
  obtain ⟨lookups, hlooked⟩ := h.lookedUp
  rw [hlooked.entries.1, nodup_buildTree_iff hbuild, nodup_addGroups] at hdistinct
  rw [nodup_buildTree_iff hrebuild, nodup_addGroups, groupLines, hfile]
  exact hdistinct

/-! ## Usages of a tree that is built -/

/-- Both usages of all nodes are the same. -/
def UsagesEqual (tree : FairshareTree) : Prop :=
  ∀ ginfo ∈ tree.groups, ginfo.tempUsage = ginfo.usage

/-- Percentages make no difference. -/
theorem UsagesEqual.core {tree tree' : FairshareTree} (h : UsagesEqual tree)
    (hcore : tree'.root.relabel GroupInfo.core = tree.root.relabel GroupInfo.core) :
    UsagesEqual tree' := by
  intro ginfo hginfo
  obtain ⟨old, hold, hsame⟩ := mem_core hcore hginfo
  have htemp : old.tempUsage = ginfo.tempUsage := by
    have := congrArg GroupInfo.tempUsage hsame
    exact this
  rw [← htemp, ← usage_of_core hsame]
  exact h old hold

/-- A look-up adds a group with equal usages. -/
theorem UsagesEqual.findAlloc (h : UsagesEqual st.1) (name : String) :
    UsagesEqual (findAllocGinfo st name).2.1 := by
  unfold Fairshare.findAllocGinfo
  split
  · exact h
  · have hadded : UsagesEqual (st.1.addChild "unknown" (newGroupInfo st.2 name 1)) := by
      intro ginfo hginfo
      rcases mem_toList_addFirst hginfo with hold | rfl
      · exact h ginfo hold
      · rfl
    exact hadded.core (relabel_addUnknown st.1.root _)

/-- A recorded usage sets both. -/
theorem UsagesEqual.readEntry (h : UsagesEqual st.1) (entry : String × ℤ) :
    UsagesEqual (readEntry st entry).1 := by
  intro ginfo hginfo
  rcases mem_toList_modifyFirst hginfo with hold | ⟨old, _, rfl⟩
  · exact h.findAlloc entry.1 ginfo hold
  · rfl

/-- So do all that are read from a file of numbers. -/
theorem UsagesEqual.readIni (entries : List (String × ℤ)) :
    ∀ {st : FairshareTree × ℕ}, UsagesEqual st.1 →
      UsagesEqual (readIni st (entries.map (fun entry => (entry.1, some entry.2)))).1.1 := by
  induction entries with
  | nil => exact fun h => h
  | cons entry entries ih => exact fun h => ih (h.readEntry entry)

/-- The configuration leaves all usages at one. -/
theorem UsagesEqual.lines (lines : List (List Char)) {st st' : FairshareTree × ℕ}
    (h : UsagesEqual st.1) (hlines : lines.foldlM readConfigurationLine st = .ok st') :
    UsagesEqual st'.1 := by
  refine foldlM_invariant (fun st => UsagesEqual st.1) readConfigurationLine lines st st' ?_ h
    hlines
  intro st line st₁ _ h hline
  rcases (readConfigurationLine_cases hline).2 with rfl | ⟨parent, name, shares, rfl⟩
  · exact h
  · intro ginfo hginfo
    rcases mem_toList_addFirst hginfo with hold | rfl
    · exact h.findAlloc parent ginfo hold
    · rfl

/-- A tree built with a file of numbers has equal usages. -/
theorem usagesEqual_buildTree {unknownShares : ℤ} {files : TreeFiles} {next : ℕ}
    {entries : List (String × ℤ)}
    (hini : files.ini = some (entries.map (fun entry => (entry.1, some entry.2))))
    (h : buildTree unknownShares files next = .ok st) : UsagesEqual st.1 := by
  obtain ⟨text, configured, -, hlines, hst⟩ := buildTree_ok.mp h
  have hequal : UsagesEqual configured.1 := by
    refine UsagesEqual.lines _ ?_ hlines
    intro ginfo hginfo
    simp only [FairshareTree.groups, initFairshareRoot, toList, List.nil_append,
      List.append_nil, List.mem_cons, List.not_mem_nil, or_false] at hginfo
    rcases hginfo with rfl | rfl
    · rfl
    · rfl
  have hdone := (usageOf_readIni (entries.map (fun entry => (entry.1, some entry.2)))
    (configured.1.calcPercentages, configured.2)).2
  have hall : (entries.map (fun entry => (entry.1, some entry.2))).all
      (fun entry => entry.2.isSome) = true := by simp
  rw [hall] at hdone
  have hcalc : UsagesEqual configured.1.calcPercentages :=
    hequal.core (relabel_calcRootPerc configured.1.root)
  have husages := @UsagesEqual.readIni entries (configured.1.calcPercentages, configured.2) hcalc
  rw [← hst, readUsage, hini]
  simp only [hdone, if_true]
  exact husages

/-! ## Writing and reading -/

/-- What a table of usages with different names ends at. -/
theorem foldl_update_eq (entries : List (String × ℤ)) (hnodup : (entries.map Prod.fst).Nodup) :
    ∀ (usage : String → ℤ) (name : String),
      (∀ n, (name, n) ∈ entries → entries.foldl
          (fun usage entry => Function.update usage entry.1 entry.2) usage name = n) ∧
        (name ∉ entries.map Prod.fst → entries.foldl
          (fun usage entry => Function.update usage entry.1 entry.2) usage name = usage name) := by
  induction entries with
  | nil => exact fun usage name => ⟨fun n hn => (List.not_mem_nil hn).elim, fun _ => rfl⟩
  | cons entry entries ih =>
      intro usage name
      rw [List.map_cons, List.nodup_cons] at hnodup
      obtain ⟨hnew, hnodup⟩ := hnodup
      obtain ⟨hmem, hnot⟩ := ih hnodup (Function.update usage entry.1 entry.2) name
      rw [List.foldl_cons]
      refine ⟨fun n hn => ?_, fun hname => ?_⟩
      · rcases List.mem_cons.mp hn with rfl | hn
        · rw [hnot hnew, Function.update_self]
        · exact hmem n hn
      · rw [List.map_cons, List.mem_cons, not_or] at hname
        rw [hnot hname.2, Function.update_of_ne hname.1]

/-- With different names, every group is the one its name finds. -/
theorem usageOf_of_mem {tree : FairshareTree} (h : tree.names.Nodup) {ginfo : GroupInfo}
    (hmem : ginfo ∈ tree.groups) : tree.usageOf ginfo.name = ginfo.usage := by
  have hsome : (tree.findGinfo ginfo.name).isSome :=
    find_isSome_iff.mpr ⟨ginfo, hmem, named_iff.mpr rfl⟩
  obtain ⟨found, hfind⟩ := Option.isSome_iff_exists.mp hsome
  have hname : found.name = ginfo.name := named_iff.mp (find_passes hfind)
  have hsame : found = ginfo := List.inj_on_of_nodup_map h (mem_of_find hfind) hmem hname
  rw [usageOf_of_find hfind, hsame]

/-- A tree is built from a resource group file and used, and its usages are written.  If its
groups have different names, and such that they stay whole in the file, a tree that is built from
the same resource group file and the written usages has every group whose usage is not the default
one, with this usage as both its usages, and the default usage for all other groups. -/
theorem usages_restored {unknownShares : ℤ} {files : TreeFiles} {next : ℕ}
    {readIniFile : List Char → Option (List (String × Option ℤ))} (hreads : ReadsIni readIniFile)
    (hbuild : buildTree unknownShares files next = .ok start) (hreached : Reached start st)
    (hdistinct : st.1.names.Nodup) (hplain : ∀ name ∈ st.1.names, PlainName name)
    (unknownShares' : ℤ) (next' : ℕ) :
    ∃ tree next'',
      buildTree unknownShares' { files with ini := readIniFile st.1.dumpToIni } next'
          = .ok (tree, next'') ∧
        (∀ ginfo ∈ st.1.groups, ginfo.usage ≠ 1 → ∃ restored ∈ tree.groups,
          restored.name = ginfo.name ∧ restored.usage = ginfo.usage ∧
            restored.tempUsage = ginfo.usage) ∧
        ∀ restored ∈ tree.groups,
          (∀ ginfo ∈ st.1.groups, ginfo.usage ≠ 1 → ginfo.name ≠ restored.name) →
            restored.usage = 1 := by
  have hdumped : (st.1.dump.map Prod.fst).Sublist st.1.names := by
    rw [FairshareTree.dump, List.map_map]
    exact (List.filter_sublist).map GroupInfo.name
  have hini : readIniFile st.1.dumpToIni
      = some (st.1.dump.map (fun entry => (entry.1, some entry.2))) := by
    rw [dumpToIni_eq]
    apply hreads
    · intro entry hentry
      exact hplain _ (hdumped.subset (List.mem_map_of_mem hentry))
    · exact hdistinct.sublist hdumped
  rw [hini]
  have hreadable : Readable
      { files with ini := some (st.1.dump.map (fun entry => (entry.1, some entry.2))) } :=
    (usageOf_buildTree hbuild).1
  obtain ⟨tree, next'', hrebuild⟩ := buildTree_isOk hreadable unknownShares' next'
  refine ⟨tree, next'', hrebuild, ?_⟩
  have hnodup : tree.names.Nodup := by
    refine hreached.nodup_rebuilt hbuild hdistinct ?_ hrebuild
    rfl
  have hequal : UsagesEqual tree := usagesEqual_buildTree rfl hrebuild
  -- what is recorded in the new file
  have hassigned : assignments
      { files with ini := some (st.1.dump.map (fun entry => (entry.1, some entry.2))) }
        = st.1.dump := by
    have hall : ∀ entry ∈ st.1.dump.map (fun entry => (entry.1, some entry.2)),
        entry.2.isSome = true := by
      intro entry hentry
      obtain ⟨_, _, rfl⟩ := List.mem_map.mp hentry
      rfl
    unfold assignments
    dsimp only
    rw [if_pos (List.all_eq_true.mpr hall), List.takeWhile_eq_self_iff.mpr hall, List.map_map]
    exact List.map_id _
  have husage : tree.usageOf = st.1.dump.foldl
      (fun usage entry => Function.update usage entry.1 entry.2) (fun _ => 1) := by
    rw [(usageOf_buildTree hrebuild).2, recorded, hassigned]
  have hvalue := foldl_update_eq st.1.dump (hdistinct.sublist hdumped) (fun _ => 1)
  refine ⟨?_, ?_⟩
  · intro ginfo hginfo hne
    have hentry : (ginfo.name, ginfo.usage) ∈ st.1.dump :=
      List.mem_map.mpr ⟨ginfo, List.mem_filter.mpr ⟨hginfo, by simpa using hne⟩, rfl⟩
    have hknown : tree.usageOf ginfo.name = ginfo.usage := by
      rw [husage]
      exact (hvalue ginfo.name).1 _ hentry
    cases hfind : tree.findGinfo ginfo.name with
    | none =>
        rw [FairshareTree.usageOf, hfind] at hknown
        exact absurd hknown.symm hne
    | some restored =>
        rw [usageOf_of_find hfind] at hknown
        refine ⟨restored, mem_of_find hfind, named_iff.mp (find_passes hfind), hknown, ?_⟩
        rw [hequal restored (mem_of_find hfind), hknown]
  · intro restored hrestored hother
    rw [← usageOf_of_mem hnodup hrestored, husage]
    refine (hvalue restored.name).2 ?_
    intro hmem
    obtain ⟨entry, hentry, hname⟩ := List.mem_map.mp hmem
    obtain ⟨ginfo, hginfo, rfl⟩ := List.mem_map.mp hentry
    rw [List.mem_filter] at hginfo
    exact hother ginfo hginfo.1 (by simpa using hginfo.2) hname

/-- A tree in use: an account has been added, and all accounts have used something. -/
def busyTree : FairshareTree × ℕ :=
  ((findAllocGinfo (savedTree, 3) "bob").2.1.mapUsage (fun ginfo =>
    if ginfo.name = "bob" then (300, 420) else (ginfo.usage + 7, ginfo.tempUsage)),
    (findAllocGinfo (savedTree, 3) "bob").2.2)

/-- Its usages are restored. -/
theorem usages_restored_busy :
    ∃ tree next,
      buildTree 10 { savedFiles with ini := readIniLines busyTree.1.dumpToIni } 0
          = .ok (tree, next) ∧
        (∀ ginfo ∈ busyTree.1.groups, ginfo.usage ≠ 1 → ∃ restored ∈ tree.groups,
          restored.name = ginfo.name ∧ restored.usage = ginfo.usage ∧
            restored.tempUsage = ginfo.usage) ∧
        ∀ restored ∈ tree.groups,
          (∀ ginfo ∈ busyTree.1.groups, ginfo.usage ≠ 1 → ginfo.name ≠ restored.name) →
            restored.usage = 1 := by
  have hreached : Reached (savedTree, 3) busyTree :=
    .usages (.findAllocGinfo .start "bob") _
  apply usages_restored readsIni_readIniLines buildTree_savedFiles hreached
  · decide +kernel
  · decide +kernel

end PlanSched.Fairshare
