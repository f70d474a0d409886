/-
# Fairshare trees across a reload

The usage of every account is kept in the fairshare tree of its queue
(`logic/FairshareTree.cpp`, `fairshare.cpp`).  Trees are built from files when a job of
their queue is first looked up; `reinit_config` frees all of them.  From cycle to cycle
`p_last_running` (`SchedulerRealm.cpp`) keeps, for every running job, the address of its
account's node.

* `FairshareTree` is a tree, which always has the group `unknown`; `calcFairSharePerc`,
  `findAllocGinfo`, `readConfiguration` and `readUsage` are its functions, `buildTree` its
  constructor;
* `World.getTree`, `World.lookupGinfo`, `updateFairshare` and `updateLastRunning` are
  what the scheduler does with the trees, `World.reload` what the reload does;
* `recorded` is the usage a file has for a group, and `usageOf_buildTree` says that this
  is what a new tree knows;
* `During` are the states from the reload to the end of the next cycle, and
  `history_kept_iff` says when the reload keeps the history.
-/
import PlanSched.CheckedRun
import PlanSched.DataTypes
import PlanSched.Configuration
import PlanSched.Resource
import PlanSched.SiblingTree

namespace PlanSched.Fairshare

open CheckedRun CText

/-! ## The tree -/

/-- `group_info`, with the address of the node.  A percentage is an exact rational here, and `none`
where it comes from an undefined sum or a division by zero; the resource groups, which nothing
reads, are left out. -/
structure GroupInfo where
  addr : ℕ
  name : String
  shares : ℤ
  percentage : Option ℚ
  usage : ℤ
  tempUsage : ℤ
  deriving DecidableEq, Repr

/-- The group without its percentage. -/
def GroupInfo.core (ginfo : GroupInfo) : GroupInfo := { ginfo with percentage := none }

/-- The address is kept. -/
theorem addr_of_core {ginfo ginfo' : GroupInfo} (h : ginfo.core = ginfo'.core) :
    ginfo.addr = ginfo'.addr := by
  have haddr := congrArg GroupInfo.addr h
  exact haddr

/-- So is the usage. -/
theorem usage_of_core {ginfo ginfo' : GroupInfo} (h : ginfo.core = ginfo'.core) :
    ginfo.usage = ginfo'.usage := by
  have husage := congrArg GroupInfo.usage h
  exact husage

/-- The test of `find_ginfo`. -/
def named (name : String) (ginfo : GroupInfo) : Bool := ginfo.name = name

/-- The loop of `count_shares`; a sum that is no `int` is undefined. -/
def sumShares (shares : ℤ) : SiblingTree GroupInfo → Option ℤ
  | .null => some shares
  | .node ginfo sibling _ =>
      if -(2 ^ 31) ≤ shares + ginfo.shares ∧ shares + ginfo.shares < 2 ^ 31 then
        sumShares (shares + ginfo.shares) sibling
      else none

/-- `count_shares`: the shares of a group and the siblings after it. -/
def countShares (grp : SiblingTree GroupInfo) : Option ℤ := sumShares 0 grp

/-- The percentage of a group with some of the `total` shares below a group with the percentage
`parent`. -/
def sharePerc (shares : ℤ) (total : Option ℤ) (parent : Option ℚ) : Option ℚ :=
  match total, parent with
  | some total, some parent => if total = 0 then none else some (shares / total * parent)
  | _, _ => none

/-- `calc_fair_share_perc`, for a group whose parent has the percentage `parent`. -/
def calcFairSharePerc (parent : Option ℚ) :
    SiblingTree GroupInfo → Option ℤ → SiblingTree GroupInfo
  | .null, _ => .null
  | .node ginfo sibling child, shares =>
      let curShares :=
        if shares = some rescUnspecified then countShares (.node ginfo sibling child) else shares
      let percentage := sharePerc ginfo.shares curShares parent
      .node { ginfo with percentage := percentage } (calcFairSharePerc parent sibling curShares)
        (calcFairSharePerc percentage child (some rescUnspecified))

/-- `calc_fair_share_perc` for the children of the root. -/
def calcRootPerc : SiblingTree GroupInfo → SiblingTree GroupInfo
  | .null => .null
  | .node root sibling child =>
      .node root sibling (calcFairSharePerc root.percentage child (some rescUnspecified))

/-- A new child of the first group `unknown`, and the percentages of all its children. -/
def addUnknown (root : SiblingTree GroupInfo) (ginfo : GroupInfo) : SiblingTree GroupInfo :=
  (root.addFirst (named "unknown") ginfo).updateChild (named "unknown")
    (fun unknown child => calcFairSharePerc unknown.percentage child (some rescUnspecified))

/-- Computing percentages changes nothing else. -/
theorem relabel_calcFairSharePerc (tree : SiblingTree GroupInfo) :
    ∀ (parent : Option ℚ) (shares : Option ℤ),
      (calcFairSharePerc parent tree shares).relabel GroupInfo.core
        = tree.relabel GroupInfo.core := by
  induction tree with
  | null => exact fun parent shares => rfl
  | node ginfo sibling child ihs ihc =>
      intro parent shares
      rw [calcFairSharePerc, SiblingTree.relabel, SiblingTree.relabel, ihs, ihc]
      rfl

/-- The percentages below the root. -/
theorem relabel_calcRootPerc (tree : SiblingTree GroupInfo) :
    (calcRootPerc tree).relabel GroupInfo.core = tree.relabel GroupInfo.core := by
  cases tree with
  | null => rfl
  | node root sibling child =>
      rw [calcRootPerc, SiblingTree.relabel, SiblingTree.relabel, relabel_calcFairSharePerc]

/-- A group under `unknown` is a new child there. -/
theorem relabel_addUnknown (root : SiblingTree GroupInfo) (ginfo : GroupInfo) :
    (addUnknown root ginfo).relabel GroupInfo.core
      = (root.addFirst (named "unknown") ginfo).relabel GroupInfo.core :=
  SiblingTree.relabel_updateChild (fun _ child => relabel_calcFairSharePerc child _ _) _

/-- A search by name ends alike in trees that differ in percentages. -/
theorem find_core {t t' : SiblingTree GroupInfo}
    (h : t.relabel GroupInfo.core = t'.relabel GroupInfo.core) (name : String) :
    (t.find (named name)).map GroupInfo.core = (t'.find (named name)).map GroupInfo.core := by
  have hcore : ∀ ginfo : GroupInfo, named name ginfo.core = named name ginfo := fun _ => rfl
  rw [← SiblingTree.find_relabel hcore, ← SiblingTree.find_relabel hcore, h]

/-- So a group is in both or in none. -/
theorem isSome_find_core {t t' : SiblingTree GroupInfo}
    (h : t.relabel GroupInfo.core = t'.relabel GroupInfo.core) {name : String}
    (hfind : (t'.find (named name)).isSome) : (t.find (named name)).isSome := by
  have hcore := congrArg Option.isSome (find_core h name)
  rw [Option.isSome_map, Option.isSome_map] at hcore
  exact hcore.trans hfind

/-- The groups of one are those of the other, but for their percentages. -/
theorem mem_core {t t' : SiblingTree GroupInfo}
    (h : t.relabel GroupInfo.core = t'.relabel GroupInfo.core) {ginfo : GroupInfo}
    (hmem : ginfo ∈ t.toList) : ∃ ginfo' ∈ t'.toList, ginfo'.core = ginfo.core := by
  have hlists := congrArg SiblingTree.toList h
  rw [SiblingTree.toList_relabel, SiblingTree.toList_relabel] at hlists
  have hcore : ginfo.core ∈ t'.toList.map GroupInfo.core := by
    rw [← hlists]
    exact List.mem_map_of_mem hmem
  exact List.mem_map.mp hcore

/-- `FairshareTree`; the group `unknown` is there from the beginning and never leaves. -/
structure FairshareTree where
  root : SiblingTree GroupInfo
  hasUnknown : (root.find (named "unknown")).isSome

/-- `find_ginfo`. -/
def FairshareTree.findGinfo (tree : FairshareTree) (name : String) : Option GroupInfo :=
  tree.root.find (named name)

/-- `add_child`, to the node that `find_ginfo` finds for `parent`. -/
def FairshareTree.addChild (tree : FairshareTree) (parent : String) (ginfo : GroupInfo) :
    FairshareTree :=
  ⟨tree.root.addFirst (named parent) ginfo, SiblingTree.isSome_find_addFirst tree.hasUnknown⟩

/-- `add_unknown`. -/
def FairshareTree.addUnknown (tree : FairshareTree) (ginfo : GroupInfo) : FairshareTree where
  root := Fairshare.addUnknown tree.root ginfo
  hasUnknown := isSome_find_core (relabel_addUnknown tree.root ginfo)
    (SiblingTree.isSome_find_addFirst tree.hasUnknown)

/-- The percentages of a tree that has been read. -/
def FairshareTree.calcPercentages (tree : FairshareTree) : FairshareTree :=
  ⟨calcRootPerc tree.root, isSome_find_core (relabel_calcRootPerc tree.root) tree.hasUnknown⟩

/-- Set both usages of the node that `find_ginfo` finds. -/
def FairshareTree.setUsage (tree : FairshareTree) (name : String) (usage : ℤ) : FairshareTree where
  root := tree.root.modifyFirst (named name)
    (fun ginfo => { ginfo with usage := usage, tempUsage := usage })
  hasUnknown := by
    by_cases h : name = "unknown"
    · rw [h, SiblingTree.find_modifyFirst_self, Option.isSome_map]
      · exact tree.hasUnknown
      · intro ginfo hname
        exact hname
    · rw [SiblingTree.find_modifyFirst_ne]
      · exact tree.hasUnknown
      · intro ginfo hname
        have hne : ¬ ginfo.name = "unknown" := by
          simp only [named, decide_eq_true_eq] at hname
          rwa [hname]
        exact ⟨decide_eq_false hne, decide_eq_false hne⟩

/-- Change the usages of all nodes. -/
def FairshareTree.mapUsage (tree : FairshareTree) (f : GroupInfo → ℤ × ℤ) : FairshareTree where
  root := tree.root.map (fun ginfo =>
    { ginfo with usage := (f ginfo).1, tempUsage := (f ginfo).2 })
  hasUnknown := by
    rw [SiblingTree.find_map, Option.isSome_map]
    · exact tree.hasUnknown
    · intro ginfo
      rfl

/-- `new_group_info`, with its name and shares. -/
def newGroupInfo (addr : ℕ) (name : String) (shares : ℤ) : GroupInfo :=
  { addr := addr, name := name, shares := shares, percentage := some 0, usage := 1, tempUsage := 1 }

/-- `init_fairshare_root`: the root and the group `unknown` with its configured shares; `next` is
the next address. -/
def initFairshareRoot (unknownShares : ℤ) (next : ℕ) : FairshareTree × ℕ :=
  (⟨.node { newGroupInfo next "root" rescUnspecified with percentage := some 1 } .null
      (.node (newGroupInfo (next + 1) "unknown" unknownShares) .null .null), rfl⟩, next + 2)

/-- `find_alloc_ginfo`: a group that is not in the tree is added under `unknown`. -/
def findAllocGinfo (st : FairshareTree × ℕ) (name : String) :
    GroupInfo × (FairshareTree × ℕ) :=
  match st.1.findGinfo name with
  | some ginfo => (ginfo, st)
  | none =>
      let ginfo := newGroupInfo st.2 name 1
      let tree := st.1.addUnknown ginfo
      -- the node of the tree, with its percentage
      ((tree.findGinfo name).getD ginfo, (tree, st.2 + 1))

/-! ## The files -/

/-- What ends the construction of a tree: an exception, or a null pointer. -/
inductive Failure : Type where
  | exception (text : String) : Failure
  | crash : Failure
  deriving DecidableEq, Repr

/-- The files of a tree; `none` for one that cannot be opened.  The entries of the file in the ini
format are those `boost::property_tree` reads, with `none` for a value that is no number. -/
structure TreeFiles where
  resourceGroup : Option (List Char)
  ini : Option (List (String × Option ℤ))
  usage : Option (List (String × ℤ))

/-- The error of a line of the resource group file. -/
def badLine : Failure := .exception "Error while parsing resource_group file."

/-- The four words of a line: the name of the group, the resource group of its children, its
parent and its shares. -/
def lineTokens (text : List Char) :
    Option (List Char × List Char × List Char × List Char) := do
  let (nametok, rest) ← strtok isBlank text
  let (cgrouptok, rest) ← strtok isBlank rest
  let (grouptok, rest) ← strtok isBlank rest
  let (sharestok, _) ← strtok isBlank rest
  return (nametok, cgrouptok, grouptok, sharestok)

/-- One line of `read_configuration`; a missing word is a null pointer. -/
def readConfigurationLine (st : FairshareTree × ℕ) (line : List Char) :
    Except Failure (FairshareTree × ℕ) :=
  let text := stripNewline line
  if skipLine text then .ok st
  else
    match lineTokens text with
    | none => .error .crash
    | some (nametok, cgrouptok, grouptok, sharestok) =>
        let parent := String.ofList grouptok
        let (_, tree, next) := findAllocGinfo st parent
        if (strtol sharestok).2 ≠ [] then .error badLine
        else if (strtol cgrouptok).2 ≠ [] then .error badLine
        else
          -- `shares` is an `int`
          .ok (tree.addChild parent
            (newGroupInfo next (String.ofList nametok) (atoi sharestok)), next + 1)

/-- `read_configuration`. -/
def readConfiguration (files : TreeFiles) (st : FairshareTree × ℕ) :
    Except Failure (FairshareTree × ℕ) :=
  match files.resourceGroup with
  | none => .error (.exception "Couldn't open resource_group file.")
  | some text => (fgetsLines text []).foldlM readConfigurationLine st

/-- One recorded usage: the group is found or added, and its usages are set. -/
def readEntry (st : FairshareTree × ℕ) (entry : String × ℤ) : FairshareTree × ℕ :=
  let (_, tree, next) := findAllocGinfo st entry.1
  (tree.setUsage entry.1 entry.2, next)

/-- The loop over the ini file; a value that is no number ends it. -/
def readIni (st : FairshareTree × ℕ) : List (String × Option ℤ) → (FairshareTree × ℕ) × Bool
  | [] => (st, true)
  | (name, some usage) :: rest => readIni (readEntry st (name, usage)) rest
  | (name, none) :: _ => ((findAllocGinfo st name).2, false)

/-- The old file, if it can be opened. -/
def readOldUsage (files : TreeFiles) (st : FairshareTree × ℕ) : FairshareTree × ℕ :=
  (files.usage.getD []).foldl readEntry st

/-- `read_usage`: the ini file, or what could be read of it and then the old file. -/
def readUsage (files : TreeFiles) (st : FairshareTree × ℕ) : FairshareTree × ℕ :=
  match files.ini with
  | none => readOldUsage files st
  | some entries =>
      let (st, done) := readIni st entries
      if done then st else readOldUsage files st

/-- The constructor of `FairshareTree`. -/
def buildTree (unknownShares : ℤ) (files : TreeFiles) (next : ℕ) :
    Except Failure (FairshareTree × ℕ) := do
  let (tree, next) ← readConfiguration files (initFairshareRoot unknownShares next)
  return readUsage files (tree.calcPercentages, next)

/-! ## The scheduler's trees -/

/-- `prev_job_info`: a job that was running, with the address of its account's node and the
walltime it had used. -/
structure PrevJobInfo where
  name : String
  account : String
  ginfo : ℕ
  resused : ℤ
  deriving DecidableEq, Repr

/-- What is kept from cycle to cycle: the configured shares of `unknown`, the map of trees, the
records of the last cycle, the next address, and the files. -/
structure World where
  unknownShares : ℤ
  trees : List (String × FairshareTree)
  lastRunning : List PrevJobInfo
  next : ℕ
  files : String → TreeFiles
  lastDecay : Option ℤ
  lastSync : ℤ

/-- `get_tree`: a tree that is not there is built. -/
def World.getTree (world : World) (name : String) : Except Failure (FairshareTree × World) :=
  match world.trees.lookup name with
  | some tree => .ok (tree, world)
  | none => do
      let (tree, next) ← buildTree world.unknownShares (world.files name) world.next
      return (tree, { world with trees := (name, tree) :: world.trees, next := next })

/-- Store a tree that is in the map. -/
def World.setTree (world : World) (name : String) (tree : FairshareTree) : World :=
  { world with
    trees := world.trees.map (fun entry => if entry.1 = name then (name, tree) else entry) }

/-- The look-up of `query_jobs`: `get_tree` and `find_alloc_ginfo`. -/
def World.lookupGinfo (world : World) (treeName account : String) :
    Except Failure (GroupInfo × World) := do
  let (tree, world) ← world.getTree treeName
  let (ginfo, tree, next) := findAllocGinfo (tree, world.next) account
  return (ginfo, { world.setTree treeName tree with next := next })

/-- The address is one of a node of a live tree. -/
def World.IsLive (world : World) (addr : ℕ) : Prop :=
  ∃ entry ∈ world.trees, ∃ ginfo ∈ entry.2.root.toList, ginfo.addr = addr

instance (world : World) (addr : ℕ) : Decidable (world.IsLive addr) :=
  inferInstanceAs (Decidable (∃ entry ∈ world.trees, ∃ ginfo ∈ entry.2.root.toList, _))

/-- `reinit_config`, as far as it concerns fairshare: `free_fairshare_trees`, and the shares of
`unknown` that are configured now. -/
def World.reload (world : World) (unknownShares : ℤ) : World :=
  { world with trees := [], unknownShares := unknownShares }

/-- A job of the snapshot: what fairshare reads of it.  `resused` is the walltime it has used,
`procs` the number of processors it asks for. -/
structure CycleJob where
  jobId : String
  state : JobState
  fairshareTree : String
  account : String
  resused : ℤ
  calculatedFairshare : ℚ
  procs : Option ℤ
  deriving DecidableEq, Repr

/-- What the cycle runs with. -/
structure CycleConf where
  fairShare : Bool
  now : ℤ
  halfLife : ℤ
  syncTime : ℤ

/-- Write the usages of a node; following an address that is not live any more is a crash. -/
def World.setUsageAt (world : World) (addr : ℕ) (f : GroupInfo → ℤ × ℤ) : Except Failure World :=
  if world.IsLive addr then
    .ok { world with
      trees := world.trees.map (fun entry => (entry.1, entry.2.mapUsage (fun ginfo =>
        if ginfo.addr = addr then f ginfo else (ginfo.usage, ginfo.tempUsage)))) }
  else .error .crash

/-- The conversion of a `double` to an integer. -/
def truncate (x : ℚ) : ℤ := if 0 ≤ x then ⌊x⌋ else ⌈x⌉

/-- The usage a job has accumulated since the last cycle. -/
def addedUsage (job : CycleJob) (previous : PrevJobInfo) (usage : ℤ) : Except Failure ℤ :=
  let used := job.resused - previous.resused + 5 * 60
  if job.calculatedFairshare ≠ 0 then
    .ok (truncate ((usage : ℚ) + used * job.calculatedFairshare))
  else
    match job.procs with
    | none => .error .crash
    | some procs => .ok (usage + used * procs)

/-- The first loop of `update_fairshare` for one record. -/
def chargeJob (jobs : List CycleJob) (world : World) (previous : PrevJobInfo) :
    Except Failure World :=
  let ended (job : CycleJob) : Bool :=
    job.state = .completed || job.state = .exiting || job.state = .running
  match jobs.find? (fun job => ended job && job.jobId = previous.name) with
  | none => .ok world
  | some job => do
      -- the usage is read from the node before it is written
      let ginfos := world.trees.flatMap (fun entry => entry.2.root.toList)
      match ginfos.find? (fun ginfo => ginfo.addr = previous.ginfo) with
      | none => .error .crash
      | some ginfo =>
          let usage ← addedUsage job previous ginfo.usage
          world.setUsageAt previous.ginfo (fun ginfo => (usage, ginfo.tempUsage))

/-- `decay`: half of the usage, but not less than one. -/
def FairshareTree.decay (tree : FairshareTree) : FairshareTree :=
  tree.mapUsage (fun ginfo =>
    (if ginfo.usage.tdiv 2 = 0 then 1 else ginfo.usage.tdiv 2, ginfo.tempUsage))

/-- `decay_fairshare_trees`. -/
def World.decayTrees (world : World) : World :=
  { world with trees := world.trees.map (fun entry => (entry.1, entry.2.decay)) }

/-- The loop over the half lives that have passed; without a positive half life it has no end. -/
def decayLoop (halfLife lastDecay : ℤ) : ℕ → ℤ → World → Except Failure World
  | 0, t, world => if t - lastDecay > halfLife then .error .crash else .ok world
  | fuel + 1, t, world =>
      if t - lastDecay > halfLife then
        decayLoop halfLife lastDecay fuel (t - halfLife) world.decayTrees
      else .ok world

/-- `dump_to_file` and `dump_to_ini`: all usages but the default one. -/
def FairshareTree.dump (tree : FairshareTree) : List (String × ℤ) :=
  (tree.root.toList.filter (fun ginfo => ginfo.usage ≠ 1)).map
    (fun ginfo => (ginfo.name, ginfo.usage))

/-- `write_usages`: the usage files of all live trees. -/
def World.writeUsages (world : World) : World :=
  { world with
    files := fun name =>
      match world.trees.lookup name with
      | none => world.files name
      | some tree =>
          { world.files name with
            ini := some (tree.dump.map (fun entry => (entry.1, some entry.2)))
            usage := some tree.dump } }

/-- `World::update_fairshare`. -/
def updateFairshare (conf : CycleConf) (jobs : List CycleJob) (world : World) :
    Except Failure World :=
  if ¬ conf.fairShare then .ok world
  else do
    let world ← world.lastRunning.foldlM (chargeJob jobs) world
    let world ← world.lastRunning.foldlM
      (fun world previous => world.setUsageAt previous.ginfo
        (fun ginfo => (ginfo.usage, ginfo.usage))) world
    let lastDecay := world.lastDecay.getD 0
    let due := conf.now - lastDecay > conf.halfLife
    let world ← decayLoop conf.halfLife lastDecay (conf.now - lastDecay).toNat conf.now world
    let world :=
      if due then
        { world with
          lastDecay := some (conf.now - (conf.now - lastDecay).tmod conf.halfLife) }
      else world
    if conf.now - world.lastSync > conf.syncTime then
      return { world.writeUsages with lastSync := conf.now }
    else
      return world

/-- `World::update_last_running`, for the running jobs with their nodes. -/
def updateLastRunning (running : List (CycleJob × ℕ)) (world : World) : World :=
  { world with
    lastRunning := running.map (fun entry =>
      { name := entry.1.jobId, account := entry.1.account, ginfo := entry.2
        resused := entry.1.resused }) }

/-! ## What the files say -/

/-- The usages that `read_usage` reads, in order. -/
def assignments (files : TreeFiles) : List (String × ℤ) :=
  match files.ini with
  | none => files.usage.getD []
  | some entries =>
      let numbers := (entries.takeWhile (fun entry => entry.2.isSome)).map
        (fun entry => (entry.1, entry.2.getD 0))
      if entries.all (fun entry => entry.2.isSome) then numbers
      else numbers ++ files.usage.getD []

/-- The usage that is recorded for a group: the last one that is read, 1 without any. -/
def recorded (files : TreeFiles) : String → ℤ :=
  (assignments files).foldl (fun usage entry => Function.update usage entry.1 entry.2) (fun _ => 1)

/-- The line of the resource group file is skipped or has its four words and numbers. -/
def LineOk (line : List Char) : Prop :=
  skipLine (stripNewline line) = true ∨
    ∃ nametok cgrouptok grouptok sharestok,
      lineTokens (stripNewline line) = some (nametok, cgrouptok, grouptok, sharestok) ∧
        (strtol sharestok).2 = [] ∧ (strtol cgrouptok).2 = []

/-- The resource group file can be read. -/
def Readable (files : TreeFiles) : Prop :=
  ∃ text, files.resourceGroup = some text ∧ ∀ line ∈ fgetsLines text [], LineOk line

/-- The usage the tree has for a name, 1 for one that is not in it. -/
def FairshareTree.usageOf (tree : FairshareTree) (name : String) : ℤ :=
  ((tree.findGinfo name).map GroupInfo.usage).getD 1

variable {st : FairshareTree × ℕ} {tree : FairshareTree} {files : TreeFiles} {name : String}

/-- A node is found by its own name only. -/
theorem named_iff {ginfo : GroupInfo} : named name ginfo = true ↔ ginfo.name = name := by
  simp [named]

/-- A group that is in the tree has its own usage. -/
theorem usageOf_of_find {ginfo : GroupInfo} (h : tree.findGinfo name = some ginfo) :
    tree.usageOf name = ginfo.usage := by
  rw [FairshareTree.usageOf, h]
  rfl

/-- A new group under `unknown` is found. -/
theorem find_addChild_unknown (h : tree.findGinfo name = none) (addr : ℕ) (shares : ℤ) :
    (tree.addChild "unknown" (newGroupInfo addr name shares)).findGinfo name
      = some (newGroupInfo addr name shares) := by
  have hname : named name (newGroupInfo addr name shares) = true := named_iff.mpr rfl
  exact SiblingTree.find_addFirst_self hname h tree.hasUnknown

/-- `find_alloc_ginfo` returns the node of the name. -/
theorem find_findAllocGinfo (st : FairshareTree × ℕ) (name : String) :
    (findAllocGinfo st name).2.1.findGinfo name = some (findAllocGinfo st name).1 := by
  unfold findAllocGinfo
  split
  · assumption
  · rename_i hnone
    dsimp only
    have hfound : ((st.1.addUnknown (newGroupInfo st.2 name 1)).findGinfo name).isSome := by
      refine isSome_find_core (relabel_addUnknown st.1.root _) ?_
      rw [show st.1.root.addFirst (named "unknown") (newGroupInfo st.2 name 1)
        = (st.1.addChild "unknown" (newGroupInfo st.2 name 1)).root from rfl]
      exact Option.isSome_of_eq_some (find_addChild_unknown hnone st.2 1)
    obtain ⟨ginfo, hginfo⟩ := Option.isSome_iff_exists.mp hfound
    rw [hginfo]
    rfl

/-- Percentages change no usage. -/
theorem usageOf_core {tree' : FairshareTree}
    (h : tree.root.relabel GroupInfo.core = tree'.root.relabel GroupInfo.core) :
    tree.usageOf = tree'.usageOf := by
  funext other
  have hfind := congrArg (Option.map GroupInfo.usage) (find_core h other)
  rw [Option.map_map, Option.map_map] at hfind
  exact congrArg (fun usage => usage.getD 1) hfind

/-- A new group has the default usage, and no other usage changes. -/
theorem usageOf_findAllocGinfo (st : FairshareTree × ℕ) (name : String) :
    (findAllocGinfo st name).2.1.usageOf = st.1.usageOf := by
  unfold findAllocGinfo
  split
  · rfl
  · rename_i hnone
    have hadded : (st.1.addUnknown (newGroupInfo st.2 name 1)).usageOf
        = (st.1.addChild "unknown" (newGroupInfo st.2 name 1)).usageOf :=
      usageOf_core (relabel_addUnknown st.1.root _)
    refine hadded.trans ?_
    funext other
    by_cases hother : other = name
    · rw [hother, usageOf_of_find (find_addChild_unknown hnone st.2 1), FairshareTree.usageOf,
        hnone]
      rfl
    · have hne : named other (newGroupInfo st.2 name 1) = false := by
        rw [← Bool.not_eq_true, named_iff]
        exact Ne.symm hother
      unfold FairshareTree.usageOf FairshareTree.findGinfo FairshareTree.addChild
      rw [SiblingTree.find_addFirst_ne hne]

/-- Setting a usage. -/
theorem usageOf_setUsage (h : (tree.findGinfo name).isSome) (usage : ℤ) :
    (tree.setUsage name usage).usageOf = Function.update tree.usageOf name usage := by
  funext other
  unfold FairshareTree.usageOf FairshareTree.findGinfo FairshareTree.setUsage
  by_cases hother : other = name
  · obtain ⟨ginfo, hginfo⟩ := Option.isSome_iff_exists.mp h
    rw [hother, Function.update_self, SiblingTree.find_modifyFirst_self]
    · rw [show tree.root.find (named name) = some ginfo from hginfo]
      rfl
    · intro other hname
      exact hname
  · rw [Function.update_of_ne hother, SiblingTree.find_modifyFirst_ne]
    intro ginfo hname
    have hne : named other ginfo = false := by
      rw [← Bool.not_eq_true, named_iff, named_iff.mp hname]
      exact Ne.symm hother
    exact ⟨hne, hne⟩

/-- Reading an entry sets its usage. -/
theorem usageOf_readEntry (st : FairshareTree × ℕ) (entry : String × ℤ) :
    (readEntry st entry).1.usageOf = Function.update st.1.usageOf entry.1 entry.2 := by
  have hfound : ((findAllocGinfo st entry.1).2.1.findGinfo entry.1).isSome := by
    rw [find_findAllocGinfo]
    rfl
  rw [← usageOf_findAllocGinfo st entry.1]
  exact usageOf_setUsage hfound entry.2

/-! ## A new tree knows what the files say -/

/-- Reading entries, one after the other. -/
theorem usageOf_readEntries (entries : List (String × ℤ)) (st : FairshareTree × ℕ) :
    (entries.foldl readEntry st).1.usageOf =
      entries.foldl (fun usage entry => Function.update usage entry.1 entry.2) st.1.usageOf := by
  induction entries generalizing st with
  | nil => rfl
  | cons entry rest ih => rw [List.foldl_cons, List.foldl_cons, ih, usageOf_readEntry]

/-- Reading the ini file sets the usages before the first value that is no number. -/
theorem usageOf_readIni (entries : List (String × Option ℤ)) (st : FairshareTree × ℕ) :
    (readIni st entries).1.1.usageOf =
        ((entries.takeWhile (fun entry => entry.2.isSome)).map
          (fun entry => (entry.1, entry.2.getD 0))).foldl
            (fun usage entry => Function.update usage entry.1 entry.2) st.1.usageOf ∧
      (readIni st entries).2 = entries.all (fun entry => entry.2.isSome) := by
  induction entries generalizing st with
  | nil => exact ⟨rfl, rfl⟩
  | cons entry rest ih =>
      obtain ⟨name, value⟩ := entry
      cases value with
      | none => exact ⟨usageOf_findAllocGinfo st name, rfl⟩
      | some usage =>
          obtain ⟨husage, hdone⟩ := ih (readEntry st (name, usage))
          rw [usageOf_readEntry] at husage
          exact ⟨husage, hdone⟩

/-- `read_usage` sets the recorded usages. -/
theorem usageOf_readUsage (files : TreeFiles) (st : FairshareTree × ℕ) :
    (readUsage files st).1.usageOf =
      (assignments files).foldl (fun usage entry => Function.update usage entry.1 entry.2)
        st.1.usageOf := by
  unfold readUsage assignments
  cases files.ini with
  | none => exact usageOf_readEntries _ st
  | some entries =>
      obtain ⟨husage, hdone⟩ := usageOf_readIni entries st
      simp only [hdone]
      split
      · exact husage
      · rw [readOldUsage, usageOf_readEntries, husage, List.foldl_append]

/-- All nodes have the default usage. -/
def Fresh (tree : FairshareTree) : Prop := ∀ ginfo ∈ tree.root.toList, ginfo.usage = 1

/-- Every name has the default usage in such a tree. -/
theorem Fresh.usageOf (h : Fresh tree) : tree.usageOf = fun _ => 1 := by
  funext name
  cases hfind : tree.findGinfo name with
  | none =>
      rw [FairshareTree.usageOf, hfind]
      rfl
  | some ginfo => rw [usageOf_of_find hfind, h ginfo (SiblingTree.mem_of_find hfind)]

/-- Percentages make no difference. -/
theorem Fresh.core {tree' : FairshareTree} (h : Fresh tree)
    (hcore : tree'.root.relabel GroupInfo.core = tree.root.relabel GroupInfo.core) :
    Fresh tree' := by
  intro ginfo hginfo
  obtain ⟨old, hold, heq⟩ := mem_core hcore hginfo
  exact (usage_of_core heq).symm.trans (h old hold)

/-- A new child has the default usage. -/
theorem Fresh.addChild (h : Fresh tree) (parent : String) (addr : ℕ) (name : String)
    (shares : ℤ) : Fresh (tree.addChild parent (newGroupInfo addr name shares)) := by
  intro ginfo hginfo
  rcases SiblingTree.mem_toList_addFirst hginfo with hold | hnew
  · exact h ginfo hold
  · rw [hnew]
    rfl

/-- So has a group that is added. -/
theorem Fresh.findAllocGinfo (h : Fresh st.1) (name : String) :
    Fresh (findAllocGinfo st name).2.1 := by
  unfold Fairshare.findAllocGinfo
  split
  · exact h
  · exact (h.addChild "unknown" st.2 name 1).core (relabel_addUnknown st.1.root _)

/-- What a line of the resource group file does. -/
theorem readConfigurationLine_cases {line : List Char} {st' : FairshareTree × ℕ}
    (h : readConfigurationLine st line = .ok st') :
    LineOk line ∧
      (st' = st ∨ ∃ (parent name : String) (shares : ℤ),
        st' = ((findAllocGinfo st parent).2.1.addChild parent
            (newGroupInfo (findAllocGinfo st parent).2.2 name shares),
          (findAllocGinfo st parent).2.2 + 1)) := by
  unfold readConfigurationLine at h
  simp only at h
  split at h
  · rename_i hskip
    cases h
    exact ⟨Or.inl hskip, Or.inl rfl⟩
  · split at h
    · cases h
    · rename_i nametok cgrouptok grouptok sharestok htokens
      split at h
      · cases h
      · rename_i hshares
        split at h
        · cases h
        · rename_i hcgroup
          cases h
          refine ⟨Or.inr ⟨_, _, _, _, htokens, ?_, ?_⟩, Or.inr ⟨_, _, _, rfl⟩⟩
          · exact not_not.mp hshares
          · exact not_not.mp hcgroup

/-- A good line is read from every tree. -/
theorem readConfigurationLine_isOk {line : List Char} (h : LineOk line)
    (st : FairshareTree × ℕ) : ∃ st', readConfigurationLine st line = .ok st' := by
  unfold readConfigurationLine
  rcases h with hskip | ⟨nametok, cgrouptok, grouptok, sharestok, htokens, hshares, hcgroup⟩
  · exact ⟨st, if_pos hskip⟩
  · by_cases hskip : skipLine (stripNewline line) = true
    · exact ⟨st, if_pos hskip⟩
    · simp only [hskip, htokens, hshares, hcgroup, ne_eq, not_true_eq_false, if_false,
        Bool.false_eq_true]
      exact ⟨_, rfl⟩

/-- The lines that have been read are good ones, and they leave the usages at their default. -/
theorem readLines_fresh (lines : List (List Char)) {st st' : FairshareTree × ℕ}
    (hfresh : Fresh st.1) (h : lines.foldlM readConfigurationLine st = .ok st') :
    (∀ line ∈ lines, LineOk line) ∧ Fresh st'.1 := by
  induction lines generalizing st with
  | nil =>
      cases h
      exact ⟨by simp, hfresh⟩
  | cons line rest ih =>
      rw [List.foldlM_cons] at h
      cases hline : readConfigurationLine st line with
      | error failure =>
          rw [hline] at h
          cases h
      | ok st₁ =>
          rw [hline] at h
          obtain ⟨hok, hcases⟩ := readConfigurationLine_cases hline
          have hfresh₁ : Fresh st₁.1 := by
            rcases hcases with rfl | ⟨parent, name, shares, rfl⟩
            · exact hfresh
            · exact (hfresh.findAllocGinfo parent).addChild _ _ _ _
          obtain ⟨hrest, hfresh'⟩ := ih hfresh₁ h
          exact ⟨List.forall_mem_cons.mpr ⟨hok, hrest⟩, hfresh'⟩

/-- Good lines are read. -/
theorem readLines_isOk (lines : List (List Char)) (h : ∀ line ∈ lines, LineOk line)
    (st : FairshareTree × ℕ) : ∃ st', lines.foldlM readConfigurationLine st = .ok st' := by
  induction lines generalizing st with
  | nil => exact ⟨st, rfl⟩
  | cons line rest ih =>
      obtain ⟨hline, hrest⟩ := List.forall_mem_cons.mp h
      obtain ⟨st₁, hst₁⟩ := readConfigurationLine_isOk hline st
      obtain ⟨st', hst'⟩ := ih hrest st₁
      refine ⟨st', ?_⟩
      rw [List.foldlM_cons, hst₁]
      exact hst'

/-- The root and the group `unknown` have the default usage. -/
theorem fresh_initFairshareRoot (unknownShares : ℤ) (next : ℕ) :
    Fresh (initFairshareRoot unknownShares next).1 := by
  intro ginfo hginfo
  simp only [initFairshareRoot, SiblingTree.toList, List.nil_append, List.append_nil,
    List.mem_cons, List.not_mem_nil, or_false] at hginfo
  rcases hginfo with rfl | rfl
  · rfl
  · rfl

/-- A tree is built exactly when the file is there and its lines can be read. -/
theorem buildTree_ok {unknownShares : ℤ} {next : ℕ} {result : FairshareTree × ℕ} :
    buildTree unknownShares files next = .ok result ↔
      ∃ text st, files.resourceGroup = some text ∧
        (fgetsLines text []).foldlM readConfigurationLine (initFairshareRoot unknownShares next)
          = .ok st ∧
        readUsage files (st.1.calcPercentages, st.2) = result := by
  unfold buildTree
  rw [bind_ok]
  constructor
  · rintro ⟨st, hst, h⟩
    unfold readConfiguration at hst
    split at hst
    · cases hst
    · next text htext => exact ⟨text, st, htext, hst, pure_ok.mp h⟩
  · rintro ⟨text, st, htext, hst, rfl⟩
    refine ⟨st, ?_, rfl⟩
    unfold readConfiguration
    rw [htext]
    exact hst

/-- A tree that has been built comes from a file that can be read, and knows for every group
the usage that is recorded. -/
theorem usageOf_buildTree {unknownShares : ℤ} {next n : ℕ}
    (h : buildTree unknownShares files next = .ok (tree, n)) :
    Readable files ∧ tree.usageOf = recorded files := by
  obtain ⟨text, st, hgroup, hlines, htree⟩ := buildTree_ok.mp h
  obtain ⟨hok, hfresh⟩ := readLines_fresh _ (fresh_initFairshareRoot unknownShares next) hlines
  refine ⟨⟨text, hgroup, hok⟩, ?_⟩
  have hfresh' : Fresh st.1.calcPercentages := hfresh.core (relabel_calcRootPerc st.1.root)
  have htree' : (readUsage files (st.1.calcPercentages, st.2)).1 = tree := congrArg Prod.fst htree
  rw [← htree', usageOf_readUsage, hfresh'.usageOf]
  rfl

/-- A file that can be read gives a tree. -/
theorem buildTree_isOk (h : Readable files) (unknownShares : ℤ) (next : ℕ) :
    ∃ tree n, buildTree unknownShares files next = .ok (tree, n) := by
  obtain ⟨text, hgroup, hok⟩ := h
  obtain ⟨st, hst⟩ := readLines_isOk _ hok (initFairshareRoot unknownShares next)
  exact ⟨_, _, buildTree_ok.mpr ⟨text, st, hgroup, hst, rfl⟩⟩

/-! ## Looking a group up -/

variable {world σ σ' : World} {treeName account : String} {ginfo : GroupInfo}

/-- Changing the values of a map changes what is found there. -/
theorem lookup_mapSnd (trees : List (String × FairshareTree)) (f : FairshareTree → FairshareTree)
    (name : String) :
    (trees.map (fun entry => (entry.1, f entry.2))).lookup name = (trees.lookup name).map f := by
  induction trees with
  | nil => rfl
  | cons entry rest ih =>
      rw [List.map_cons, List.lookup_cons, List.lookup_cons, ih]
      split
      · rfl
      · rfl

/-- The tree that was stored is found. -/
theorem lookup_setTree_self (h : (world.trees.lookup name).isSome) (tree : FairshareTree) :
    (world.setTree name tree).trees.lookup name = some tree := by
  unfold World.setTree
  simp only
  generalize world.trees = trees at h
  induction trees with
  | nil => cases h
  | cons entry rest ih =>
      rw [List.lookup_cons] at h
      rw [List.map_cons]
      by_cases hname : entry.1 = name
      · rw [if_pos hname, List.lookup_cons_self]
      · have hbeq : (name == entry.1) = false := by
          rw [beq_eq_false_iff_ne]
          exact Ne.symm hname
        rw [if_neg hname, List.lookup_cons, hbeq]
        rw [hbeq] at h
        exact ih h

/-- The other trees stay. -/
theorem lookup_setTree_ne {other : String} (h : other ≠ name) (tree : FairshareTree) :
    (world.setTree name tree).trees.lookup other = world.trees.lookup other := by
  unfold World.setTree
  simp only
  generalize world.trees = trees
  induction trees with
  | nil => rfl
  | cons entry rest ih =>
      rw [List.map_cons, List.lookup_cons, List.lookup_cons, ih]
      by_cases hname : entry.1 = name
      · rw [if_pos hname, hname]
        have hbeq : (other == name) = false := beq_eq_false_iff_ne.mpr h
        simp only [hbeq]
      · rw [if_neg hname]

/-- The tree a look-up starts from: the live one, or a new one built from the files. -/
def World.Source (world : World) (name : String) (tree : FairshareTree) : Prop :=
  world.trees.lookup name = some tree ∨
    (world.trees.lookup name = none ∧
      ∃ n, buildTree world.unknownShares (world.files name) world.next = .ok (tree, n))

/-- What `get_tree` does. -/
theorem getTree_cases (h : world.getTree name = .ok (tree, σ)) :
    world.Source name tree ∧ σ.trees.lookup name = some tree ∧
      (∀ other ≠ name, σ.trees.lookup other = world.trees.lookup other) ∧
      σ.lastRunning = world.lastRunning ∧ σ.files = world.files ∧
      σ.lastDecay = world.lastDecay := by
  unfold World.getTree at h
  split at h
  · rename_i hlive
    cases h
    exact ⟨Or.inl hlive, hlive, fun _ _ => rfl, rfl, rfl, rfl⟩
  · rename_i hnone
    cases hbuild : buildTree world.unknownShares (world.files name) world.next with
    | error failure =>
        rw [hbuild] at h
        cases h
    | ok built =>
        rw [hbuild] at h
        cases h
        refine ⟨Or.inr ⟨hnone, _, hbuild⟩, List.lookup_cons_self, ?_, rfl, rfl, rfl⟩
        intro other hother
        have hbeq : (other == name) = false := beq_eq_false_iff_ne.mpr hother
        rw [List.lookup_cons, hbeq]

/-- `find_alloc_ginfo` keeps the nodes, but for their percentages. -/
theorem mem_findAllocGinfo (st : FairshareTree × ℕ) (name : String) (h : ginfo ∈ st.1.root.toList) :
    ∃ ginfo' ∈ (findAllocGinfo st name).2.1.root.toList, ginfo'.core = ginfo.core := by
  unfold findAllocGinfo
  split
  · exact ⟨ginfo, h, rfl⟩
  · exact mem_core (relabel_addUnknown st.1.root _).symm (SiblingTree.mem_addFirst_of_mem h)

/-- What a look-up does: it answers with a node of the tree, which is live afterwards, with the
usage the tree had for the account. -/
structure Looked (world : World) (treeName account : String) (ginfo : GroupInfo) (σ : World) :
    Prop where
  source : ∃ tree tree', world.Source treeName tree ∧ σ.trees.lookup treeName = some tree' ∧
    tree'.usageOf = tree.usageOf ∧
    (∀ node ∈ tree.root.toList, ∃ node' ∈ tree'.root.toList, node'.core = node.core) ∧
    tree'.findGinfo account = some ginfo
  others : ∀ other ≠ treeName, σ.trees.lookup other = world.trees.lookup other
  lastRunning : σ.lastRunning = world.lastRunning
  files : σ.files = world.files
  lastDecay : σ.lastDecay = world.lastDecay

/-- `lookupGinfo` does so. -/
theorem lookupGinfo_looked (h : world.lookupGinfo treeName account = .ok (ginfo, σ)) :
    Looked world treeName account ginfo σ := by
  unfold World.lookupGinfo at h
  cases hget : world.getTree treeName with
  | error failure =>
      rw [hget] at h
      cases h
  | ok got =>
      obtain ⟨tree, world₁⟩ := got
      rw [hget] at h
      obtain ⟨hsource, hlive, hothers, hlast, hfiles, hdecay⟩ := getTree_cases hget
      cases h
      refine ⟨⟨tree, (findAllocGinfo (tree, world₁.next) account).2.1, hsource, ?_, ?_, ?_, ?_⟩,
        ?_, hlast, hfiles, hdecay⟩
      · apply lookup_setTree_self
        rw [hlive]
        rfl
      · exact usageOf_findAllocGinfo _ account
      · intro node hnode
        exact mem_findAllocGinfo _ account hnode
      · exact find_findAllocGinfo _ account
      · intro other hother
        exact (lookup_setTree_ne hother _).trans (hothers other hother)

/-- A look-up that has a tree to start from answers. -/
theorem lookupGinfo_isOk (h : Readable (world.files treeName)) (account : String) :
    ∃ ginfo σ, world.lookupGinfo treeName account = .ok (ginfo, σ) := by
  have hget : ∃ tree σ, world.getTree treeName = .ok (tree, σ) := by
    unfold World.getTree
    split
    · exact ⟨_, _, rfl⟩
    · obtain ⟨tree, n, hbuild⟩ := buildTree_isOk h world.unknownShares world.next
      rw [hbuild]
      exact ⟨_, _, rfl⟩
  obtain ⟨tree, σ, hget⟩ := hget
  unfold World.lookupGinfo
  rw [hget]
  exact ⟨_, _, rfl⟩

/-! ## From the reload to the end of the next cycle -/

/-- How far the cycle is: fetching the jobs, with those fetched so far and the addresses of their
nodes; running jobs; at its end. -/
inductive Phase : Type where
  | fetching (jobs : List (CycleJob × ℕ)) : Phase
  | running (jobs : List (CycleJob × ℕ)) : Phase
  | ended : Phase

/-- The states from `reinit_config` to the end of the next cycle. -/
inductive During (world : World) (conf : CycleConf) : Phase → World → Prop where
  | reloaded (unknownShares : ℤ) : During world conf (.fetching []) (world.reload unknownShares)
  | fetch {jobs : List (CycleJob × ℕ)} {σ σ' : World} {job : CycleJob} {ginfo : GroupInfo}
      (hσ : During world conf (.fetching jobs) σ)
      (hlookup : σ.lookupGinfo job.fairshareTree job.account = .ok (ginfo, σ')) :
      During world conf (.fetching ((job, ginfo.addr) :: jobs)) σ'
  | update {jobs : List (CycleJob × ℕ)} {σ σ' : World}
      (hσ : During world conf (.fetching jobs) σ)
      (hupdate : updateFairshare conf (jobs.reverse.map Prod.fst) σ = .ok σ') :
      During world conf (.running jobs) σ'
  /-- `update_usage_on_run`: `added` is the walltime the job asks for on all its processors. -/
  | start {jobs : List (CycleJob × ℕ)} {σ σ' : World} {job : CycleJob} {addr : ℕ} (added : ℤ)
      (hσ : During world conf (.running jobs) σ) (hjob : (job, addr) ∈ jobs)
      (hset : σ.setUsageAt addr (fun ginfo => (ginfo.usage, ginfo.tempUsage + added)) = .ok σ') :
      During world conf (.running jobs) σ'
  | finish {jobs running : List (CycleJob × ℕ)} {σ : World}
      (hσ : During world conf (.running jobs) σ) (hrunning : ∀ entry ∈ running, entry ∈ jobs) :
      During world conf .ended (if conf.fairShare then updateLastRunning running σ else σ)

/-- The reload keeps the history: in every state up to the end of the next cycle the records of
the last cycle point to nodes of live trees, and a group that is looked up has at least the
usage it had. -/
def KeepsHistory (world : World) (conf : CycleConf) : Prop :=
  ∀ phase σ, During world conf phase σ →
    (∀ previous ∈ σ.lastRunning, σ.IsLive previous.ginfo) ∧
      ∀ treeName tree, world.trees.lookup treeName = some tree →
        ∀ account ginfo, tree.findGinfo account = some ginfo →
          ∀ ginfo' σ', σ.lookupGinfo treeName account = .ok (ginfo', σ') →
            ginfo.usage ≤ ginfo'.usage

/-- Every usage of a live tree is recorded in its files, if they can be read. -/
def World.Recorded (world : World) : Prop :=
  ∀ treeName tree, world.trees.lookup treeName = some tree → Readable (world.files treeName) →
    ∀ account ginfo, tree.findGinfo account = some ginfo →
      ginfo.usage ≤ recorded (world.files treeName) account

/-! ## The invariant of the cycle -/

/-- The node with the address is in a tree that is found by its name. -/
def World.Holds (world : World) (addr : ℕ) : Prop :=
  ∃ treeName tree, world.trees.lookup treeName = some tree ∧
    ∃ ginfo ∈ tree.root.toList, ginfo.addr = addr

/-- Such a node is live. -/
theorem World.Holds.isLive {addr : ℕ} (h : world.Holds addr) : world.IsLive addr := by
  obtain ⟨treeName, tree, htree, ginfo, hginfo, haddr⟩ := h
  obtain ⟨before, after, hsplit, -⟩ := List.lookup_eq_some_iff.mp htree
  refine ⟨(treeName, tree), ?_, ginfo, hginfo, haddr⟩
  rw [hsplit]
  simp

/-- What holds in the cycle after the reload: live trees know what the files said when the
configuration was reloaded, the other files are as they were, and the nodes of the fetched jobs
are live. -/
structure Consistent (world : World) (jobs : List (CycleJob × ℕ)) (σ : World) : Prop where
  usages : ∀ treeName tree, σ.trees.lookup treeName = some tree →
    Readable (world.files treeName) ∧ tree.usageOf = recorded (world.files treeName)
  files : ∀ treeName, σ.trees.lookup treeName = none → σ.files treeName = world.files treeName
  jobs : ∀ entry ∈ jobs, σ.Holds entry.2
  lastDecay : σ.lastDecay = world.lastDecay

variable {jobs running : List (CycleJob × ℕ)} {conf : CycleConf} {phase : Phase}

/-- A look-up starts from what the files said. -/
theorem Consistent.source (h : Consistent world jobs σ) (hsource : σ.Source treeName tree) :
    Readable (world.files treeName) ∧ tree.usageOf = recorded (world.files treeName) := by
  rcases hsource with hlive | ⟨hnone, n, hbuild⟩
  · exact h.usages treeName tree hlive
  · rw [h.files treeName hnone] at hbuild
    exact usageOf_buildTree hbuild

/-- A look-up answers with the recorded usage. -/
theorem Consistent.usage_of_lookup (h : Consistent world jobs σ)
    (hlookup : σ.lookupGinfo treeName account = .ok (ginfo, σ')) :
    Readable (world.files treeName) ∧ ginfo.usage = recorded (world.files treeName) account := by
  obtain ⟨tree, tree', hsource, -, husage, -, hfind⟩ := (lookupGinfo_looked hlookup).source
  obtain ⟨hreadable, hrecorded⟩ := h.source hsource
  refine ⟨hreadable, ?_⟩
  rw [← usageOf_of_find hfind, husage, hrecorded]

/-- A look-up keeps the nodes that are found through their trees. -/
theorem Looked.holds (h : Looked σ treeName account ginfo σ') {addr : ℕ} (hold : σ.Holds addr) :
    σ'.Holds addr := by
  obtain ⟨name, tree, htree, node, hnode, haddr⟩ := hold
  obtain ⟨source, tree', hsource, htree', -, hkept, -⟩ := h.source
  by_cases hname : name = treeName
  · rw [hname] at htree
    have hsame : source = tree := by
      rcases hsource with hlive | ⟨hnone, -⟩
      · exact Option.some.inj (hlive.symm.trans htree)
      · rw [hnone] at htree
        cases htree
    rw [← hsame] at hnode
    obtain ⟨node', hnode', hcore⟩ := hkept node hnode
    exact ⟨treeName, tree', htree', node', hnode', (addr_of_core hcore).trans haddr⟩
  · exact ⟨name, tree, (h.others name hname).trans htree, node, hnode, haddr⟩

/-- After the reload there is no tree and no job. -/
theorem Consistent.reloaded (world : World) (unknownShares : ℤ) :
    Consistent world [] (world.reload unknownShares) where
  usages := by
    intro treeName tree htree
    cases htree
  files := fun _ _ => rfl
  jobs := by simp
  lastDecay := rfl

/-- Fetching a job keeps the invariant, and the job's node is live. -/
theorem Consistent.fetch (h : Consistent world jobs σ) (job : CycleJob)
    (hlooked : Looked σ treeName account ginfo σ') :
    Consistent world ((job, ginfo.addr) :: jobs) σ' := by
  obtain ⟨tree, tree', hsource, htree', husage, -, hfind⟩ := hlooked.source
  refine ⟨?_, ?_, ?_, hlooked.lastDecay.trans h.lastDecay⟩
  · intro name other hother
    by_cases hname : name = treeName
    · rw [hname, htree'] at hother
      cases hother
      rw [hname, husage]
      exact h.source hsource
    · rw [hlooked.others name hname] at hother
      exact h.usages name other hother
  · intro name hnone
    rw [hlooked.files]
    apply h.files
    by_cases hname : name = treeName
    · rw [hname, htree'] at hnone
      cases hnone
    · rwa [hlooked.others name hname] at hnone
  · intro entry hentry
    rcases List.mem_cons.mp hentry with rfl | hold
    · exact ⟨treeName, tree', htree', ginfo, SiblingTree.mem_of_find hfind, rfl⟩
    · exact hlooked.holds (h.jobs entry hold)

/-- No half life has passed. -/
theorem decayLoop_of_le {halfLife lastDecay t : ℤ} (h : t - lastDecay ≤ halfLife) (fuel : ℕ)
    (world : World) : decayLoop halfLife lastDecay fuel t world = .ok world := by
  cases fuel with
  | zero => exact if_neg (not_lt.mpr h)
  | succ fuel => exact if_neg (not_lt.mpr h)

/-- `write_usages` leaves the files of the trees alone that are not live. -/
theorem writeUsages_files (h : world.trees.lookup name = none) :
    world.writeUsages.files name = world.files name := by
  simp only [World.writeUsages, h]

/-- Without records and without decay, `update_fairshare` at most writes the files. -/
theorem updateFairshare_cases {cycleJobs : List CycleJob} (hlast : σ.lastRunning = [])
    (hdecay : conf.now - σ.lastDecay.getD 0 ≤ conf.halfLife)
    (h : updateFairshare conf cycleJobs σ = .ok σ') :
    σ' = σ ∨ σ' = { σ.writeUsages with lastSync := conf.now } := by
  have hdue : ¬ conf.now - σ.lastDecay.getD 0 > conf.halfLife := not_lt.mpr hdecay
  unfold updateFairshare at h
  split at h
  · exact Or.inl (Except.ok.inj h).symm
  · rw [hlast, List.foldlM_nil] at h
    simp only [pure_bind, List.foldlM_nil, hlast] at h
    rw [decayLoop_of_le hdecay] at h
    simp only [bind, Except.bind, if_neg hdue] at h
    split at h
    · exact Or.inr (Except.ok.inj h).symm
    · exact Or.inl (Except.ok.inj h).symm

/-- `update_fairshare` keeps the invariant. -/
theorem Consistent.update {cycleJobs : List CycleJob} (h : Consistent world jobs σ)
    (hlast : σ.lastRunning = []) (hdecay : conf.now - world.lastDecay.getD 0 ≤ conf.halfLife)
    (hupdate : updateFairshare conf cycleJobs σ = .ok σ') :
    Consistent world jobs σ' ∧ σ'.lastRunning = [] := by
  rw [← h.lastDecay] at hdecay
  rcases updateFairshare_cases hlast hdecay hupdate with rfl | rfl
  · exact ⟨h, hlast⟩
  · refine ⟨⟨h.usages, ?_, h.jobs, h.lastDecay⟩, hlast⟩
    intro treeName hnone
    rw [show ({ σ.writeUsages with lastSync := conf.now } : World).files treeName =
      σ.files treeName from writeUsages_files hnone]
    exact h.files treeName hnone

/-- Changing the temporary usages keeps the usages. -/
theorem usageOf_mapUsage {f : GroupInfo → ℤ × ℤ} (hf : ∀ ginfo, (f ginfo).1 = ginfo.usage)
    (tree : FairshareTree) : (tree.mapUsage f).usageOf = tree.usageOf := by
  funext name
  unfold FairshareTree.usageOf FairshareTree.findGinfo FairshareTree.mapUsage
  rw [SiblingTree.find_map, Option.map_map]
  · congr 2
    funext ginfo
    exact hf ginfo
  · intro ginfo
    rfl

/-- What writing to a node does. -/
theorem setUsageAt_cases {addr : ℕ} {f : GroupInfo → ℤ × ℤ} (h : σ.setUsageAt addr f = .ok σ') :
    ∃ g : GroupInfo → ℤ × ℤ,
      (∀ ginfo, g ginfo = f ginfo ∨ g ginfo = (ginfo.usage, ginfo.tempUsage)) ∧
        (∀ treeName, σ'.trees.lookup treeName =
          (σ.trees.lookup treeName).map (fun tree => tree.mapUsage g)) ∧
        σ'.lastRunning = σ.lastRunning ∧ σ'.files = σ.files ∧ σ'.lastDecay = σ.lastDecay := by
  unfold World.setUsageAt at h
  split at h
  · cases h
    refine ⟨fun ginfo => if ginfo.addr = addr then f ginfo else (ginfo.usage, ginfo.tempUsage),
      ?_, ?_, rfl, rfl, rfl⟩
    · intro ginfo
      simp only
      split
      · exact Or.inl rfl
      · exact Or.inr rfl
    · intro treeName
      exact lookup_mapSnd σ.trees (fun tree => tree.mapUsage _) treeName
  · cases h

/-- Starting a job keeps the invariant. -/
theorem Consistent.start {addr : ℕ} {added : ℤ} (h : Consistent world jobs σ)
    (hset : σ.setUsageAt addr (fun ginfo => (ginfo.usage, ginfo.tempUsage + added)) = .ok σ') :
    Consistent world jobs σ' ∧ σ'.lastRunning = σ.lastRunning := by
  obtain ⟨g, hg, htrees, hlast, hfiles, hdecay⟩ := setUsageAt_cases hset
  have hkept : ∀ ginfo, (g ginfo).1 = ginfo.usage := by
    intro ginfo
    rcases hg ginfo with hwritten | hsame
    · rw [hwritten]
    · rw [hsame]
  refine ⟨⟨?_, ?_, ?_, hdecay.trans h.lastDecay⟩, hlast⟩
  · intro treeName tree htree
    rw [htrees, Option.map_eq_some_iff] at htree
    obtain ⟨tree₀, htree₀, rfl⟩ := htree
    rw [usageOf_mapUsage hkept]
    exact h.usages treeName tree₀ htree₀
  · intro treeName hnone
    rw [htrees, Option.map_eq_none_iff] at hnone
    rw [hfiles, h.files treeName hnone]
  · intro entry hentry
    obtain ⟨treeName, tree, htree, ginfo, hginfo, haddr⟩ := h.jobs entry hentry
    refine ⟨treeName, tree.mapUsage g, ?_,
      { ginfo with usage := (g ginfo).1, tempUsage := (g ginfo).2 }, ?_, haddr⟩
    · rw [htrees, htree]
      rfl
    · rw [FairshareTree.mapUsage, SiblingTree.toList_map]
      exact List.mem_map.mpr ⟨ginfo, hginfo, rfl⟩

/-! ## When the reload keeps the history -/

/-- The fetched jobs of the phase. -/
def Phase.fetched : Phase → List (CycleJob × ℕ)
  | .fetching jobs => jobs
  | .running jobs => jobs
  | .ended => []

/-- The invariant holds in the whole cycle; until its end there is no record, and at its end the
records point to live nodes. -/
theorem During.consistent (hlast : world.lastRunning = [])
    (hdecay : conf.now - world.lastDecay.getD 0 ≤ conf.halfLife)
    (h : During world conf phase σ) :
    Consistent world phase.fetched σ ∧ (phase ≠ .ended → σ.lastRunning = []) ∧
      ∀ previous ∈ σ.lastRunning, σ.IsLive previous.ginfo := by
  -- one case for each step of the cycle
  induction h with
  | reloaded unknownShares =>
      refine ⟨Consistent.reloaded world unknownShares, fun _ => hlast, ?_⟩
      rw [show (world.reload unknownShares).lastRunning = [] from hlast]
      simp
  | fetch hσ hlookup ih =>
      obtain ⟨hconsistent, hrecords, -⟩ := ih
      have hlooked := lookupGinfo_looked hlookup
      have hnone := hlooked.lastRunning.trans (hrecords (by simp))
      refine ⟨hconsistent.fetch _ hlooked, fun _ => hnone, ?_⟩
      rw [hnone]
      simp
  | update hσ hupdate ih =>
      obtain ⟨hconsistent, hrecords, -⟩ := ih
      obtain ⟨hkept, hnone⟩ := hconsistent.update (hrecords (by simp)) hdecay hupdate
      refine ⟨hkept, fun _ => hnone, ?_⟩
      rw [hnone]
      simp
  | start added hσ hjob hset ih =>
      obtain ⟨hconsistent, hrecords, -⟩ := ih
      obtain ⟨hkept, hsame⟩ := hconsistent.start hset
      have hnone := hsame.trans (hrecords (by simp))
      refine ⟨hkept, fun _ => hnone, ?_⟩
      rw [hnone]
      simp
  | @finish jobs running σ hσ hrunning ih =>
      obtain ⟨hconsistent, hrecords, -⟩ := ih
      split
      · refine ⟨⟨hconsistent.usages, hconsistent.files, by simp [Phase.fetched],
          hconsistent.lastDecay⟩, fun h => absurd rfl h, ?_⟩
        intro previous hprevious
        obtain ⟨entry, hentry, rfl⟩ := List.mem_map.mp hprevious
        exact (hconsistent.jobs entry (hrunning entry hentry)).isLive
      · refine ⟨⟨hconsistent.usages, hconsistent.files, by simp [Phase.fetched],
          hconsistent.lastDecay⟩, fun h => absurd rfl h, ?_⟩
        rw [hrecords (by simp)]
        simp

/-- When no decay is due, a reload keeps the fairshare history exactly when there were no running
jobs at the end of the last cycle and every usage has been written to the files. -/
theorem history_kept_iff (world : World) (conf : CycleConf)
    (hdecay : conf.now - world.lastDecay.getD 0 ≤ conf.halfLife) :
    KeepsHistory world conf ↔ world.lastRunning = [] ∧ world.Recorded := by
  constructor
  · intro hkeeps
    -- right after the reload no tree is live
    obtain ⟨hlive, husage⟩ := hkeeps _ _ (During.reloaded world.unknownShares)
    constructor
    · rw [List.eq_nil_iff_forall_not_mem]
      intro previous hprevious
      obtain ⟨entry, hentry, -⟩ := hlive previous hprevious
      cases hentry
    · intro treeName tree htree hreadable account ginfo hfind
      obtain ⟨ginfo', σ', hlookup⟩ :=
        lookupGinfo_isOk
          (show Readable ((world.reload world.unknownShares).files treeName) from hreadable) account
      have hrecorded :=
        ((Consistent.reloaded world world.unknownShares).usage_of_lookup hlookup).2
      rw [← hrecorded]
      exact husage treeName tree htree account ginfo hfind ginfo' σ' hlookup
  · rintro ⟨hlast, hrecorded⟩ phase σ hσ
    obtain ⟨hconsistent, -, hlive⟩ := hσ.consistent hlast hdecay
    refine ⟨hlive, ?_⟩
    intro treeName tree htree account ginfo hfind ginfo' σ' hlookup
    obtain ⟨hreadable, husage⟩ := hconsistent.usage_of_lookup hlookup
    rw [husage]
    exact hrecorded treeName tree htree hreadable account ginfo hfind

/-- Files that record the usage of one account. -/
def savedFiles : TreeFiles where
  resourceGroup := some []
  ini := some [("alice", some 1000)]
  usage := none

/-- The tree that is read from them. -/
def savedTree : FairshareTree :=
  (readUsage savedFiles ((initFairshareRoot 10 0).1.calcPercentages, 2)).1

/-- A scheduler whose usages are all written, with no running job. -/
def savedWorld : World where
  unknownShares := 10
  trees := [("default", savedTree)]
  lastRunning := []
  next := 3
  files := fun _ => savedFiles
  lastDecay := some 0
  lastSync := 0

/-- A cycle with a half life of one day. -/
def dayConf : CycleConf where
  fairShare := true
  now := 3600
  halfLife := 86400
  syncTime := 86400

/-- The tree of that scheduler is the one its files give. -/
theorem buildTree_savedFiles : buildTree 10 savedFiles 0 = .ok (savedTree, 3) := rfl

/-- With everything written and nothing running, the reload keeps the history. -/
theorem history_kept_iff_saved :
    dayConf.now - savedWorld.lastDecay.getD 0 ≤ dayConf.halfLife ∧
      KeepsHistory savedWorld dayConf := by
  have hdecay : dayConf.now - savedWorld.lastDecay.getD 0 ≤ dayConf.halfLife := by decide
  refine ⟨hdecay, (history_kept_iff savedWorld dayConf hdecay).mpr ⟨rfl, ?_⟩⟩
  intro treeName tree htree _ account ginfo hfind
  obtain ⟨before, after, hsplit, -⟩ := List.lookup_eq_some_iff.mp htree
  have hmem : (treeName, tree) ∈ savedWorld.trees := by
    rw [hsplit]
    simp
  rw [show savedWorld.trees = [("default", savedTree)] from rfl, List.mem_singleton,
    Prod.mk.injEq] at hmem
  have husage := (usageOf_buildTree buildTree_savedFiles).2
  rw [hmem.2] at hfind
  rw [← usageOf_of_find hfind, husage]
  exact le_refl _

/-- The same scheduler a little later: a job of the account runs, and its usage has grown since the
files were written. -/
def runningWorld : World :=
  { savedWorld with
    trees := [("default", savedTree.setUsage "alice" 1300)]
    lastRunning := [{ name := "1.server", account := "alice", ginfo := 2, resused := 0 }] }

/-- Its record points to the node of the account before the reload and to no node after it, and
the account loses the usage that was not written. -/
theorem running_job_loses_history :
    (∃ previous ∈ runningWorld.lastRunning, runningWorld.IsLive previous.ginfo ∧
      ¬ (runningWorld.reload 10).IsLive previous.ginfo) ∧
    (∃ tree ginfo ginfo' σ', runningWorld.trees.lookup "default" = some tree ∧
      tree.findGinfo "alice" = some ginfo ∧
      (runningWorld.reload 10).lookupGinfo "default" "alice" = .ok (ginfo', σ') ∧
      ginfo'.usage < ginfo.usage) ∧
    ¬ KeepsHistory runningWorld dayConf := by
  have hdangling : ∃ previous ∈ runningWorld.lastRunning, runningWorld.IsLive previous.ginfo ∧
      ¬ (runningWorld.reload 10).IsLive previous.ginfo := by
    refine ⟨_, List.mem_singleton_self _, ?_, ?_⟩
    · decide +kernel
    · decide +kernel
  refine ⟨hdangling, ?_, ?_⟩
  · have hreadable : Readable ((runningWorld.reload 10).files "default") :=
      (usageOf_buildTree buildTree_savedFiles).1
    obtain ⟨ginfo', σ', hlookup⟩ := lookupGinfo_isOk hreadable "alice"
    refine ⟨_, ⟨2, "alice", 1, some 1, 1300, 1300⟩, ginfo', σ', rfl, ?_, hlookup, ?_⟩
    · decide +kernel
    · rw [((Consistent.reloaded runningWorld 10).usage_of_lookup hlookup).2]
      decide +kernel
  · intro hkeeps
    obtain ⟨previous, hprevious, -, hdead⟩ := hdangling
    exact hdead ((hkeeps _ _ (During.reloaded 10)).1 previous hprevious)

end PlanSched.Fairshare
