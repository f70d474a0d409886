/-
# The clusters of the schedule

Models `plan_update_clusters` (`plan_schedule.cpp`): at the start of every cycle the
nodes of the new server snapshot are entered into the clusters of the schedule,
which live on from cycle to cycle.  A node is looked up by name in the clusters of
its cluster name; if it is not found, it joins the first of them with its set of
properties, or founds a new one.  Nothing is ever taken out of a cluster.

A reference to a node carries the cycle of the snapshot it belongs to; the snapshot
is freed at the end of that cycle.  `FoundCluster` says once what the search for a
cluster does.

* `clusters_partition_iff`: the clusters partition the nodes in all states of a run
  exactly if the reported nodes never change cluster name or properties, and no
  property is taken for a walltime limit by mistake (`is_prefix` also holds when the
  property is the shorter text).
-/
import PlanSched.UpdateSched

namespace PlanSched

open CheckedRun

/-! ## Reported nodes -/

/-- `is_prefix`: the texts agree as far as the shorter one reaches. -/
def isPrefix : List Char → List Char → Bool
  | a :: as, b :: bs => a == b && isPrefix as bs
  | _, _ => true

/-- `filter_exclude` takes the property for a walltime limit. -/
def isExcluded (property : String) : Bool :=
  isPrefix property.toList "min_".toList || isPrefix property.toList "max_".toList

/-- `filter_exclude`. -/
def filterExclude (strings : Finset String) (selectExclude : Bool) : Finset String :=
  strings.filter (fun s => isExcluded s = selectExclude)

/-- A node of a snapshot: what the planner reads of it, and what it is put into a
cluster by.  `clusterName` may be `NULL`.  The array of jobs has a cell for each
core. -/
structure NodeReport where
  info : NodeInfo
  clusterName : Option String
  physProp : Finset String
  coresFree : ℤ
  jobs_length : ∀ jobs ∈ info.jobsOnCpu, info.coresTotal ≤ jobs.length

/-- The node's name. -/
def NodeReport.name (node : NodeReport) : String := node.info.name

/-- The cluster name of the node; a missing one is replaced by the empty text. -/
def NodeReport.cluster (node : NodeReport) : String := node.clusterName.getD ""

/-- What decides which cluster a new node belongs to. -/
def NodeReport.key (node : NodeReport) : String × Finset String :=
  (node.cluster, filterExclude node.physProp false)

/-- A pointer to a node of the snapshot of cycle `cycle`. -/
structure NodeRef where
  cycle : ℕ
  report : NodeReport

/-! ## Clusters -/

/-- One cell of `nodes_name` and `nodes` of a cluster. -/
structure NodeEntry where
  nodeName : String
  node : NodeRef

/-- The part of `plan_cluster` that lives on between cycles; `sinfo` is the cycle of
the server it was set to last. -/
structure KnownCluster where
  clusterName : String
  clusterProperties : Finset String
  entries : List NodeEntry
  numCpus : ℕ
  numRunningCpus : ℤ
  availableRam : ℤ
  sinfo : ℕ

/-- The cluster as the planner of one cycle sees it. -/
def KnownCluster.planCluster (cl : KnownCluster) : PlanCluster where
  clusterName := cl.clusterName
  nodes := cl.entries.map (fun e => e.node.report.info)
  numCpus := cl.numCpus
  numRunningCpus := cl.numRunningCpus
  numQueuedJobs := 0

/-- The names of the nodes of a cluster. -/
def KnownCluster.names (cl : KnownCluster) : List String := cl.entries.map NodeEntry.nodeName

/-- What decides which new nodes a cluster takes. -/
def KnownCluster.key (cl : KnownCluster) : String × Finset String :=
  (cl.clusterName, cl.clusterProperties)

/-- `schedule_add_cluster`. -/
def scheduleAddCluster (cycle : ℕ) (clusterName : String) (properties : Finset String) :
    KnownCluster where
  clusterName := clusterName
  clusterProperties := filterExclude properties false
  entries := []
  numCpus := 0
  numRunningCpus := 0
  availableRam := 0
  sinfo := cycle

/-- `cluster_add_node`, and `plan_set_cluster_server`. -/
def KnownCluster.addNode (cl : KnownCluster) (ref : NodeRef) : KnownCluster :=
  let node := ref.report.info
  { cl with
    entries := cl.entries ++ [⟨node.name, ref⟩]
    numCpus := cl.numCpus + node.coresTotal
    numRunningCpus :=
      if node.isOut then cl.numRunningCpus else cl.numRunningCpus + ref.report.coresFree
    availableRam := if node.isOut then cl.availableRam else cl.availableRam + getNodeMem node
    sinfo := ref.cycle }

/-- The cells after the first one of the node's name was set to the new node. -/
def rebindEntries (ref : NodeRef) : List NodeEntry → List NodeEntry
  | [] => []
  | e :: es =>
      if e.nodeName = ref.report.name then { e with node := ref } :: es
      else e :: rebindEntries ref es

/-- `nodes[j] = ninfo` for the node found by name, and `plan_set_cluster_server`. -/
def KnownCluster.rebind (cl : KnownCluster) (ref : NodeRef) : KnownCluster :=
  { cl with entries := rebindEntries ref cl.entries, sinfo := ref.cycle }

/-- `plan_find_cluster_for_node`; `cluster_check_fit` is the second test. -/
def planFindClusterForNode : List KnownCluster → NodeRef → List KnownCluster
  | [], ref => [(scheduleAddCluster ref.cycle ref.report.cluster ref.report.physProp).addNode ref]
  | cl :: cls, ref =>
      if cl.clusterName = ref.report.cluster then
        if ref.report.name ∈ cl.names then cl.rebind ref :: cls
        else if cl.clusterProperties = filterExclude ref.report.physProp false then
          cl.addNode ref :: cls
        else cl :: planFindClusterForNode cls ref
      else cl :: planFindClusterForNode cls ref

/-- `plan_update_clusters` in the given cycle. -/
def planUpdateClusters (cycle : ℕ) (nodes : List NodeReport) (clusters : List KnownCluster) :
    List KnownCluster :=
  nodes.foldl (fun cls node => planFindClusterForNode cls ⟨cycle, node⟩) clusters

/-- The clusters after the given snapshots, one per cycle. -/
def clustersAfter (snapshots : List (List NodeReport)) : List KnownCluster :=
  snapshots.zipIdx.foldl (fun cls s => planUpdateClusters s.2 s.1 cls) []

/-- The last snapshot is the one of the last cycle. -/
theorem clustersAfter_append_singleton (snapshots : List (List NodeReport))
    (nodes : List NodeReport) :
    clustersAfter (snapshots ++ [nodes])
      = planUpdateClusters snapshots.length nodes (clustersAfter snapshots) := by
  unfold clustersAfter
  rw [List.zipIdx_append, List.foldl_append]
  simp

/-! ## What the search for a cluster does -/

/-- The search passes the cluster. -/
def KnownCluster.Skips (cl : KnownCluster) (node : NodeReport) : Prop :=
  cl.clusterName = node.cluster →
    node.name ∉ cl.names ∧ cl.clusterProperties ≠ filterExclude node.physProp false

/-- What `plan_find_cluster_for_node` does to the clusters. -/
inductive FoundCluster (cls : List KnownCluster) (ref : NodeRef) : List KnownCluster → Prop
  /-- the node is found by name and its pointer is replaced -/
  | rebound (pre post : List KnownCluster) (cl : KnownCluster) (hsplit : cls = pre ++ cl :: post)
      (hpre : ∀ c ∈ pre, c.Skips ref.report) (hname : cl.clusterName = ref.report.cluster)
      (hmem : ref.report.name ∈ cl.names) :
      FoundCluster cls ref (pre ++ cl.rebind ref :: post)
  /-- the node joins a cluster of its cluster name and properties -/
  | added (pre post : List KnownCluster) (cl : KnownCluster) (hsplit : cls = pre ++ cl :: post)
      (hpre : ∀ c ∈ pre, c.Skips ref.report) (hkey : cl.key = ref.report.key)
      (hnew : ref.report.name ∉ cl.names) :
      FoundCluster cls ref (pre ++ cl.addNode ref :: post)
  /-- the node founds a cluster -/
  | created (hall : ∀ c ∈ cls, c.Skips ref.report) :
      FoundCluster cls ref (cls ++
        [(scheduleAddCluster ref.cycle ref.report.cluster ref.report.physProp).addNode ref])

/-- One more cluster is passed. -/
theorem FoundCluster.cons {cl : KnownCluster} {cls cls' : List KnownCluster} {ref : NodeRef}
    (hskips : cl.Skips ref.report) (h : FoundCluster cls ref cls') :
    FoundCluster (cl :: cls) ref (cl :: cls') := by
  have hcons : ∀ {pre : List KnownCluster}, (∀ c ∈ pre, c.Skips ref.report) →
      ∀ c ∈ cl :: pre, c.Skips ref.report := by
    intro pre hpre c hc
    rcases List.mem_cons.mp hc with rfl | hc
    · exact hskips
    · exact hpre c hc
  cases h with
  | rebound pre post c hsplit hpre hname hmem =>
      exact .rebound (cl :: pre) post c (by rw [hsplit]; rfl) (hcons hpre) hname hmem
  | added pre post c hsplit hpre hkey hnew =>
      exact .added (cl :: pre) post c (by rw [hsplit]; rfl) (hcons hpre) hkey hnew
  | created hall => exact .created (hcons hall)

/-- The search does one of the three things. -/
theorem planFindClusterForNode_found (cls : List KnownCluster) (ref : NodeRef) :
    FoundCluster cls ref (planFindClusterForNode cls ref) := by
  induction cls with
  | nil => exact .created (by simp)
  | cons cl cls ih =>
      rw [planFindClusterForNode]
      split
      · next hname =>
          split
          · next hmem => exact .rebound [] cls cl rfl (by simp) hname hmem
          · next hnew =>
              split
              · next hfit =>
                  refine .added [] cls cl rfl (by simp) ?_ hnew
                  exact Prod.ext hname hfit
              · next hfit => exact ih.cons (fun _ => ⟨hnew, hfit⟩)
      · next hname => exact ih.cons (fun heq => absurd heq hname)

/-- Rebinding keeps the names. -/
theorem rebindEntries_names (ref : NodeRef) (entries : List NodeEntry) :
    (rebindEntries ref entries).map NodeEntry.nodeName = entries.map NodeEntry.nodeName := by
  induction entries with
  | nil => rfl
  | cons e es ih =>
      rw [rebindEntries]
      split
      · rfl
      · rw [List.map_cons, ih, List.map_cons]

@[simp] theorem KnownCluster.names_rebind (cl : KnownCluster) (ref : NodeRef) :
    (cl.rebind ref).names = cl.names := rebindEntries_names ref cl.entries

@[simp] theorem KnownCluster.key_rebind (cl : KnownCluster) (ref : NodeRef) :
    (cl.rebind ref).key = cl.key := rfl

@[simp] theorem KnownCluster.names_addNode (cl : KnownCluster) (ref : NodeRef) :
    (cl.addNode ref).names = cl.names ++ [ref.report.name] := by
  unfold KnownCluster.names KnownCluster.addNode
  rw [List.map_append]
  rfl

@[simp] theorem KnownCluster.key_addNode (cl : KnownCluster) (ref : NodeRef) :
    (cl.addNode ref).key = cl.key := rfl

/-! ## The partition -/

/-- The node names of all clusters, as often as they occur. -/
def allNames (cls : List KnownCluster) : List String := cls.flatMap KnownCluster.names

/-- The property begins with `min_` or `max_`. -/
def IsWalltimeLimit (property : String) : Prop :=
  "min_".toList <+: property.toList ∨ "max_".toList <+: property.toList

instance (property : String) : Decidable (IsWalltimeLimit property) :=
  inferInstanceAs (Decidable (_ ∨ _))

/-- The properties that are no walltime limits. -/
def ownProperties (properties : Finset String) : Finset String :=
  properties.filter (fun s => ¬ IsWalltimeLimit s)

/-- Every node name of the snapshot occurs in the clusters exactly once, and in a
cluster of the node's cluster name and own properties. -/
def Partitioned (cls : List KnownCluster) (nodes : List NodeReport) : Prop :=
  ∀ node ∈ nodes, (allNames cls).count node.name = 1 ∧
    ∀ cl ∈ cls, node.name ∈ cl.names →
      cl.clusterName = node.cluster ∧ cl.clusterProperties = ownProperties node.physProp

/-- Reports of one node agree in cluster name and properties. -/
def KeepsKeys (reports : List NodeReport) : Prop :=
  ∀ m ∈ reports, ∀ n ∈ reports, m.name = n.name → m.key = n.key

/-- No reported property is excluded but the walltime limits. -/
def ExcludesLimitsOnly (reports : List NodeReport) : Prop :=
  ∀ n ∈ reports, ∀ p ∈ n.physProp, isExcluded p = true → IsWalltimeLimit p

/-- `is_prefix` holds if either text begins with the other one. -/
theorem isPrefix_iff {s t : List Char} : isPrefix s t = true ↔ s <+: t ∨ t <+: s := by
  induction s generalizing t with
  | nil => exact iff_of_true (by cases t <;> rfl) (Or.inl List.nil_prefix)
  | cons a s ih =>
      cases t with
      | nil => exact iff_of_true rfl (Or.inr List.nil_prefix)
      | cons b t =>
          rw [isPrefix, Bool.and_eq_true, beq_iff_eq, ih, List.cons_prefix_cons,
            List.cons_prefix_cons]
          constructor
          · rintro ⟨rfl, h⟩
            exact h.imp (fun h => ⟨rfl, h⟩) (fun h => ⟨rfl, h⟩)
          · rintro (⟨rfl, h⟩ | ⟨rfl, h⟩)
            · exact ⟨rfl, Or.inl h⟩
            · exact ⟨rfl, Or.inr h⟩

/-- `is_prefix` holds for a text that begins with the other one. -/
theorem isPrefix_of_leading {pre s : List Char} (h : pre <+: s) : isPrefix s pre = true :=
  isPrefix_iff.mpr (Or.inr h)

/-- Walltime limits are excluded. -/
theorem isExcluded_of_limit {p : String} (h : IsWalltimeLimit p) : isExcluded p = true := by
  unfold isExcluded
  rcases h with h | h <;> rw [isPrefix_of_leading h]
  · rfl
  · exact Bool.or_true _

/-- What `filter_exclude` keeps are the own properties, exactly if it excludes walltime
limits only. -/
theorem filterExclude_eq_own_iff (properties : Finset String) :
    filterExclude properties false = ownProperties properties ↔
      ∀ p ∈ properties, isExcluded p = true → IsWalltimeLimit p := by
  constructor
  · intro heq p hp hexcluded
    by_contra hnot
    have hown : p ∈ ownProperties properties := Finset.mem_filter.mpr ⟨hp, hnot⟩
    rw [← heq] at hown
    have := (Finset.mem_filter.mp hown).2
    rw [hexcluded] at this
    cases this
  · intro h
    refine Finset.filter_congr ?_
    intro p hp
    constructor
    · intro hkept hlimit
      rw [isExcluded_of_limit hlimit] at hkept
      cases hkept
    · intro hnot
      rw [← Bool.not_eq_true]
      exact fun hexcluded => hnot (h p hp hexcluded)

/-- What holds between nodes under `KeepsKeys`: names occur once, no two clusters take
the same nodes, and the clusters hold exactly the nodes reported so far. -/
structure ClustersInv (seen : List NodeReport) (cls : List KnownCluster) : Prop where
  names_nodup : (allNames cls).Nodup
  keys_nodup : (cls.map KnownCluster.key).Nodup
  origin : ∀ cl ∈ cls, ∀ x ∈ cl.names, ∃ n ∈ seen, n.name = x ∧ n.key = cl.key
  entered : ∀ n ∈ seen, n.name ∈ allNames cls

/-- A name of a cluster is a name. -/
theorem mem_allNames {cls : List KnownCluster} {x : String} :
    x ∈ allNames cls ↔ ∃ cl ∈ cls, x ∈ cl.names := List.mem_flatMap

/-- Entering a node that agrees with its earlier reports keeps the invariant. -/
theorem ClustersInv.found {seen : List NodeReport} {cls cls' : List KnownCluster} {ref : NodeRef}
    (hinv : ClustersInv seen cls)
    (hstable : ∀ m ∈ seen, m.name = ref.report.name → m.key = ref.report.key)
    (h : FoundCluster cls ref cls') : ClustersInv (seen ++ [ref.report]) cls' := by
  have hown : ∀ cl ∈ cls, ref.report.name ∈ cl.names → cl.key = ref.report.key := by
    intro cl hcl hmem
    obtain ⟨m, hm, hname, hkey⟩ := hinv.origin cl hcl _ hmem
    rw [← hkey]
    exact hstable m hm hname
  have holder : ∀ cl ∈ cls, ∀ x ∈ cl.names,
      ∃ n ∈ seen ++ [ref.report], n.name = x ∧ n.key = cl.key := by
    intro cl hcl x hx
    obtain ⟨n, hn, hnx⟩ := hinv.origin cl hcl x hx
    exact ⟨n, List.mem_append_left _ hn, hnx⟩
  have hself : ref.report ∈ seen ++ [ref.report] :=
    List.mem_append_right _ (List.mem_singleton.mpr rfl)
  cases h with
  | rebound pre post cl hsplit hpre hname hmem =>
      have hnames : allNames (pre ++ cl.rebind ref :: post) = allNames cls := by
        unfold allNames
        rw [hsplit, List.flatMap_append, List.flatMap_append, List.flatMap_cons, List.flatMap_cons,
          KnownCluster.names_rebind]
      have hkeys : (pre ++ cl.rebind ref :: post).map KnownCluster.key
          = cls.map KnownCluster.key := by
        rw [hsplit, List.map_append, List.map_append, List.map_cons, List.map_cons,
          KnownCluster.key_rebind]
      have hcl : cl ∈ cls := by
        rw [hsplit]
        simp
      refine ⟨hnames ▸ hinv.names_nodup, hkeys ▸ hinv.keys_nodup, ?_, ?_⟩
      · intro c hc x hx
        rcases List.mem_append.mp hc with hc | hc
        · exact holder c (hsplit ▸ List.mem_append_left _ hc) x hx
        · rcases List.mem_cons.mp hc with rfl | hc
          · rw [KnownCluster.names_rebind] at hx
            exact holder cl hcl x hx
          · exact holder c (hsplit ▸ List.mem_append_right _ (List.mem_cons_of_mem _ hc)) x hx
      · intro n hn
        rw [hnames]
        rcases List.mem_append.mp hn with hn | hn
        · exact hinv.entered n hn
        · rw [List.mem_singleton.mp hn]
          exact mem_allNames.mpr ⟨cl, hcl, hmem⟩
  | added pre post cl hsplit hpre hkey hnew =>
      have hcl : cl ∈ cls := by
        rw [hsplit]
        simp
      have hperm : (allNames (pre ++ cl.addNode ref :: post)).Perm
          (ref.report.name :: allNames cls) := by
        unfold allNames
        rw [hsplit, List.flatMap_append, List.flatMap_append, List.flatMap_cons, List.flatMap_cons,
          KnownCluster.names_addNode, List.append_assoc cl.names, ← List.append_assoc,
          List.singleton_append, ← List.append_assoc]
        exact List.perm_middle
      -- the name is new in all clusters: another one with it would have the same key
      have hfresh : ref.report.name ∉ allNames cls := by
        intro hmem
        obtain ⟨c, hc, hcmem⟩ := mem_allNames.mp hmem
        have hsame : c = cl := List.inj_on_of_nodup_map hinv.keys_nodup hc hcl
          ((hown c hc hcmem).trans hkey.symm)
        exact hnew (hsame ▸ hcmem)
      have hkeys : (pre ++ cl.addNode ref :: post).map KnownCluster.key
          = cls.map KnownCluster.key := by
        rw [hsplit, List.map_append, List.map_append, List.map_cons, List.map_cons,
          KnownCluster.key_addNode]
      refine ⟨hperm.nodup_iff.mpr (List.nodup_cons.mpr ⟨hfresh, hinv.names_nodup⟩),
        hkeys ▸ hinv.keys_nodup, ?_, ?_⟩
      · intro c hc x hx
        rcases List.mem_append.mp hc with hc | hc
        · exact holder c (hsplit ▸ List.mem_append_left _ hc) x hx
        · rcases List.mem_cons.mp hc with rfl | hc
          · rw [KnownCluster.names_addNode] at hx
            rcases List.mem_append.mp hx with hx | hx
            · exact holder cl hcl x hx
            · exact ⟨ref.report, hself, (List.mem_singleton.mp hx).symm, hkey.symm⟩
          · exact holder c (hsplit ▸ List.mem_append_right _ (List.mem_cons_of_mem _ hc)) x hx
      · intro n hn
        rw [hperm.mem_iff]
        rcases List.mem_append.mp hn with hn | hn
        · exact List.mem_cons_of_mem _ (hinv.entered n hn)
        · rw [List.mem_singleton.mp hn]
          exact List.mem_cons_self
  | created hall =>
      set new := (scheduleAddCluster ref.cycle ref.report.cluster ref.report.physProp).addNode ref
        with hnewdef
      have hnewnames : new.names = [ref.report.name] := by
        rw [hnewdef, KnownCluster.names_addNode]
        rfl
      have hnewkey : new.key = ref.report.key := rfl
      have hnames : allNames (cls ++ [new]) = allNames cls ++ [ref.report.name] := by
        unfold allNames
        rw [List.flatMap_append, List.flatMap_singleton, hnewnames]
      have hnokey : ∀ c ∈ cls, c.key ≠ ref.report.key := by
        intro c hc heq
        obtain ⟨hcname, hcprops⟩ := Prod.mk.inj heq
        exact (hall c hc hcname).2 hcprops
      have hfresh : ref.report.name ∉ allNames cls := by
        intro hmem
        obtain ⟨c, hc, hcmem⟩ := mem_allNames.mp hmem
        exact hnokey c hc (hown c hc hcmem)
      constructor
      case names_nodup =>
        rw [hnames, List.nodup_append]
        refine ⟨hinv.names_nodup, List.nodup_singleton _, ?_⟩
        rintro x hx y hy rfl
        rw [List.mem_singleton.mp hy] at hx
        exact hfresh hx
      case keys_nodup =>
        rw [List.map_append, List.map_singleton, List.nodup_append]
        refine ⟨hinv.keys_nodup, List.nodup_singleton _, ?_⟩
        rintro x hx y hy rfl
        rw [List.mem_singleton.mp hy] at hx
        obtain ⟨c, hc, hckey⟩ := List.mem_map.mp hx
        exact hnokey c hc hckey
      case origin =>
        intro c hc x hx
        rcases List.mem_append.mp hc with hc | hc
        · exact holder c hc x hx
        · rw [List.mem_singleton.mp hc] at hx ⊢
          rw [hnewnames] at hx
          exact ⟨ref.report, hself, (List.mem_singleton.mp hx).symm, hnewkey.symm⟩
      case entered =>
        intro n hn
        rw [hnames]
        rcases List.mem_append.mp hn with hn | hn
        · exact List.mem_append_left _ (hinv.entered n hn)
        · rw [List.mem_singleton.mp hn]
          exact List.mem_append_right _ (List.mem_singleton.mpr rfl)

/-- So does entering all nodes of a snapshot. -/
theorem ClustersInv.update (cycle : ℕ) (nodes : List NodeReport) :
    ∀ {seen : List NodeReport} {cls : List KnownCluster}, ClustersInv seen cls →
      KeepsKeys (seen ++ nodes) →
      ClustersInv (seen ++ nodes) (planUpdateClusters cycle nodes cls) := by
  induction nodes with
  | nil =>
      intro seen cls hinv _
      rw [List.append_nil]
      exact hinv
  | cons node nodes ih =>
      intro seen cls hinv hstable
      have hnext : ClustersInv (seen ++ [node]) (planFindClusterForNode cls ⟨cycle, node⟩) := by
        refine hinv.found ?_ (planFindClusterForNode_found cls ⟨cycle, node⟩)
        intro m hm hname
        exact hstable m (List.mem_append_left _ hm) node (by simp) hname
      have happend : seen ++ node :: nodes = (seen ++ [node]) ++ nodes := by simp
      rw [happend] at hstable ⊢
      exact ih hnext hstable

/-- A part of stable reports is stable. -/
theorem KeepsKeys.left {reports reports' : List NodeReport} (h : KeepsKeys (reports ++ reports')) :
    KeepsKeys reports :=
  fun m hm n hn => h m (List.mem_append_left _ hm) n (List.mem_append_left _ hn)

/-- The invariant holds after any number of snapshots. -/
theorem clustersInv_after (snapshots : List (List NodeReport))
    (hstable : KeepsKeys snapshots.flatten) :
    ClustersInv snapshots.flatten (clustersAfter snapshots) := by
  induction snapshots using List.reverseRecOn with
  | nil => exact ⟨List.nodup_nil, List.nodup_nil, by simp [clustersAfter], by simp⟩
  | append_singleton snapshots nodes ih =>
      rw [List.flatten_append, List.flatten_singleton] at hstable ⊢
      rw [clustersAfter_append_singleton]
      exact (ih hstable.left).update snapshots.length nodes hstable

/-- Clusters only grow: every cluster is still there with its key and its names. -/
def Carries (cls cls' : List KnownCluster) : Prop :=
  ∀ cl ∈ cls, ∃ cl' ∈ cls', cl'.key = cl.key ∧ cl.names ⊆ cl'.names

theorem Carries.refl (cls : List KnownCluster) : Carries cls cls :=
  fun cl hcl => ⟨cl, hcl, rfl, List.Subset.refl _⟩

theorem Carries.trans {cls cls' cls'' : List KnownCluster} (h : Carries cls cls')
    (h' : Carries cls' cls'') : Carries cls cls'' := by
  intro cl hcl
  obtain ⟨cl', hcl', hkey, hnames⟩ := h cl hcl
  obtain ⟨cl'', hcl'', hkey', hnames'⟩ := h' cl' hcl'
  exact ⟨cl'', hcl'', hkey'.trans hkey, List.Subset.trans hnames hnames'⟩

/-- Replacing one cluster by a larger one of the same key. -/
theorem Carries.middle {pre post : List KnownCluster} {cl cl' : KnownCluster}
    (hkey : cl'.key = cl.key) (hnames : cl.names ⊆ cl'.names) :
    Carries (pre ++ cl :: post) (pre ++ cl' :: post) := by
  intro c hc
  rcases List.mem_append.mp hc with hc | hc
  · exact ⟨c, List.mem_append_left _ hc, rfl, List.Subset.refl _⟩
  · rcases List.mem_cons.mp hc with rfl | hc
    · exact ⟨cl', by simp, hkey, hnames⟩
    · exact ⟨c, by simp [hc], rfl, List.Subset.refl _⟩

/-- Entering a node. -/
theorem FoundCluster.carries {cls cls' : List KnownCluster} {ref : NodeRef}
    (h : FoundCluster cls ref cls') : Carries cls cls' := by
  cases h with
  | rebound pre post cl hsplit hpre hname hmem =>
      rw [hsplit]
      refine Carries.middle rfl ?_
      rw [KnownCluster.names_rebind]
      exact List.Subset.refl _
  | added pre post cl hsplit hpre hkey hnew =>
      rw [hsplit]
      refine Carries.middle rfl ?_
      rw [KnownCluster.names_addNode]
      exact List.subset_append_left _ _
  | created hall =>
      intro cl hcl
      exact ⟨cl, List.mem_append_left _ hcl, rfl, List.Subset.refl _⟩

/-- Entering a snapshot. -/
theorem planUpdateClusters_carries (cycle : ℕ) (nodes : List NodeReport) :
    ∀ cls : List KnownCluster, Carries cls (planUpdateClusters cycle nodes cls) := by
  induction nodes with
  | nil =>
      intro cls
      exact Carries.refl cls
  | cons node nodes ih =>
      intro cls
      exact (planFindClusterForNode_found cls ⟨cycle, node⟩).carries.trans (ih _)

/-- Entering a node brings in no other name. -/
theorem FoundCluster.names {cls cls' : List KnownCluster} {ref : NodeRef} {x : String}
    (h : FoundCluster cls ref cls') (hx : x ∈ allNames cls') (hne : x ≠ ref.report.name) :
    x ∈ allNames cls := by
  cases h with
  | rebound pre post cl hsplit hpre hname hmem =>
      simp only [allNames, List.flatMap_append, List.flatMap_cons, KnownCluster.names_rebind] at hx
      simpa [allNames, hsplit] using hx
  | added pre post cl hsplit hpre hkey hnew =>
      simp only [allNames, List.flatMap_append, List.flatMap_cons, KnownCluster.names_addNode,
        List.mem_append, List.mem_singleton, hne, or_false] at hx
      simpa [allNames, hsplit] using hx
  | created hall =>
      simp only [allNames, List.flatMap_append, List.flatMap_singleton,
        KnownCluster.names_addNode, List.mem_append, List.mem_singleton, hne, or_false] at hx
      rcases hx with hx | hx
      · exact hx
      · cases hx

/-- A node of a new name gets into a cluster of its key. -/
theorem FoundCluster.fresh {cls cls' : List KnownCluster} {ref : NodeRef}
    (h : FoundCluster cls ref cls') (hfresh : ref.report.name ∉ allNames cls) :
    ∃ cl ∈ cls', ref.report.name ∈ cl.names ∧ cl.key = ref.report.key := by
  cases h with
  | rebound pre post cl hsplit hpre hname hmem =>
      refine absurd (mem_allNames.mpr ⟨cl, ?_, hmem⟩) hfresh
      rw [hsplit]
      simp
  | added pre post cl hsplit hpre hkey hnew =>
      exact ⟨cl.addNode ref, by simp, by simp, hkey⟩
  | created hall =>
      refine ⟨_, List.mem_append_right _ (List.mem_singleton.mpr rfl), ?_, rfl⟩
      rw [KnownCluster.names_addNode]
      simp

/-- So does every node of the snapshot that was not known before. -/
theorem planUpdateClusters_fresh (cycle : ℕ) {nodes : List NodeReport} :
    ∀ {cls : List KnownCluster}, (nodes.map NodeReport.name).Nodup →
      ∀ n ∈ nodes, n.name ∉ allNames cls →
        ∃ cl ∈ planUpdateClusters cycle nodes cls, n.name ∈ cl.names ∧ cl.key = n.key := by
  induction nodes with
  | nil =>
      intro cls _ n hn
      cases hn
  | cons node nodes ih =>
      intro cls hnodup n hn hfresh
      rw [List.map_cons, List.nodup_cons] at hnodup
      have hfound := planFindClusterForNode_found cls ⟨cycle, node⟩
      rcases List.mem_cons.mp hn with rfl | hn
      · obtain ⟨cl, hcl, hmem, hkey⟩ := hfound.fresh hfresh
        obtain ⟨cl', hcl', hkey', hnames⟩ := planUpdateClusters_carries cycle nodes _ cl hcl
        exact ⟨cl', hcl', hnames hmem, hkey'.trans hkey⟩
      · refine ih hnodup.2 n hn (fun hmem => hfresh (hfound.names hmem ?_))
        rintro heq
        exact hnodup.1 (List.mem_map.mpr ⟨n, hn, heq⟩)

/-- Under the two conditions the clusters partition the nodes. -/
theorem ClustersInv.partitioned {seen nodes : List NodeReport} {cls : List KnownCluster}
    (hinv : ClustersInv (seen ++ nodes) cls) (hstable : KeepsKeys (seen ++ nodes))
    (hexclude : ExcludesLimitsOnly nodes) : Partitioned cls nodes := by
  intro n hn
  have hmem : n ∈ seen ++ nodes := List.mem_append_right _ hn
  refine ⟨List.count_eq_one_of_mem hinv.names_nodup (hinv.entered n hmem), ?_⟩
  intro cl hcl hname
  obtain ⟨m, hm, hmname, hkey⟩ := hinv.origin cl hcl _ hname
  have hkey : cl.key = n.key := hkey.symm.trans (hstable m hm n hmem hmname)
  obtain ⟨hcluster, hprops⟩ := Prod.mk.inj hkey
  refine ⟨hcluster, hprops.trans ?_⟩
  exact (filterExclude_eq_own_iff n.physProp).mpr (hexclude n hn)

/-- If the clusters partition the nodes of one more snapshot, its nodes have the keys
they had before, and nothing but walltime limits was excluded from their properties. -/
theorem ClustersInv.of_partitioned {seen nodes : List NodeReport} {cls : List KnownCluster}
    {cycle : ℕ} (hinv : ClustersInv seen cls) (hstable : KeepsKeys seen)
    (hdistinct : (nodes.map NodeReport.name).Nodup)
    (hpart : Partitioned (planUpdateClusters cycle nodes cls) nodes) :
    KeepsKeys (seen ++ nodes) ∧ ExcludesLimitsOnly nodes := by
  have hknown : ∀ n ∈ nodes, ∀ m ∈ seen, m.name = n.name →
      m.key = (n.cluster, ownProperties n.physProp) := by
    intro n hn m hm hname
    obtain ⟨cl, hcl, hmem⟩ := mem_allNames.mp (hinv.entered m hm)
    obtain ⟨m', hm', hname', hkey⟩ := hinv.origin cl hcl _ hmem
    obtain ⟨cl', hcl', hkey', hnames⟩ := planUpdateClusters_carries cycle nodes cls cl hcl
    obtain ⟨hcluster, hprops⟩ := (hpart n hn).2 cl' hcl' (hname ▸ hnames hmem)
    have hcl'key : cl'.key = (n.cluster, ownProperties n.physProp) := Prod.ext hcluster hprops
    rw [← hcl'key, hkey', ← hkey]
    exact hstable m hm m' hm' hname'.symm
  have hexclude : ExcludesLimitsOnly nodes := by
    intro n hn
    rw [← filterExclude_eq_own_iff]
    by_cases hold : n.name ∈ allNames cls
    · obtain ⟨cl, hcl, hmem⟩ := mem_allNames.mp hold
      obtain ⟨m, hm, hname, -⟩ := hinv.origin cl hcl _ hmem
      have hown : filterExclude m.physProp false = ownProperties n.physProp :=
        (Prod.mk.inj (hknown n hn m hm hname)).2
      -- what the cluster's properties hold is not excluded, and they are the own ones
      refine (filterExclude_eq_own_iff n.physProp).mpr ?_
      intro p hp hexcluded
      by_contra hnot
      have hpown : p ∈ ownProperties n.physProp := Finset.mem_filter.mpr ⟨hp, hnot⟩
      rw [← hown] at hpown
      have hkept := (Finset.mem_filter.mp hpown).2
      rw [hexcluded] at hkept
      cases hkept
    · obtain ⟨cl, hcl, hmem, hkey⟩ := planUpdateClusters_fresh cycle hdistinct n hn hold
      rw [← ((hpart n hn).2 cl hcl hmem).2]
      exact (Prod.mk.inj hkey).2.symm
  have hsame : ∀ n ∈ nodes, ∀ m ∈ seen, m.name = n.name → m.key = n.key := by
    intro n hn m hm hname
    rw [hknown n hn m hm hname, NodeReport.key,
      (filterExclude_eq_own_iff n.physProp).mpr (hexclude n hn)]
  refine ⟨?_, hexclude⟩
  intro m hm n hn hname
  rcases List.mem_append.mp hm with hm | hm <;> rcases List.mem_append.mp hn with hn | hn
  · exact hstable m hm n hn hname
  · exact hsame n hn m hm hname
  · exact (hsame m hm n hn hname.symm).symm
  · rw [List.inj_on_of_nodup_map hdistinct hm hn hname]

/-- The clusters partition the nodes of each snapshot after it was entered, exactly if
the reports of a node agree in cluster name and properties throughout, and no property
but a walltime limit is excluded. -/
theorem clusters_partition_iff (snapshots : List (List NodeReport))
    (hdistinct : ∀ nodes ∈ snapshots, (nodes.map NodeReport.name).Nodup) :
    (∀ past nodes future, snapshots = past ++ nodes :: future →
        Partitioned (clustersAfter (past ++ [nodes])) nodes) ↔
      KeepsKeys snapshots.flatten ∧ ExcludesLimitsOnly snapshots.flatten := by
  constructor
  · induction snapshots using List.reverseRecOn with
    | nil =>
        intro _
        exact ⟨by simp [KeepsKeys], by simp [ExcludesLimitsOnly]⟩
    | append_singleton snapshots nodes ih =>
        intro hpart
        have hbefore : KeepsKeys snapshots.flatten ∧ ExcludesLimitsOnly snapshots.flatten := by
          refine ih (fun s hs => hdistinct s (List.mem_append_left _ hs)) ?_
          intro past s future hsplit
          exact hpart past s (future ++ [nodes]) (by simp [hsplit])
        have hlast := hpart snapshots nodes [] rfl
        rw [clustersAfter_append_singleton] at hlast
        obtain ⟨hstable, hexclude⟩ := (clustersInv_after snapshots hbefore.1).of_partitioned
          hbefore.1 (hdistinct nodes (by simp)) hlast
        rw [List.flatten_append, List.flatten_singleton]
        refine ⟨hstable, ?_⟩
        intro n hn
        rcases List.mem_append.mp hn with hn | hn
        · exact hbefore.2 n hn
        · exact hexclude n hn
  · rintro ⟨hstable, hexclude⟩ past nodes future rfl
    have hflat : (past ++ nodes :: future).flatten
        = (past.flatten ++ nodes) ++ future.flatten := by simp
    rw [hflat] at hstable hexclude
    have hinv := clustersInv_after (past ++ [nodes])
    rw [List.flatten_append, List.flatten_singleton] at hinv
    refine (hinv hstable.left).partitioned hstable.left ?_
    exact fun n hn => hexclude n (List.mem_append_left _ (List.mem_append_right _ hn))

/-- A node in service as a snapshot reports it. -/
def plainReport (name : String) (coresTotal : ℕ) (clusterName : String)
    (physProp : Finset String) : NodeReport where
  info := plainNode name coresTotal 8
  clusterName := some clusterName
  physProp := physProp
  coresFree := coresTotal
  jobs_length := by
    intro jobs hjobs
    cases hjobs

/-- Two nodes of different properties, one of them reported in two cycles. -/
theorem clusters_partition_two :
    Partitioned (clustersAfter [[plainReport "zubat1" 2 "zubat" {"brno", "max_2h"},
        plainReport "zubat2" 2 "zubat" {"praha"}], [plainReport "zubat1" 2 "zubat" {"brno"}]])
      [plainReport "zubat1" 2 "zubat" {"brno"}] := by
  refine (clusters_partition_iff [[plainReport "zubat1" 2 "zubat" {"brno", "max_2h"},
    plainReport "zubat2" 2 "zubat" {"praha"}], [plainReport "zubat1" 2 "zubat" {"brno"}]]
    (by decide +kernel)).mpr ⟨?_, ?_⟩ [_] _ [] rfl
  · unfold KeepsKeys
    decide +kernel
  · unfold ExcludesLimitsOnly
    decide +kernel

/-- A node that changes its cluster name is found in both clusters. -/
theorem clusters_hold_node_twice :
    (∀ nodes ∈ [[plainReport "zubat1" 2 "zubat" ∅], [plainReport "zubat1" 2 "tarkil" ∅]],
      (nodes.map NodeReport.name).Nodup) ∧
    ¬ Partitioned (clustersAfter [[plainReport "zubat1" 2 "zubat" ∅],
        [plainReport "zubat1" 2 "tarkil" ∅]]) [plainReport "zubat1" 2 "tarkil" ∅] := by
  refine ⟨by decide +kernel, ?_⟩
  intro hpart
  have hcount := (hpart _ (List.mem_singleton.mpr rfl)).1
  revert hcount
  decide +kernel

end PlanSched
