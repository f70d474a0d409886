/-
# Nodes and CPUs of the clusters over the cycles

A node that is reported again is found by name in its cluster, and the cluster's
pointer to it is replaced; `num_cpus` was counted when the node came in.  So the
pointers of a cluster are those of the current snapshot, and its CPU count and its
slot table fit its nodes, as long as every node of a cluster is reported again and
found there (`Refreshed`) with the number of cores it had.

The condition is followed through the nodes of a snapshot: what is still to be found
is found among the nodes still to be entered (`StaleFound`).

* `planUpdateClusters_current`: all pointers are those of the snapshot;
* `clusters_capacity`: count and slot table fit the nodes in all states of a run.
-/
import PlanSched.ClusterUpdate

namespace PlanSched

open CheckedRun

/-! ## Where a cluster comes from -/

/-- The cores of the node of an entry. -/
def NodeEntry.cores (e : NodeEntry) : ℕ := e.node.report.info.coresTotal

/-- The entry points to a node of the snapshot of the given cycle. -/
def NodeEntry.Current (cycle : ℕ) (nodes : List NodeReport) (e : NodeEntry) : Prop :=
  e.node.cycle = cycle ∧ e.node.report ∈ nodes

/-- What is known of a cluster at its place after a node was entered. -/
structure GrownFrom (ref : NodeRef) (cl cl' : KnownCluster) : Prop where
  key : cl'.key = cl.key
  names : ∀ x ∈ cl'.names, x = ref.report.name ∨ x ∈ cl.names
  entries : ∀ e ∈ cl'.entries, (e.nodeName = ref.report.name ∧ e.node = ref) ∨ e ∈ cl.entries

/-- A rebound entry is the new one or was there before. -/
theorem mem_rebindEntries {ref : NodeRef} {entries : List NodeEntry} {e : NodeEntry}
    (he : e ∈ rebindEntries ref entries) :
    (e.nodeName = ref.report.name ∧ e.node = ref) ∨ e ∈ entries := by
  induction entries with
  | nil => cases he
  | cons e' es ih =>
      rw [rebindEntries] at he
      split at he
      · next hname =>
          rcases List.mem_cons.mp he with rfl | he
          · exact Or.inl ⟨hname, rfl⟩
          · exact Or.inr (List.mem_cons_of_mem _ he)
      · rcases List.mem_cons.mp he with rfl | he
        · exact Or.inr List.mem_cons_self
        · rcases ih he with h | h
          · exact Or.inl h
          · exact Or.inr (List.mem_cons_of_mem _ h)

/-- Where names occur once, no entry of the node's name keeps another pointer. -/
theorem rebindEntries_of_name {ref : NodeRef} {entries : List NodeEntry} {e : NodeEntry}
    (hnodup : (entries.map NodeEntry.nodeName).Nodup) (he : e ∈ rebindEntries ref entries)
    (hname : e.nodeName = ref.report.name) : e.node = ref := by
  induction entries with
  | nil => cases he
  | cons e' es ih =>
      rw [List.map_cons, List.nodup_cons] at hnodup
      rw [rebindEntries] at he
      split at he
      · next hname' =>
          rcases List.mem_cons.mp he with rfl | he
          · rfl
          · have hmem : e.nodeName ∈ es.map NodeEntry.nodeName := List.mem_map_of_mem he
            rw [hname, ← hname'] at hmem
            exact absurd hmem hnodup.1
      · next hname' =>
          rcases List.mem_cons.mp he with rfl | he
          · exact absurd hname hname'
          · exact ih hnodup.2 he

theorem GrownFrom.refl (ref : NodeRef) (cl : KnownCluster) : GrownFrom ref cl cl :=
  ⟨rfl, fun _ hx => Or.inr hx, fun _ he => Or.inr he⟩

theorem GrownFrom.rebind (ref : NodeRef) (cl : KnownCluster) :
    GrownFrom ref cl (cl.rebind ref) := by
  refine ⟨rfl, ?_, fun e he => mem_rebindEntries he⟩
  intro x hx
  rw [KnownCluster.names_rebind] at hx
  exact Or.inr hx

theorem GrownFrom.addNode (ref : NodeRef) (cl : KnownCluster) :
    GrownFrom ref cl (cl.addNode ref) := by
  refine ⟨rfl, ?_, ?_⟩
  · intro x hx
    rw [KnownCluster.names_addNode, List.mem_append, List.mem_singleton] at hx
    exact hx.symm
  · intro e he
    rcases List.mem_append.mp he with he | he
    · exact Or.inr he
    · rw [List.mem_singleton.mp he]
      exact Or.inl ⟨rfl, rfl⟩

/-- A list with one place changed. -/
theorem getElem?_middle {α : Type} {pre post : List α} {a a' b : α} {i : ℕ}
    (h : (pre ++ a' :: post)[i]? = some b) :
    ∃ c, (pre ++ a :: post)[i]? = some c ∧ (b = c ∨ (c = a ∧ b = a')) := by
  rcases lt_trichotomy i pre.length with hi | rfl | hi
  · rw [List.getElem?_append_left hi] at h ⊢
    exact ⟨b, h, Or.inl rfl⟩
  · rw [List.getElem?_append_right le_rfl, Nat.sub_self] at h ⊢
    cases h
    exact ⟨a, rfl, Or.inr ⟨rfl, rfl⟩⟩
  · rw [List.getElem?_append_right (by omega)] at h ⊢
    obtain ⟨k, hk⟩ : ∃ k, i - pre.length = k + 1 := ⟨i - pre.length - 1, by omega⟩
    rw [hk, List.getElem?_cons_succ] at h ⊢
    exact ⟨b, h, Or.inl rfl⟩

/-- Every cluster was at its place before, or is the new one of the node. -/
theorem FoundCluster.grown {cls cls' : List KnownCluster} {ref : NodeRef}
    (h : FoundCluster cls ref cls') {i : ℕ} {cl' : KnownCluster} (hi : cls'[i]? = some cl') :
    (∃ cl, cls[i]? = some cl ∧ GrownFrom ref cl cl') ∨
      (cls.length = i ∧ ∃ e, cl'.entries = [e] ∧ e.nodeName = ref.report.name ∧ e.node = ref) := by
  cases h with
  | rebound pre post cl hsplit hpre hname hmem =>
      obtain ⟨c, hc, hcases⟩ := getElem?_middle (a := cl) hi
      rw [← hsplit] at hc
      refine Or.inl ⟨c, hc, ?_⟩
      rcases hcases with rfl | ⟨rfl, rfl⟩
      · exact GrownFrom.refl ref _
      · exact GrownFrom.rebind ref _
  | added pre post cl hsplit hpre hkey hnew =>
      obtain ⟨c, hc, hcases⟩ := getElem?_middle (a := cl) hi
      rw [← hsplit] at hc
      refine Or.inl ⟨c, hc, ?_⟩
      rcases hcases with rfl | ⟨rfl, rfl⟩
      · exact GrownFrom.refl ref _
      · exact GrownFrom.addNode ref _
  | created hall =>
      by_cases hlt : i < cls.length
      · rw [List.getElem?_append_left hlt] at hi
        exact Or.inl ⟨cl', hi, GrownFrom.refl ref cl'⟩
      · have hlen : i = cls.length := by
          obtain ⟨hlt', -⟩ := List.getElem?_eq_some_iff.mp hi
          rw [List.length_append, List.length_singleton] at hlt'
          omega
        rw [hlen, List.getElem?_append_right le_rfl, Nat.sub_self] at hi
        cases hi
        exact Or.inr ⟨hlen.symm, ⟨ref.report.info.name, ref⟩, rfl, rfl, rfl⟩

/-- A property of single clusters is kept, if it is kept by what can happen to one. -/
theorem FoundCluster.forall {P : KnownCluster → Prop} {cls cls' : List KnownCluster}
    {ref : NodeRef} (h : FoundCluster cls ref cls') (hold : ∀ cl ∈ cls, P cl)
    (hrebind : ∀ cl ∈ cls, P cl → ref.report.name ∈ cl.names → P (cl.rebind ref))
    (hadd : ∀ cl ∈ cls, P cl → ref.report.name ∉ cl.names → P (cl.addNode ref))
    (hcreate : P ((scheduleAddCluster ref.cycle ref.report.cluster ref.report.physProp).addNode
      ref)) : ∀ cl ∈ cls', P cl := by
  have hmiddle : ∀ {pre post : List KnownCluster} {cl cl' : KnownCluster},
      cls = pre ++ cl :: post → P cl' → ∀ c ∈ pre ++ cl' :: post, P c := by
    rintro pre post cl cl' rfl hcl' c hc
    rcases List.mem_append.mp hc with hc | hc
    · exact hold c (List.mem_append_left _ hc)
    · rcases List.mem_cons.mp hc with rfl | hc
      · exact hcl'
      · exact hold c (List.mem_append_right _ (List.mem_cons_of_mem _ hc))
  cases h with
  | rebound pre post cl hsplit hpre hname hmem =>
      have hcl : cl ∈ cls := by simp [hsplit]
      exact hmiddle hsplit (hrebind cl hcl (hold cl hcl) hmem)
  | added pre post cl hsplit hpre hkey hnew =>
      have hcl : cl ∈ cls := by simp [hsplit]
      exact hmiddle hsplit (hadd cl hcl (hold cl hcl) hnew)
  | created hall =>
      intro c hc
      rcases List.mem_append.mp hc with hc | hc
      · exact hold c hc
      · rw [List.mem_singleton.mp hc]
        exact hcreate

/-- Names occur once within each cluster. -/
def NamesOnce (cls : List KnownCluster) : Prop := ∀ cl ∈ cls, cl.names.Nodup

/-- Entering a node keeps names single. -/
theorem NamesOnce.found {cls cls' : List KnownCluster} {ref : NodeRef} (hinv : NamesOnce cls)
    (h : FoundCluster cls ref cls') : NamesOnce cls' := by
  refine h.forall hinv ?_ ?_ ?_
  · intro cl _ hcl _
    rw [KnownCluster.names_rebind]
    exact hcl
  · intro cl _ hcl hnew
    rw [KnownCluster.names_addNode, ← List.concat_eq_append]
    exact hcl.concat hnew
  · rw [KnownCluster.names_addNode]
    exact List.nodup_singleton _

/-! ## Pointers into the snapshot -/

/-- The search for the node finds it by name in the cluster at place `i`. -/
def FindsAt (cls : List KnownCluster) (i : ℕ) (cl : KnownCluster) (n : NodeReport) : Prop :=
  n.cluster = cl.clusterName ∧ ∀ c ∈ cls.take i, c.Skips n

/-- Every node of every cluster is reported again and found there. -/
def Refreshed (cls : List KnownCluster) (nodes : List NodeReport) : Prop :=
  ∀ (i : ℕ) (cl : KnownCluster), cls[i]? = some cl → ∀ e ∈ cl.entries,
    ∃ n ∈ nodes, n.name = e.nodeName ∧ FindsAt cls i cl n

/-- What does not point into the snapshot yet, or has the name of a node still to come,
is found by a node still to come. -/
def StaleFound (cycle : ℕ) (nodes : List NodeReport) (cls : List KnownCluster)
    (todo : List NodeReport) : Prop :=
  ∀ (i : ℕ) (cl : KnownCluster), cls[i]? = some cl → ∀ e ∈ cl.entries,
    ¬ e.Current cycle nodes ∨ e.nodeName ∈ todo.map NodeReport.name →
      ∃ n ∈ todo, n.name = e.nodeName ∧ FindsAt cls i cl n

/-- The search rebinds at the place where it finds the name. -/
theorem planFindClusterForNode_eq_rebind {ref : NodeRef} {cl : KnownCluster}
    (hname : cl.clusterName = ref.report.cluster) (hmem : ref.report.name ∈ cl.names)
    (pre post : List KnownCluster) (hpre : ∀ c ∈ pre, c.Skips ref.report) :
    planFindClusterForNode (pre ++ cl :: post) ref = pre ++ cl.rebind ref :: post := by
  induction pre with
  | nil => rw [List.nil_append, planFindClusterForNode, if_pos hname, if_pos hmem]; rfl
  | cons c pre ih =>
      have hrest := ih (fun c' hc' => hpre c' (List.mem_cons_of_mem _ hc'))
      have hskips := hpre c List.mem_cons_self
      rw [List.cons_append, planFindClusterForNode, hrest, List.cons_append]
      by_cases hc : c.clusterName = ref.report.cluster
      · rw [if_pos hc, if_neg (hskips hc).1, if_neg (hskips hc).2]
      · rw [if_neg hc]

/-- A passed cluster is passed after another node was entered. -/
theorem GrownFrom.skips {ref : NodeRef} {cl cl' : KnownCluster} {n : NodeReport}
    (h : GrownFrom ref cl cl') (hne : n.name ≠ ref.report.name) (hskips : cl.Skips n) :
    cl'.Skips n := by
  obtain ⟨hname, hprops⟩ := Prod.mk.inj h.key
  intro heq
  obtain ⟨hnot, hfit⟩ := hskips (hname.symm.trans heq)
  refine ⟨?_, hprops ▸ hfit⟩
  intro hmem
  rcases h.names _ hmem with hmem | hmem
  · exact hne hmem
  · exact hnot hmem

/-- The cluster the search finds the name in is set to the new node. -/
theorem FindsAt.rebinds {cls : List KnownCluster} {i : ℕ} {cl : KnownCluster} (ref : NodeRef)
    (h : FindsAt cls i cl ref.report) (hcl : cls[i]? = some cl)
    (hmem : ref.report.name ∈ cl.names) :
    cls = cls.take i ++ cl :: cls.drop (i + 1) ∧
      planFindClusterForNode cls ref = cls.take i ++ cl.rebind ref :: cls.drop (i + 1) := by
  obtain ⟨hi, hget⟩ := List.getElem?_eq_some_iff.mp hcl
  have hsplit : cls = cls.take i ++ cl :: cls.drop (i + 1) := by
    rw [← hget, List.cons_getElem_drop_succ, List.take_append_drop]
  refine ⟨hsplit, ?_⟩
  have hrun := planFindClusterForNode_eq_rebind h.1.symm hmem (cls.take i) (cls.drop (i + 1)) h.2
  rw [← hsplit] at hrun
  exact hrun

/-- A place where a node is found is one after another node was entered. -/
theorem FindsAt.found {cls : List KnownCluster} {i : ℕ} {cl cl' : KnownCluster} {ref : NodeRef}
    {m : NodeReport} (h : FindsAt cls i cl m) (hcl : cls[i]? = some cl)
    (hgrown : GrownFrom ref cl cl') (hne : m.name ≠ ref.report.name) :
    FindsAt (planFindClusterForNode cls ref) i cl' m := by
  refine ⟨?_, ?_⟩
  · rw [h.1]
    exact (Prod.mk.inj hgrown.key).1.symm
  · intro c hc
    obtain ⟨j, hj⟩ := List.mem_iff_getElem?.mp hc
    obtain ⟨hji, hj'⟩ : j < i ∧ (planFindClusterForNode cls ref)[j]? = some c := by
      rw [List.getElem?_take] at hj
      split at hj
      · next hji => exact ⟨hji, hj⟩
      · cases hj
    obtain ⟨hi, -⟩ := List.getElem?_eq_some_iff.mp hcl
    rcases (planFindClusterForNode_found cls ref).grown hj' with ⟨c₀, hc₀, hgrown'⟩ | ⟨hlen, -⟩
    · refine hgrown'.skips hne (h.2 c₀ ?_)
      refine List.mem_iff_getElem?.mpr ⟨j, ?_⟩
      rw [List.getElem?_take, if_pos hji]
      exact hc₀
    · omega

/-- Entering the next node. -/
theorem StaleFound.found {cycle : ℕ} {nodes todo : List NodeReport} {cls : List KnownCluster}
    {n : NodeReport} (honce : NamesOnce cls) (hn : n ∈ nodes)
    (hnew : n.name ∉ todo.map NodeReport.name) (h : StaleFound cycle nodes cls (n :: todo)) :
    StaleFound cycle nodes (planFindClusterForNode cls ⟨cycle, n⟩) todo := by
  intro i cl' hcl' e he hpending
  have hnotref : ¬ (e.nodeName = n.name ∧ e.node = ⟨cycle, n⟩) := by
    rintro ⟨hname, heq⟩
    rcases hpending with hstale | htodo
    · refine hstale ⟨?_, ?_⟩
      · rw [heq]
      · rw [heq]
        exact hn
    · exact hnew (hname ▸ htodo)
  rcases (planFindClusterForNode_found cls ⟨cycle, n⟩).grown hcl' with
    ⟨cl, hcl, hgrown⟩ | ⟨-, e', hentries, hname', he'⟩
  · have hecl : e ∈ cl.entries := (hgrown.entries e he).resolve_left hnotref
    have hbefore : ¬ e.Current cycle nodes ∨ e.nodeName ∈ (n :: todo).map NodeReport.name :=
      hpending.imp_right (List.mem_cons_of_mem _)
    obtain ⟨m, hm, hname, hfinds⟩ := h i cl hcl e hecl hbefore
    rcases List.mem_cons.mp hm with rfl | hm
    · -- the node just entered was found here by name, so the entry points to it
      exfalso
      have hmem : m.name ∈ cl.names := by
        rw [hname]
        exact List.mem_map_of_mem hecl
      obtain ⟨hi, -⟩ := List.getElem?_eq_some_iff.mp hcl
      have hlen : (cls.take i).length = i := by
        rw [List.length_take]
        omega
      rw [(FindsAt.rebinds ⟨cycle, m⟩ hfinds hcl hmem).2,
        List.getElem?_append_right (by omega), hlen, Nat.sub_self] at hcl'
      cases hcl'
      refine hnotref ⟨hname.symm, ?_⟩
      exact rebindEntries_of_name (honce cl (List.mem_of_getElem? hcl)) he hname.symm
    · have hne : m.name ≠ n.name := by
        rintro heq
        exact hnew (heq ▸ List.mem_map_of_mem hm)
      exact ⟨m, hm, hname, hfinds.found hcl hgrown hne⟩
  · rw [hentries, List.mem_singleton] at he
    exact absurd (he ▸ ⟨hname', he'⟩) hnotref

/-- A node that is known is found by its name. -/
theorem StaleFound.known {cycle : ℕ} {nodes todo : List NodeReport} {cls : List KnownCluster}
    {n : NodeReport} (hnew : n.name ∉ todo.map NodeReport.name)
    (h : StaleFound cycle nodes cls (n :: todo)) (hmem : n.name ∈ allNames cls) :
    ∃ pre cl post, cls = pre ++ cl :: post ∧
      planFindClusterForNode cls ⟨cycle, n⟩ = pre ++ cl.rebind ⟨cycle, n⟩ :: post := by
  obtain ⟨cl, hcl, hname⟩ := mem_allNames.mp hmem
  obtain ⟨i, hi⟩ := List.mem_iff_getElem?.mp hcl
  obtain ⟨e, he, hename⟩ := List.mem_map.mp hname
  obtain ⟨m, hm, hmname, hfinds⟩ := h i cl hi e he (Or.inr (by simp [hename]))
  rcases List.mem_cons.mp hm with rfl | hm
  · obtain ⟨hsplit, hrun⟩ := FindsAt.rebinds ⟨cycle, m⟩ hfinds hi hname
    exact ⟨_, _, _, hsplit, hrun⟩
  · refine absurd ?_ hnew
    rw [← hename, ← hmname]
    exact List.mem_map_of_mem hm

/-- Entering the nodes that are left: in the end nothing is to be found any more. -/
theorem StaleFound.update {cycle : ℕ} {nodes : List NodeReport} (todo : List NodeReport) :
    ∀ {cls : List KnownCluster}, NamesOnce cls → (∀ n ∈ todo, n ∈ nodes) →
      (todo.map NodeReport.name).Nodup → StaleFound cycle nodes cls todo →
      NamesOnce (planUpdateClusters cycle todo cls) ∧
        StaleFound cycle nodes (planUpdateClusters cycle todo cls) [] := by
  induction todo with
  | nil =>
      intro cls honce _ _ h
      exact ⟨honce, h⟩
  | cons n todo ih =>
      intro cls honce hnodes hnodup h
      rw [List.map_cons, List.nodup_cons] at hnodup
      refine ih (honce.found (planFindClusterForNode_found cls ⟨cycle, n⟩)) ?_ hnodup.2 ?_
      · exact fun m hm => hnodes m (List.mem_cons_of_mem _ hm)
      · exact h.found honce (hnodes n List.mem_cons_self) hnodup.1

/-- After `plan_update_clusters` all pointers of the clusters are those of the snapshot,
if every node of every cluster was reported again and found. -/
theorem planUpdateClusters_current (cycle : ℕ) {nodes : List NodeReport}
    {cls : List KnownCluster} (honce : NamesOnce cls)
    (hdistinct : (nodes.map NodeReport.name).Nodup) (hrefreshed : Refreshed cls nodes) :
    NamesOnce (planUpdateClusters cycle nodes cls) ∧
      ∀ cl ∈ planUpdateClusters cycle nodes cls, ∀ e ∈ cl.entries, e.Current cycle nodes := by
  have hstale : StaleFound cycle nodes cls nodes := by
    intro i cl hcl e he _
    exact hrefreshed i cl hcl e he
  obtain ⟨honce', hend⟩ := hstale.update nodes honce (fun n hn => hn) hdistinct
  refine ⟨honce', ?_⟩
  intro cl hcl e he
  by_contra hnot
  obtain ⟨i, hi⟩ := List.mem_iff_getElem?.mp hcl
  obtain ⟨n, hn, -⟩ := hend i cl hi e he (Or.inl hnot)
  cases hn

/-! ## The CPU count -/

/-- The cores of all nodes of a cluster. -/
def KnownCluster.coresSum (cl : KnownCluster) : ℕ := (cl.entries.map NodeEntry.cores).sum

/-- The count is that of the planner's view. -/
theorem KnownCluster.coresSum_planCluster (cl : KnownCluster) :
    cl.planCluster.coresSum = cl.coresSum := by
  unfold PlanCluster.coresSum KnownCluster.planCluster KnownCluster.coresSum
  rw [List.map_map]
  rfl

/-- What is known of the nodes still to come has the cores it had. -/
def CoresKept (cls : List KnownCluster) (todo : List NodeReport) : Prop :=
  ∀ cl ∈ cls, ∀ e ∈ cl.entries, ∀ n ∈ todo, n.name = e.nodeName → n.info.coresTotal = e.cores

/-- Rebinding to nodes of as many cores. -/
theorem rebindEntries_cores {ref : NodeRef} {entries : List NodeEntry}
    (h : ∀ e ∈ entries, ref.report.name = e.nodeName → ref.report.info.coresTotal = e.cores) :
    (rebindEntries ref entries).map NodeEntry.cores = entries.map NodeEntry.cores := by
  induction entries with
  | nil => rfl
  | cons e es ih =>
      rw [rebindEntries]
      split
      · next hname =>
          have hcores := h e List.mem_cons_self hname.symm
          rw [List.map_cons, List.map_cons, ← hcores]
          rfl
      · rw [List.map_cons, List.map_cons, ih (fun e' he' => h e' (List.mem_cons_of_mem _ he'))]

/-- Entering a node with the cores it had keeps the count. -/
theorem FoundCluster.numCpus {cls cls' : List KnownCluster} {ref : NodeRef}
    (h : FoundCluster cls ref cls') (hcores : CoresKept cls [ref.report])
    (hinv : ∀ cl ∈ cls, cl.numCpus = cl.coresSum) : ∀ cl ∈ cls', cl.numCpus = cl.coresSum := by
  have hadd : ∀ cl : KnownCluster, cl.numCpus = cl.coresSum →
      (cl.addNode ref).numCpus = (cl.addNode ref).coresSum := by
    intro cl hcl
    unfold KnownCluster.coresSum KnownCluster.addNode
    rw [List.map_append, List.sum_append, List.map_singleton, List.sum_singleton]
    change cl.numCpus + _ = cl.coresSum + _
    rw [hcl]
    rfl
  refine h.forall hinv ?_ (fun cl _ hcl _ => hadd cl hcl) (hadd _ rfl)
  intro cl hmem hcl _
  refine hcl.trans (congrArg List.sum (rebindEntries_cores ?_)).symm
  intro e he hname
  exact hcores cl hmem e he ref.report (List.mem_singleton.mpr rfl) hname

/-- The nodes still to come have other names than the one entered. -/
theorem CoresKept.found {cls : List KnownCluster} {ref : NodeRef} {todo : List NodeReport}
    (hnew : ref.report.name ∉ todo.map NodeReport.name) (h : CoresKept cls (ref.report :: todo)) :
    CoresKept (planFindClusterForNode cls ref) todo := by
  intro cl' hcl' e he n hn hname
  have hother : e.nodeName ≠ ref.report.name := by
    intro heq
    rw [← heq, ← hname] at hnew
    exact hnew (List.mem_map_of_mem hn)
  obtain ⟨i, hi⟩ := List.mem_iff_getElem?.mp hcl'
  rcases (planFindClusterForNode_found cls ref).grown hi with
    ⟨cl, hcl, hgrown⟩ | ⟨-, e', hentries, hname', -⟩
  · rcases hgrown.entries e he with ⟨hname', -⟩ | hecl
    · exact absurd hname' hother
    · exact h cl (List.mem_of_getElem? hcl) e hecl n (List.mem_cons_of_mem _ hn) hname
  · rw [hentries, List.mem_singleton] at he
    exact absurd (he ▸ hname') hother

/-- The count after a snapshot. -/
theorem planUpdateClusters_numCpus (cycle : ℕ) (nodes : List NodeReport) :
    ∀ {cls : List KnownCluster}, (nodes.map NodeReport.name).Nodup → CoresKept cls nodes →
      (∀ cl ∈ cls, cl.numCpus = cl.coresSum) →
      ∀ cl ∈ planUpdateClusters cycle nodes cls, cl.numCpus = cl.coresSum := by
  induction nodes with
  | nil =>
      intro cls _ _ hinv
      exact hinv
  | cons n nodes ih =>
      intro cls hnodup hcores hinv
      rw [List.map_cons, List.nodup_cons] at hnodup
      refine ih hnodup.2 (hcores.found hnodup.1) ?_
      refine (planFindClusterForNode_found cls ⟨cycle, n⟩).numCpus ?_ hinv
      intro cl hcl e he m hm
      rw [List.mem_singleton.mp hm]
      exact hcores cl hcl e he n List.mem_cons_self

/-! ## The last node of a cluster -/

/-- The last node of the cluster has a core. -/
def KnownCluster.EndsWithCores (cl : KnownCluster) : Prop :=
  ∀ c ∈ (cl.entries.map NodeEntry.cores).getLast?, 0 < c

/-- The cluster ends with a core, or a node of its key with a core is still to come. -/
def WillEndWithCores (cls : List KnownCluster) (todo : List NodeReport) : Prop :=
  ∀ cl ∈ cls, cl.EndsWithCores ∨
    ∃ m ∈ todo, m.name ∉ allNames cls ∧ m.key = cl.key ∧ 0 < m.info.coresTotal

/-- A new node without cores is followed by a new one with cores for its cluster. -/
def CorelessFollowed (cls : List KnownCluster) (nodes : List NodeReport) : Prop :=
  ∀ pre n post, nodes = pre ++ n :: post → n.name ∉ allNames cls → n.info.coresTotal = 0 →
    ∃ m ∈ post, m.name ∉ allNames cls ∧ m.key = n.key ∧ 0 < m.info.coresTotal

/-- No two clusters take the same nodes. -/
def KeysOnce (cls : List KnownCluster) : Prop := (cls.map KnownCluster.key).Nodup

/-- Entering a node keeps the keys apart. -/
theorem KeysOnce.found {cls cls' : List KnownCluster} {ref : NodeRef} (hinv : KeysOnce cls)
    (h : FoundCluster cls ref cls') : KeysOnce cls' := by
  unfold KeysOnce at hinv ⊢
  cases h with
  | rebound pre post cl hsplit hpre hname hmem =>
      rw [hsplit, List.map_append, List.map_cons] at hinv
      rw [List.map_append, List.map_cons, KnownCluster.key_rebind]
      exact hinv
  | added pre post cl hsplit hpre hkey hnew =>
      rw [hsplit, List.map_append, List.map_cons] at hinv
      rw [List.map_append, List.map_cons, KnownCluster.key_addNode]
      exact hinv
  | created hall =>
      rw [List.map_append, List.map_singleton, KnownCluster.key_addNode, ← List.concat_eq_append]
      refine hinv.concat ?_
      intro hmem
      obtain ⟨c, hc, hkey⟩ := List.mem_map.mp hmem
      obtain ⟨hname, hprops⟩ := Prod.mk.inj hkey
      exact (hall c hc hname).2 hprops

/-- Names are not lost. -/
theorem FoundCluster.allNames_subset {cls cls' : List KnownCluster} {ref : NodeRef}
    (h : FoundCluster cls ref cls') : allNames cls ⊆ allNames cls' := by
  intro x hx
  obtain ⟨cl, hcl, hmem⟩ := mem_allNames.mp hx
  obtain ⟨cl', hcl', -, hnames⟩ := h.carries cl hcl
  exact mem_allNames.mpr ⟨cl', hcl', hnames hmem⟩

/-- What follows a new node without cores does so after another node was entered. -/
theorem CorelessFollowed.found {cls : List KnownCluster} {ref : NodeRef} {todo : List NodeReport}
    (hnew : ref.report.name ∉ todo.map NodeReport.name)
    (h : CorelessFollowed cls (ref.report :: todo)) :
    CorelessFollowed (planFindClusterForNode cls ref) todo := by
  have hfound := planFindClusterForNode_found cls ref
  intro pre n post hsplit hfresh hzero
  have hbefore : n.name ∉ allNames cls := fun hmem => hfresh (hfound.allNames_subset hmem)
  obtain ⟨m, hm, hmfresh, hkey, hpos⟩ :=
    h (ref.report :: pre) n post (by rw [hsplit]; rfl) hbefore hzero
  refine ⟨m, hm, ?_, hkey, hpos⟩
  intro hmem
  refine hmfresh (hfound.names hmem ?_)
  intro heq
  refine hnew (heq ▸ List.mem_map_of_mem ?_)
  rw [hsplit]
  exact List.mem_append_right _ (List.mem_cons_of_mem _ hm)

/-- A cluster that a node with cores was added to ends with it. -/
theorem endsWithCores_addNode {cl : KnownCluster} {ref : NodeRef}
    (hpos : 0 < ref.report.info.coresTotal) : (cl.addNode ref).EndsWithCores := by
  intro c hc
  unfold KnownCluster.addNode at hc
  rw [List.map_append, List.map_singleton, List.getLast?_concat] at hc
  cases hc
  exact hpos

/-- Entering a known node, which is found by its name. -/
theorem WillEndWithCores.rebound {pre post : List KnownCluster} {cl : KnownCluster}
    {ref : NodeRef} {todo : List NodeReport}
    (hcores : CoresKept (pre ++ cl :: post) [ref.report])
    (hknown : ref.report.name ∈ allNames (pre ++ cl :: post))
    (h : WillEndWithCores (pre ++ cl :: post) (ref.report :: todo)) :
    WillEndWithCores (pre ++ cl.rebind ref :: post) todo := by
  have hnames : allNames (pre ++ cl.rebind ref :: post) = allNames (pre ++ cl :: post) := by
    unfold allNames
    rw [List.flatMap_append, List.flatMap_append, List.flatMap_cons, List.flatMap_cons,
      KnownCluster.names_rebind]
  have hstep : ∀ c ∈ pre ++ cl :: post, c.EndsWithCores ∨ ∃ m ∈ todo,
      m.name ∉ allNames (pre ++ cl :: post) ∧ m.key = c.key ∧ 0 < m.info.coresTotal := by
    intro c hc
    rcases h c hc with hends | ⟨m, hm, hfresh, hkey⟩
    · exact Or.inl hends
    · rcases List.mem_cons.mp hm with rfl | hm
      · exact absurd hknown hfresh
      · exact Or.inr ⟨m, hm, hfresh, hkey⟩
  intro c hc
  rw [hnames]
  rcases List.mem_append.mp hc with hc | hc
  · exact hstep c (List.mem_append_left _ hc)
  · rcases List.mem_cons.mp hc with rfl | hc
    · have hsame : (cl.rebind ref).entries.map NodeEntry.cores
          = cl.entries.map NodeEntry.cores := by
        refine rebindEntries_cores ?_
        intro e he hname
        exact hcores cl (by simp) e he ref.report (List.mem_singleton.mpr rfl) hname
      refine (hstep cl (by simp)).imp_left ?_
      unfold KnownCluster.EndsWithCores
      rw [hsame]
      exact id
    · exact hstep c (List.mem_append_right _ (List.mem_cons_of_mem _ hc))

/-- Entering a new node. -/
theorem WillEndWithCores.entered {cls cls' : List KnownCluster} {ref : NodeRef}
    {todo : List NodeReport} (hkeys : KeysOnce cls) (hfresh : ref.report.name ∉ allNames cls)
    (hnew : ref.report.name ∉ todo.map NodeReport.name)
    (hfollowed : CorelessFollowed cls (ref.report :: todo)) (hfound : FoundCluster cls ref cls')
    (h : WillEndWithCores cls (ref.report :: todo)) : WillEndWithCores cls' todo := by
  have hlater : ∀ m ∈ todo, m.name ∉ allNames cls → m.name ∉ allNames cls' := by
    intro m hm hmfresh hmem
    refine hmfresh (hfound.names hmem ?_)
    intro heq
    exact hnew (heq ▸ List.mem_map_of_mem hm)
  -- a cluster of another key does not wait for the node entered now
  have hother : ∀ c ∈ cls, c.key ≠ ref.report.key → c.EndsWithCores ∨ ∃ m ∈ todo,
      m.name ∉ allNames cls' ∧ m.key = c.key ∧ 0 < m.info.coresTotal := by
    intro c hc hne
    rcases h c hc with hends | ⟨m, hm, hmfresh, hkey, hpos⟩
    · exact Or.inl hends
    · rcases List.mem_cons.mp hm with rfl | hm
      · exact absurd hkey.symm hne
      · exact Or.inr ⟨m, hm, hlater m hm hmfresh, hkey, hpos⟩
  have hself : ∀ c : KnownCluster, c.key = ref.report.key → (c.addNode ref).EndsWithCores ∨
      ∃ m ∈ todo, m.name ∉ allNames cls' ∧ m.key = (c.addNode ref).key ∧
        0 < m.info.coresTotal := by
    intro c hckey
    by_cases hzero : ref.report.info.coresTotal = 0
    · obtain ⟨m, hm, hmfresh, hkey, hpos⟩ := hfollowed [] ref.report todo rfl hfresh hzero
      exact Or.inr ⟨m, hm, hlater m hm hmfresh, hkey.trans hckey.symm, hpos⟩
    · exact Or.inl (endsWithCores_addNode (by omega))
  cases hfound with
  | rebound pre post cl hsplit hpre hname hmem =>
      exact absurd (mem_allNames.mpr ⟨cl, by simp [hsplit], hmem⟩) hfresh
  | added pre post cl hsplit hpre hkey hmem =>
      unfold KeysOnce at hkeys
      rw [hsplit, List.map_append, List.map_cons, List.nodup_middle, List.nodup_cons,
        ← List.map_append] at hkeys
      have hne : ∀ c ∈ pre ++ post, c.key ≠ ref.report.key := by
        intro c hc heq
        exact hkeys.1 (List.mem_map.mpr ⟨c, hc, heq.trans hkey.symm⟩)
      intro c hc
      rcases List.mem_append.mp hc with hc | hc
      · exact hother c (by simp [hsplit, hc]) (hne c (by simp [hc]))
      · rcases List.mem_cons.mp hc with rfl | hc
        · exact hself cl hkey
        · exact hother c (by simp [hsplit, hc]) (hne c (by simp [hc]))
  | created hall =>
      intro c hc
      rcases List.mem_append.mp hc with hc | hc
      · refine hother c hc ?_
        intro heq
        obtain ⟨hname, hprops⟩ := Prod.mk.inj heq
        exact (hall c hc hname).2 hprops
      · rw [List.mem_singleton.mp hc]
        exact hself _ rfl

/-- Entering the nodes that are left: in the end every cluster ends with a core. -/
theorem WillEndWithCores.update {cycle : ℕ} {nodes : List NodeReport} (todo : List NodeReport) :
    ∀ {cls : List KnownCluster}, NamesOnce cls → KeysOnce cls → (∀ n ∈ todo, n ∈ nodes) →
      (todo.map NodeReport.name).Nodup → StaleFound cycle nodes cls todo → CoresKept cls todo →
      CorelessFollowed cls todo → WillEndWithCores cls todo →
      KeysOnce (planUpdateClusters cycle todo cls) ∧
        ∀ cl ∈ planUpdateClusters cycle todo cls, cl.EndsWithCores := by
  induction todo with
  | nil =>
      intro cls _ hkeys _ _ _ _ _ h
      refine ⟨hkeys, ?_⟩
      intro cl hcl
      rcases h cl hcl with hends | ⟨m, hm, -⟩
      · exact hends
      · cases hm
  | cons n todo ih =>
      intro cls honce hkeys hnodes hnodup hstale hcores hfollowed h
      rw [List.map_cons, List.nodup_cons] at hnodup
      have hfound := planFindClusterForNode_found cls ⟨cycle, n⟩
      refine ih (honce.found hfound) (hkeys.found hfound) ?_ hnodup.2 ?_ ?_ ?_ ?_
      · exact fun m hm => hnodes m (List.mem_cons_of_mem _ hm)
      · exact hstale.found honce (hnodes n List.mem_cons_self) hnodup.1
      · exact hcores.found hnodup.1
      · exact hfollowed.found hnodup.1
      · by_cases hknown : n.name ∈ allNames cls
        · obtain ⟨pre, cl, post, rfl, hrun⟩ := hstale.known hnodup.1 hknown
          change WillEndWithCores (planFindClusterForNode _ ⟨cycle, n⟩) todo
          rw [hrun]
          refine WillEndWithCores.rebound ?_ hknown h
          intro c hc e he m hm
          rw [List.mem_singleton.mp hm]
          exact hcores c hc e he n List.mem_cons_self
        · exact h.entered hkeys hknown hnodup.1 hfollowed hfound

/-! ## Capacity over the cycles -/

/-- What a snapshot has to keep: known nodes are reported again, found, and have the
cores they had, and no new cluster end is without cores. -/
structure KeepsCapacity (cls : List KnownCluster) (nodes : List NodeReport) : Prop where
  refreshed : Refreshed cls nodes
  coresKept : CoresKept cls nodes
  corelessFollowed : CorelessFollowed cls nodes

/-- The pointers of a cluster are those of the snapshot, and its CPU count and its slot
table fit its nodes. -/
structure FitsNodes (cycle : ℕ) (nodes : List NodeReport) (cl : KnownCluster) : Prop where
  current : ∀ e ∈ cl.entries, e.Current cycle nodes
  numCpus : cl.planCluster.numCpus = cl.planCluster.coresSum
  table : cl.planCluster.TableFits

/-- What holds of the clusters between the cycles. -/
structure CapacityInv (cls : List KnownCluster) : Prop where
  namesOnce : NamesOnce cls
  keysOnce : KeysOnce cls
  numCpus : ∀ cl ∈ cls, cl.numCpus = cl.coresSum
  ends : ∀ cl ∈ cls, cl.EndsWithCores

/-- A snapshot that keeps the capacity. -/
theorem CapacityInv.update {cls : List KnownCluster} (cycle : ℕ) {nodes : List NodeReport}
    (hinv : CapacityInv cls) (hdistinct : (nodes.map NodeReport.name).Nodup)
    (hkeeps : KeepsCapacity cls nodes) :
    CapacityInv (planUpdateClusters cycle nodes cls) ∧
      ∀ cl ∈ planUpdateClusters cycle nodes cls, FitsNodes cycle nodes cl := by
  obtain ⟨honce, hcurrent⟩ := planUpdateClusters_current cycle hinv.namesOnce hdistinct
    hkeeps.refreshed
  have hnum := planUpdateClusters_numCpus cycle nodes hdistinct hkeeps.coresKept hinv.numCpus
  have hstale : StaleFound cycle nodes cls nodes :=
    fun i cl hcl e he _ => hkeeps.refreshed i cl hcl e he
  obtain ⟨hkeys, hends⟩ := WillEndWithCores.update nodes hinv.namesOnce hinv.keysOnce
    (fun n hn => hn) hdistinct hstale hkeeps.coresKept hkeeps.corelessFollowed
    (fun cl hcl => Or.inl (hinv.ends cl hcl))
  refine ⟨⟨honce, hkeys, hnum, hends⟩, ?_⟩
  intro cl hcl
  have hcount : cl.planCluster.numCpus = cl.planCluster.coresSum := by
    rw [KnownCluster.coresSum_planCluster]
    exact hnum cl hcl
  refine ⟨hcurrent cl hcl, hcount, tableFits hcount ?_ ?_⟩
  · have hcores : cl.planCluster.nodes.map NodeInfo.coresTotal
        = cl.entries.map NodeEntry.cores := by
      unfold KnownCluster.planCluster
      rw [List.map_map]
      rfl
    rw [hcores]
    exact hends cl hcl
  · intro node hnode
    obtain ⟨e, -, rfl⟩ := List.mem_map.mp hnode
    exact e.node.report.jobs_length

/-- In every run whose snapshots keep the capacity, the CPU count and the slot table of
each cluster fit its nodes after each snapshot. -/
theorem clusters_capacity (snapshots : List (List NodeReport))
    (hdistinct : ∀ nodes ∈ snapshots, (nodes.map NodeReport.name).Nodup)
    (hkeeps : ∀ past nodes future, snapshots = past ++ nodes :: future →
      KeepsCapacity (clustersAfter past) nodes) :
    ∀ past nodes future, snapshots = past ++ nodes :: future →
      ∀ cl ∈ clustersAfter (past ++ [nodes]), FitsNodes past.length nodes cl := by
  have hinv : ∀ past future, snapshots = past ++ future → CapacityInv (clustersAfter past) := by
    intro past
    induction past using List.reverseRecOn with
    | nil =>
        intro future _
        exact ⟨by simp [NamesOnce, clustersAfter], List.nodup_nil, by simp [clustersAfter],
          by simp [clustersAfter]⟩
    | append_singleton past nodes ih =>
        intro future hsplit
        rw [List.append_assoc, List.singleton_append] at hsplit
        rw [clustersAfter_append_singleton]
        exact ((ih _ hsplit).update past.length (hdistinct nodes (by simp [hsplit]))
          (hkeeps past nodes future hsplit)).1
  intro past nodes future hsplit
  rw [clustersAfter_append_singleton]
  exact ((hinv past _ hsplit).update past.length (hdistinct nodes (by simp [hsplit]))
    (hkeeps past nodes future hsplit)).2

/-- A node of two cores that is reported in two cycles. -/
theorem clusters_capacity_two :
    ∃ cl, clustersAfter [[plainReport "zubat1" 2 "zubat" ∅], [plainReport "zubat1" 2 "zubat" ∅]]
        = [cl] ∧ FitsNodes 1 [plainReport "zubat1" 2 "zubat" ∅] cl := by
  refine ⟨_, rfl, clusters_capacity
    [[plainReport "zubat1" 2 "zubat" ∅], [plainReport "zubat1" 2 "zubat" ∅]] (by decide +kernel) ?_
    [_] _ [] rfl _ List.mem_cons_self⟩
  intro past nodes future hsplit
  have hcases : past = [] ∧ nodes = [plainReport "zubat1" 2 "zubat" ∅] ∨
      past = [[plainReport "zubat1" 2 "zubat" ∅]] ∧ nodes = [plainReport "zubat1" 2 "zubat" ∅] := by
    rcases past with _ | ⟨p, _ | ⟨q, past⟩⟩
    · simp only [List.nil_append, List.cons.injEq] at hsplit
      exact Or.inl ⟨rfl, hsplit.1.symm⟩
    · simp only [List.cons_append, List.nil_append, List.cons.injEq] at hsplit
      exact Or.inr ⟨by rw [hsplit.1], hsplit.2.1.symm⟩
    · simp at hsplit
  have hcores : ∀ cls, CorelessFollowed cls [plainReport "zubat1" 2 "zubat" ∅] := by
    intro cls pre n post hn _ hzero
    have hmem : n ∈ [plainReport "zubat1" 2 "zubat" ∅] := by
      rw [hn]
      simp
    rw [List.mem_singleton.mp hmem] at hzero
    cases hzero
  have hone : clustersAfter [[plainReport "zubat1" 2 "zubat" ∅]]
      = [⟨"zubat", ∅, [⟨"zubat1", 0, plainReport "zubat1" 2 "zubat" ∅⟩], 2, 2, 8, 0⟩] := rfl
  rcases hcases with ⟨rfl, rfl⟩ | ⟨rfl, rfl⟩
  · exact ⟨by simp [Refreshed, clustersAfter], by simp [CoresKept, clustersAfter], hcores _⟩
  · rw [hone]
    refine ⟨?_, ?_, hcores _⟩
    · intro i cl hcl e he
      obtain ⟨rfl, rfl⟩ : i = 0 ∧ _ = cl := by
        rcases i with _ | i
        · exact ⟨rfl, by simpa using hcl⟩
        · simp at hcl
      rw [List.mem_singleton.mp he]
      exact ⟨_, List.mem_singleton.mpr rfl, rfl, rfl, by simp⟩
    · intro cl hcl e he n hn _
      rw [List.mem_singleton.mp hcl] at he
      rw [List.mem_singleton.mp he, List.mem_singleton.mp hn]
      rfl

/-- A node that comes back with more cores runs over the end of the slot table. -/
theorem clusters_capacity_overrun :
    ∃ cl ∈ clustersAfter [[plainReport "zubat1" 2 "zubat" ∅], [plainReport "zubat1" 4 "zubat" ∅]],
      cl.planCluster.numCpus = 2 ∧ cl.planCluster.coresSum = 4 ∧
      firstFreeSlotsCreate cl.planCluster = .error .badIndex := by
  refine ⟨_, List.mem_singleton.mpr rfl, rfl, rfl, rfl⟩

end PlanSched
