/-
# The CPUs and the nodes of a placement

`update_job` (`plan_operations.cpp`) records a placement twice: the CPUs in
`cpu_indexes`, ordered by the time they become free, and the node of every complete
chunk in `ninfo_arr`.  When the loop abandons a node it drops the last cells of
`cpu_indexes`, as many as it entered for that node.  If one of them was sorted in front
of a CPU of a complete chunk, a wrong CPU is dropped: the CPU of the abandoned node
stays, and one of the complete chunk is lost.

* `CleanCuts`: whenever a node is abandoned, its CPUs are the last cells;
* `ChosenInv`: then the array holds the CPUs of the complete chunks and of the current one;
* `chosen_agree`: so the CPUs are distinct, and every node has `req_ppn` of them for every
  time it stands in `ninfo_arr`; `chosen_disagree` shows a cut that is not clean.
-/
import PlanSched.PlacementArrays

namespace PlanSched

open CheckedRun

/-! ## What is asked for, and when it holds -/

/-- The CPUs of the array that lie on node `n`. -/
def chosenOn (slots : List FirstFreeSlot) (cpus : List ℕ) (n : ℕ) : List ℕ :=
  cpus.filter (fun c => slotNode slots c = some n)

/-- The CPUs of the job are distinct slots, and every node has `req_ppn` of them for every
time it stands in `ninfo_arr`. -/
structure CpusAgree (slots : List FirstFreeSlot) (job : PlanJob) : Prop where
  length_eq : job.cpuIndexes.length = job.usage
  slots_lt : ∀ c ∈ job.cpuIndexes, c < slots.length
  nodup : job.cpuIndexes.Nodup
  counts : ∀ n, (chosenOn slots job.cpuIndexes n).length
    = job.reqPpn * (job.ninfoArr.take job.reqNumNodes).count (some n)

/-- If CPU `c` makes the loop abandon a node, the CPUs entered for that node are the last
ones of the array. -/
def CleanCut (slots : List FirstFreeSlot) (job : PlanJob) (sel : Selection) (c : ℕ) : Prop :=
  ∀ m, sel.consideredNode = some m → slotNode slots c ≠ some m →
    (sel.cpuIndexes.drop (sel.planNumNodes * job.reqPpn)).Perm sel.tmpCpuArr

/-- Every node that is abandoned leaves that way. -/
def CleanCuts (cluster : PlanCluster) (slots : List FirstFreeSlot) (job : PlanJob) : Prop :=
  ∀ sel₀ sel c, LoopStarts cluster slots job sel₀ →
    LoopReaches cluster slots job (wipeFixedNodes job).2 sel₀ sel →
    sel.cpuIndexes.length < job.usage → ithSmallest slots sel = some c → CleanCut slots job sel c

/-! ## The invariant -/

/-- The array holds the CPUs `complete` of the complete chunks and those of the current
one; the marks tell them apart from the slots that may be chosen. -/
structure ChosenInv (slots : List FirstFreeSlot) (job : PlanJob) (complete : List ℕ)
    (sel : Selection) : Prop where
  perm : sel.cpuIndexes.Perm (complete ++ sel.tmpCpuArr)
  nodup : (complete ++ sel.tmpCpuArr).Nodup
  used : ∀ c ∈ complete, sel.avail[c]? = some .alreadyUsed
  chunk : ∀ c ∈ sel.tmpCpuArr, sel.avail[c]? = some (.tried sel.attemptCount)
  chunk_node : ∀ c ∈ sel.tmpCpuArr, slotNode slots c = sel.consideredNode
  idle : sel.consideredNode = none → sel.tmpCpuArr = []
  length_eq : complete.length = sel.planNumNodes * job.reqPpn
  counts : ∀ n, (chosenOn slots complete n).length
    = job.reqPpn * (sel.ninfoArr.take sel.planNumNodes).count (some n)
  cells : sel.avail.length = slots.length
  nodes_length : sel.ninfoArr.length = job.reqNumNodes

section Steps

variable {cluster : PlanCluster} {slots : List FirstFreeSlot} {job : PlanJob}
variable {complete : List ℕ} {sel : Selection}

/-- Before the loop nothing is chosen. -/
theorem chosenInv_initial {avail : List SlotAvailability} (havail : avail.length = slots.length)
    (hnodes : job.ninfoArr.length = job.reqNumNodes) (fixedNnameArr : List (Option String)) :
    ChosenInv slots job [] (Selection.initial job fixedNnameArr avail) where
  perm := List.Perm.refl _
  nodup := List.nodup_nil
  used := by simp
  chunk := by simp [Selection.initial]
  chunk_node := by simp [Selection.initial]
  idle := fun _ => rfl
  length_eq := (Nat.zero_mul _).symm
  counts := by simp [chosenOn, Selection.initial]
  cells := havail
  nodes_length := hnodes

/-- A CPU that may be chosen is neither in a complete chunk nor in the current one. -/
theorem ChosenInv.chosen_new (h : ChosenInv slots job complete sel) {c : ℕ} {slot : FirstFreeSlot}
    (hok : eligible slots sel c slot = true) : c ∉ complete ++ sel.tmpCpuArr := by
  intro hmem
  unfold eligible at hok
  rcases List.mem_append.mp hmem with hc | hc
  · rw [h.used c hc] at hok
    cases hok
  · rw [h.chunk c hc] at hok
    simp at hok

/-- Entering a CPU, when a node that is abandoned leaves cleanly. -/
theorem ChosenInv.enter (h : ChosenInv slots job complete sel) {c : ℕ} {slot : FirstFreeSlot}
    (hslot : slots[c]? = some slot) (hok : eligible slots sel c slot = true)
    (hclean : CleanCut slots job sel c) :
    ChosenInv slots job complete (enterCpu slots (considerNode job sel c slot.ninfo) c) := by
  have hnew := h.chosen_new hok
  have hnode : slotNode slots c = some slot.ninfo := by
    unfold slotNode
    rw [hslot]
    rfl
  have hlt : c < sel.avail.length := by
    rw [h.cells]
    exact (List.getElem?_eq_some_iff.mp hslot).1
  have hused : ∀ a, ∀ d ∈ complete, (sel.avail.set c a)[d]? = some .alreadyUsed := by
    intro a d hd
    rw [List.getElem?_set_ne]
    · exact h.used d hd
    · rintro rfl
      exact hnew (List.mem_append_left _ hd)
  unfold considerNode
  split
  · next habandon =>
      obtain ⟨hsome, hne⟩ := habandon
      obtain ⟨m, hm⟩ := Option.isSome_iff_exists.mp hsome
      -- the cells kept are those of the complete chunks
      have hdropped : (sel.cpuIndexes.drop (sel.planNumNodes * job.reqPpn)).Perm sel.tmpCpuArr := by
        refine hclean m hm ?_
        rw [hnode]
        rintro heq
        exact hne (hm.trans heq.symm)
      have hkept : (sel.cpuIndexes.take (sel.planNumNodes * job.reqPpn)).Perm complete := by
        have hall := h.perm
        rw [← List.take_append_drop (sel.planNumNodes * job.reqPpn) sel.cpuIndexes] at hall
        exact (List.perm_append_right_iff sel.tmpCpuArr).mp
          ((List.Perm.append_left _ hdropped).symm.trans hall)
      constructor
      case perm =>
        show (insertByTime _ c _).Perm (complete ++ [c])
        refine (perm_insertByTime _ _ _).trans ?_
        exact (hkept.cons c).trans (List.perm_append_singleton c complete).symm
      case nodup =>
        show (complete ++ [c]).Nodup
        rw [List.nodup_append]
        refine ⟨(List.nodup_append.mp h.nodup).1, List.nodup_singleton c, ?_⟩
        intro d hd e he
        rw [List.mem_singleton.mp he]
        rintro rfl
        exact hnew (List.mem_append_left _ hd)
      case used => exact hused _
      case chunk =>
        intro d hd
        rw [List.mem_singleton.mp hd]
        exact List.getElem?_set_self hlt
      case chunk_node =>
        intro d hd
        rw [List.mem_singleton.mp hd]
        exact hnode
      case idle =>
        intro hnone
        cases hnone
      case length_eq => exact h.length_eq
      case counts => exact h.counts
      case cells => exact (List.length_set).trans h.cells
      case nodes_length => exact h.nodes_length
  · next hsame =>
      constructor
      case perm =>
        show (insertByTime _ c _).Perm (complete ++ (sel.tmpCpuArr ++ [c]))
        refine (perm_insertByTime _ _ _).trans ((h.perm.cons c).trans ?_)
        rw [← List.append_assoc]
        exact (List.perm_append_singleton c _).symm
      case nodup =>
        show (complete ++ (sel.tmpCpuArr ++ [c])).Nodup
        rw [← List.append_assoc, List.nodup_append]
        refine ⟨h.nodup, List.nodup_singleton c, ?_⟩
        intro d hd e he
        rw [List.mem_singleton.mp he]
        rintro rfl
        exact hnew hd
      case used => exact hused _
      case chunk =>
        intro d hd
        show (sel.avail.set c (.tried sel.attemptCount))[d]? = some (.tried sel.attemptCount)
        rcases List.mem_append.mp hd with hd | hd
        · rw [List.getElem?_set_ne]
          · exact h.chunk d hd
          · rintro rfl
            exact hnew (List.mem_append_right _ hd)
        · rw [List.mem_singleton.mp hd, List.getElem?_set_self hlt]
      case chunk_node =>
        intro d hd
        show slotNode slots d = some slot.ninfo
        rcases List.mem_append.mp hd with hd | hd
        · have hcur := h.chunk_node d hd
          cases hconsidered : sel.consideredNode with
          | none =>
              rw [h.idle hconsidered] at hd
              cases hd
          | some m =>
              rw [hconsidered] at hcur hsame
              by_contra hne
              refine hsame ⟨rfl, ?_⟩
              rw [← hcur]
              exact hne
        · rw [List.mem_singleton.mp hd]
          exact hnode
      case idle =>
        intro hnone
        cases hnone
      case length_eq => exact h.length_eq
      case counts => exact h.counts
      case cells => exact (List.length_set).trans h.cells
      case nodes_length => exact h.nodes_length

/-- Completing a chunk marks its CPUs and leaves the marks of the others. -/
theorem completeChunk_used {wiped : Bool} {sel' : Selection} {ninfo : ℕ}
    (hcells : ∀ c ∈ sel.tmpCpuArr, c < sel.avail.length)
    (h : completeChunk cluster slots job wiped sel ninfo = .ok sel') :
    sel'.avail.length = sel.avail.length ∧ ∀ d : ℕ, d ∈ sel.tmpCpuArr ∨
      sel.avail[d]? = some .alreadyUsed → sel'.avail[d]? = some .alreadyUsed := by
  have hmarked : ∀ d : ℕ, d ∈ sel.tmpCpuArr ∨ sel.avail[d]? = some .alreadyUsed →
      (sel.tmpCpuArr.foldl (fun avail c => avail.set c .alreadyUsed) sel.avail)[d]?
        = some .alreadyUsed := by
    intro d hd
    rw [foldl_alreadyUsed_getElem? _ _ _ hcells]
    split
    · rfl
    · next hnot => exact hd.resolve_left hnot
  refine ⟨(completeChunk_reset h).avail_length, ?_⟩
  unfold completeChunk at h
  split at h
  · cases h
  · obtain ⟨node, -, h⟩ := bind_ok.mp h
    obtain ⟨last, -, h⟩ := bind_ok.mp h
    obtain ⟨latest, -, h⟩ := bind_ok.mp h
    cases pure_ok.mp h
    dsimp only
    split
    · intro d hd
      unfold prohibitNode
      rw [List.getElem?_mapIdx, hmarked d hd]
      simp
    · exact hmarked

/-- Completing a chunk: its CPUs join the complete ones. -/
theorem ChosenInv.complete_chunk (h : ChosenInv slots job complete sel) {wiped : Bool}
    {sel' : Selection} {ninfo : ℕ} (hconsidered : sel.consideredNode = some ninfo)
    (hfull : sel.tmpCpuArr.length = job.reqPpn)
    (hrun : completeChunk cluster slots job wiped sel ninfo = .ok sel') :
    ChosenInv slots job (complete ++ sel.tmpCpuArr) sel' := by
  have hcells : ∀ c ∈ sel.tmpCpuArr, c < sel.avail.length :=
    fun c hc => (List.getElem?_eq_some_iff.mp (h.chunk c hc)).1
  obtain ⟨hlength, hused⟩ := completeChunk_used hcells hrun
  obtain ⟨hnodes, hplan, hcpus, -⟩ := completeChunk_spec hrun
  have hreset := completeChunk_reset hrun
  have htmp := hreset.tmpCpuArr_eq
  have hninfo := hreset.ninfoArr_eq
  constructor
  case perm =>
    rw [hcpus, htmp, List.append_nil]
    exact h.perm
  case nodup =>
    rw [htmp, List.append_nil]
    exact h.nodup
  case used =>
    intro c hc
    refine hused c ?_
    rcases List.mem_append.mp hc with hc | hc
    · exact Or.inr (h.used c hc)
    · exact Or.inl hc
  case chunk =>
    rw [htmp]
    simp
  case chunk_node =>
    rw [htmp]
    simp
  case idle =>
    intro _
    exact htmp
  case length_eq => rw [List.length_append, h.length_eq, hfull, hplan, Nat.add_mul, one_mul]
  case counts =>
    intro n
    -- the new cell of `ninfo_arr` accounts for the CPUs of the chunk
    have hlt : sel.planNumNodes < sel.ninfoArr.length := by
      rw [h.nodes_length]
      exact hnodes
    have htake : sel'.ninfoArr.take sel'.planNumNodes
        = sel.ninfoArr.take sel.planNumNodes ++ [some ninfo] := by
      rw [hninfo, hplan, List.take_add_one, List.getElem?_set_self hlt, List.take_set_of_le le_rfl]
      rfl
    have hchunk : (chosenOn slots sel.tmpCpuArr n).length
        = if ninfo = n then job.reqPpn else 0 := by
      unfold chosenOn
      by_cases hn : ninfo = n
      · rw [if_pos hn, List.filter_eq_self.mpr, hfull]
        intro c hc
        rw [h.chunk_node c hc, hconsidered, hn]
        simp
      · rw [if_neg hn, List.filter_eq_nil_iff.mpr]
        · rfl
        · intro c hc
          rw [h.chunk_node c hc, hconsidered]
          simpa using hn
    have hcounts := h.counts n
    unfold chosenOn at hcounts hchunk ⊢
    rw [List.filter_append, List.length_append, hcounts, hchunk, htake, List.count_append,
      Nat.mul_add]
    congr 1
    by_cases hn : ninfo = n
    · rw [if_pos hn, hn]
      simp
    · rw [if_neg hn]
      simp [hn]
  case cells => exact hlength.trans h.cells
  case nodes_length =>
    rw [hninfo, List.length_set]
    exact h.nodes_length

/-- One pass of the loop. -/
theorem ChosenInv.pass (h : ChosenInv slots job complete sel) {wiped : Bool} {sel' : Selection}
    {c : ℕ} (hchunk : sel.tmpCpuArr.length < job.reqPpn) (hc : ithSmallest slots sel = some c)
    (hclean : CleanCut slots job sel c)
    (hrun : takeCpu cluster slots job wiped sel c = .ok sel') :
    ∃ complete', ChosenInv slots job complete' sel' ∧ sel'.tmpCpuArr.length < job.reqPpn := by
  obtain ⟨slot, hslot, hok⟩ := ithSmallest_spec hc
  have hentered := h.enter hslot hok hclean
  have hcases := entered_enterCpu slots job sel c slot.ninfo
  rw [takeCpu_eq hslot rfl] at hrun
  generalize enterCpu slots (considerNode job sel c slot.ninfo) c = entered
    at hrun hentered hcases
  have hlength : entered.cpuIndexes.length
      = entered.planNumNodes * job.reqPpn + entered.tmpCpuArr.length := by
    rw [hentered.perm.length_eq, List.length_append, hentered.length_eq]
  split at hrun
  · next hfull =>
      rw [hlength, Nat.add_mul, one_mul] at hfull
      refine ⟨_, hentered.complete_chunk hcases.considered_eq (by omega) hrun, ?_⟩
      rw [(completeChunk_reset hrun).tmpCpuArr_eq]
      exact job.reqPpn_pos
  · next hopen =>
      rw [← Except.ok.inj hrun]
      refine ⟨complete, hentered, ?_⟩
      rw [hlength, Nat.add_mul, one_mul] at hopen
      have hle : entered.tmpCpuArr.length ≤ job.reqPpn := hcases.length_le.trans hchunk
      omega

end Steps

/-! ## The whole loop -/

/-- If every cut is clean, the invariant holds in every state of the loop. -/
theorem LoopReaches.chosenInv {cluster : PlanCluster} {slots : List FirstFreeSlot} {job : PlanJob}
    {sel₀ sel : Selection} (hclean : CleanCuts cluster slots job)
    (hnodes : job.ninfoArr.length = job.reqNumNodes) (hstart : LoopStarts cluster slots job sel₀)
    (h : LoopReaches cluster slots job (wipeFixedNodes job).2 sel₀ sel) :
    ∃ complete, ChosenInv slots job complete sel ∧ sel.tmpCpuArr.length < job.reqPpn := by
  induction h with
  | start =>
      obtain ⟨avail, havail, rfl⟩ := hstart
      have hlength : avail.length = slots.length := (forall₂_of_mapM slots _ havail).length_eq.symm
      exact ⟨[], chosenInv_initial hlength hnodes _, job.reqPpn_pos⟩
  | pass hreach hlt hc hstep ih =>
      obtain ⟨complete, hinv, hchunk⟩ := ih
      exact hinv.pass hchunk hc (hclean _ _ _ hstart hreach hlt hc) hstep

/-- The loop of `update_job` returns one of the states it goes through. -/
theorem selectCpus_reaches {cluster : PlanCluster} {slots : List FirstFreeSlot} {job : PlanJob}
    {wiped : Bool} {sel₀ : Selection} (fuel : ℕ) {sel sel' : Selection}
    (hreach : LoopReaches cluster slots job wiped sel₀ sel)
    (h : selectCpus cluster slots job wiped fuel sel = .ok (some sel')) :
    LoopReaches cluster slots job wiped sel₀ sel' := by
  have hloop := selectCpus_keeps (P := LoopReaches cluster slots job wiped sel₀)
    (fun hsel hlt hc hstep => hsel.pass hlt hc hstep) fuel hreach h
  exact hloop.1

/-- If every cut is clean, the CPUs chosen agree with the nodes. -/
theorem placeShared_agree {cluster : PlanCluster} {slots : List FirstFreeSlot}
    {job placed : PlanJob} (husage : job.usage = job.reqPpn * job.reqNumNodes)
    (hnodes : job.ninfoArr.length = job.reqNumNodes) (hclean : CleanCuts cluster slots job)
    (h : placeShared cluster job slots = .ok (some placed)) : CpusAgree slots placed := by
  obtain ⟨avail, sel, havail, hselected, rfl⟩ := placeShared_ok h
  have hstart : LoopStarts cluster slots job
      (Selection.initial job (wipeFixedNodes job).1 avail) := ⟨avail, havail, rfl⟩
  have hreach := selectCpus_reaches _ .start hselected
  obtain ⟨complete, hinv, hchunk⟩ := hreach.chosenInv hclean hnodes hstart
  obtain ⟨-, hlength⟩ := selectCpus_inv _ (initial_inv havail _) (Nat.zero_le _) hselected
  -- all chunks are complete, and nothing else was chosen
  have hsum : sel.planNumNodes * job.reqPpn + sel.tmpCpuArr.length
      = job.reqNumNodes * job.reqPpn := by
    have := hinv.perm.length_eq
    rw [List.length_append, hinv.length_eq, hlength, husage, Nat.mul_comm job.reqPpn] at this
    exact this.symm
  have hplan : sel.planNumNodes = job.reqNumNodes := by
    refine le_antisymm (hreach.inv hstart).nodes_le ?_
    by_contra hlt
    have := Nat.mul_le_mul_right job.reqPpn (Nat.succ_le_of_lt (not_le.mp hlt))
    rw [Nat.succ_eq_add_one, Nat.add_mul, one_mul] at this
    omega
  have hempty : sel.tmpCpuArr = [] := by
    rw [hplan] at hsum
    exact List.length_eq_zero_iff.mp (by omega)
  have hperm := hinv.perm
  rw [hempty, List.append_nil] at hperm
  have hnodup := hinv.nodup
  rw [hempty, List.append_nil] at hnodup
  constructor
  case length_eq => exact hlength
  case slots_lt =>
    intro c hc
    rw [← hinv.cells]
    exact (List.getElem?_eq_some_iff.mp (hinv.used c (hperm.mem_iff.mp hc))).1
  case nodup => exact hperm.nodup_iff.mpr hnodup
  case counts =>
    intro n
    have hcounts := hinv.counts n
    rw [hplan] at hcounts
    rw [← hcounts]
    exact (hperm.filter _).length_eq

/-- The limits move the start, not the CPUs. -/
theorem CpusAgree.adjust {conf : LimitsForClusters} {cluster : PlanCluster} {values : LimitsValues}
    {limits : List PlanLimit} {slots : List FirstFreeSlot} {placed job : PlanJob}
    (hagree : CpusAgree slots placed)
    (h : adjustJobStarttimeAccordingToLimits conf cluster values limits placed = .ok job) :
    CpusAgree slots job := by
  rcases adjustJob_cases h with rfl | ⟨t, rfl⟩
  · exact hagree
  · exact ⟨hagree.length_eq, hagree.slots_lt, hagree.nodup, hagree.counts⟩

/-- The same for the whole function on a job that shares its nodes. -/
theorem updateSharedJob_agree {conf : LimitsForClusters} {cluster : PlanCluster}
    {values : LimitsValues} {limits : List PlanLimit} {slots : List FirstFreeSlot} {job : PlanJob}
    {update : JobUpdate} (husage : job.usage = job.reqPpn * job.reqNumNodes)
    (hnodes : job.ninfoArr.length = job.reqNumNodes) (hclean : CleanCuts cluster slots job)
    (h : updateSharedJob conf cluster values limits slots job = .ok (some update)) :
    CpusAgree slots update.job := by
  obtain ⟨placed, hcall⟩ := updateSharedJob_call h
  exact (placeShared_agree husage hnodes hclean hcall.placed_ok).adjust hcall.adjusted_ok

/-- **The CPUs and the nodes of a placement agree** if every node the loop abandons leaves
the array cleanly. -/
theorem chosen_agree {conf : LimitsForClusters} {cluster : PlanCluster} {values : LimitsValues}
    {limits : List PlanLimit} {slots : List FirstFreeSlot} {job : PlanJob} {update : JobUpdate}
    (hshared : job.jinfo.isExclusive = false) (husage : job.usage = job.reqPpn * job.reqNumNodes)
    (hnodes : job.ninfoArr.length = job.reqNumNodes) (hclean : CleanCuts cluster slots job)
    (h : updateJob conf cluster values limits slots job = .ok (some update)) :
    CpusAgree slots update.job := by
  rw [updateJob_shared hshared] at h
  exact updateSharedJob_agree husage hnodes hclean h

/-! ## A clean cut, and one that is not -/

/-- A job of one chunk never loses a CPU: before the chunk is complete, all cells belong to
the node that is abandoned. -/
theorem cleanCuts_of_one_chunk {cluster : PlanCluster} {slots : List FirstFreeSlot} {job : PlanJob}
    (husage : job.usage = job.reqPpn)
    (hnodes : job.ninfoArr.length = job.reqNumNodes) : CleanCuts cluster slots job := by
  have hcut : ∀ {complete : List ℕ} {sel : Selection} (c : ℕ), ChosenInv slots job complete sel →
      sel.cpuIndexes.length < job.usage → CleanCut slots job sel c := by
    intro complete sel c hinv hlt m _ _
    have hlength := hinv.perm.length_eq
    rw [List.length_append, hinv.length_eq] at hlength
    have hplan : sel.planNumNodes = 0 := by
      by_contra hpos
      have := Nat.le_mul_of_pos_left job.reqPpn (Nat.pos_of_ne_zero hpos)
      omega
    have hcomplete : complete = [] := by
      refine List.length_eq_zero_iff.mp ?_
      rw [hinv.length_eq, hplan, Nat.zero_mul]
    have hperm := hinv.perm
    rw [hcomplete, List.nil_append] at hperm
    rw [hplan, Nat.zero_mul, List.drop_zero]
    exact hperm
  intro sel₀ sel c hstart hreach hlt hc
  have hinv : ∃ complete, ChosenInv slots job complete sel ∧
      sel.tmpCpuArr.length < job.reqPpn := by
    clear hlt hc
    induction hreach with
    | start =>
        obtain ⟨avail, havail, rfl⟩ := hstart
        have hlength : avail.length = slots.length :=
          (forall₂_of_mapM slots _ havail).length_eq.symm
        exact ⟨[], chosenInv_initial hlength hnodes _, job.reqPpn_pos⟩
    | pass _ hlt hc hstep ih =>
        obtain ⟨complete, hinv, hchunk⟩ := ih
        exact hinv.pass hchunk hc (hcut _ hinv hlt) hstep
  obtain ⟨complete, hinv, -⟩ := hinv
  exact hcut c hinv hlt

/-- A cluster whose nodes have the given numbers of cores. -/
def nodesOf (cores : List ℕ) : PlanCluster :=
  ⟨"", cores.map (fun k => { (default : NodeInfo) with coresTotal := k }), 0, 0, 0⟩

/-- Two CPUs on one node: the first node is abandoned for the second, whose CPUs are
free sooner. -/
theorem chosen_agree_two :
    ∃ update, updateJob oneClass (nodesOf [2, 2]) ⟨[], []⟩ []
        (slotsAt [(0, 1), (0, 20), (1, 2), (1, 3)])
        (PlanJob.filled 0 default 2 1 (by decide) 0 100 0 0) = .ok (some update) ∧
      update.job.cpuIndexes = [2, 3] ∧ update.job.ninfoArr = [some 1] ∧
      CpusAgree (slotsAt [(0, 1), (0, 20), (1, 2), (1, 3)]) update.job := by
  have hrun : (do
      let update ← updateJob oneClass (nodesOf [2, 2]) ⟨[], []⟩ []
        (slotsAt [(0, 1), (0, 20), (1, 2), (1, 3)])
        (PlanJob.filled 0 default 2 1 (by decide) 0 100 0 0)
      return update.map (fun update => (update.job.cpuIndexes, update.job.ninfoArr))
        : Run (Option (List ℕ × List (Option ℕ)))) = .ok (some ([2, 3], [some 1])) := by
    decide +kernel
  obtain ⟨update, hupdate, hresult⟩ := bind_ok.mp hrun
  obtain ⟨update, rfl, hvalues⟩ := Option.map_eq_some_iff.mp (pure_ok.mp hresult)
  obtain ⟨hcpus, hnodes⟩ := Prod.mk.inj hvalues
  exact ⟨update, hupdate, hcpus, hnodes,
    chosen_agree rfl rfl rfl (cleanCuts_of_one_chunk rfl rfl) hupdate⟩

/-- Two nodes with three CPUs each.  The first CPU of node `0` is taken up again, in front
of the complete chunk on node `1`; when node `0` is abandoned once more, it stays and a CPU
of node `1` is dropped. -/
theorem chosen_disagree :
    ∃ update, updateJob oneClass (nodesOf [3, 3, 3]) ⟨[], []⟩ []
        (slotsAt [(0, 1), (0, 5), (0, 20), (1, 2), (1, 3), (1, 4), (2, 10), (2, 11), (2, 12)])
        (PlanJob.filled 0 default 6 2 (by decide) 0 100 0 0) = .ok (some update) ∧
      update.job.cpuIndexes = [0, 3, 4, 6, 7, 8] ∧ update.job.ninfoArr = [some 1, some 2] ∧
      ¬ CpusAgree
        (slotsAt [(0, 1), (0, 5), (0, 20), (1, 2), (1, 3), (1, 4), (2, 10), (2, 11), (2, 12)])
        update.job := by
  have hrun : (do
      let update ← updateJob oneClass (nodesOf [3, 3, 3]) ⟨[], []⟩ []
        (slotsAt [(0, 1), (0, 5), (0, 20), (1, 2), (1, 3), (1, 4), (2, 10), (2, 11), (2, 12)])
        (PlanJob.filled 0 default 6 2 (by decide) 0 100 0 0)
      return update.map (fun update =>
        (update.job.cpuIndexes, update.job.ninfoArr, update.job.reqPpn, update.job.reqNumNodes))
        : Run (Option (List ℕ × List (Option ℕ) × ℕ × ℕ)))
      = .ok (some ([0, 3, 4, 6, 7, 8], [some 1, some 2], 3, 2)) := by
    decide +kernel
  obtain ⟨update, hupdate, hresult⟩ := bind_ok.mp hrun
  obtain ⟨update, rfl, hvalues⟩ := Option.map_eq_some_iff.mp (pure_ok.mp hresult)
  obtain ⟨hcpus, hrest⟩ := Prod.mk.inj hvalues
  obtain ⟨hnodes, hrequest⟩ := Prod.mk.inj hrest
  obtain ⟨hppn, hnum⟩ := Prod.mk.inj hrequest
  refine ⟨update, hupdate, hcpus, hnodes, ?_⟩
  intro hagree
  have hcount := hagree.counts 0
  rw [hcpus, hnodes, hppn, hnum] at hcount
  exact absurd hcount (by decide)

end PlanSched
