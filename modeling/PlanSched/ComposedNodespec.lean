/-
# The node specification of a plan

What `job_create_nodespec` writes and leaves when every place of the plan has its node.
The loop over the places carries the node and the length of the open run and writes a run
when it ends, the last one after the loop: together the maximal runs
(`composeLoop_finish`).  The second loop makes the nodes distinct in the part of the array
that it has passed (`distinctStep_passed`).

* `NodeListText` says what the text of a list of nodes is, `Composed` what the function is to
  write and leave: one chunk for each maximal run of the plan, and in the array the distinct
  nodes in the order of their first places;
* `composesPlan_iff`: for which specifications and names it does.
* `created_specs`: what `PlanSched.NodeAssignment` has parsed back are these runs.
-/
import PlanSched.NegativeProperties
import PlanSched.NodeAssignment

namespace PlanSched.NodespecText

open CheckedRun CText TextSearch RunLengths

/-! ## The runs -/

section runs

variable {names : ℕ → List Char} {reqPpn : ℕ} {ns : List Char}

/-- What is written after the loop: the last run. -/
def finish (names : ℕ → List Char) (reqPpn : ℕ) (ns : List Char) (st : Composition) :
    Run (Option (List Char) × List BufferWrite) :=
  match st.plannedNode with
  | none => .ok (st.schNodespec, st.writes)
  | some node =>
      (writeChunk keepFront names reqPpn ns st.schNodespec node st.numPpn).map
        (fun written => (some written.1, st.writes ++ written.2))

/-- Chunks for runs, one after the other. -/
def writeRuns (names : ℕ → List Char) (reqPpn : ℕ) (ns : List Char) :
    List (ℕ × ℕ) → Option (List Char) × List BufferWrite →
      Run (Option (List Char) × List BufferWrite)
  | [], st => .ok st
  | r :: rs, st => do
      let written ← writeChunk keepFront names reqPpn ns st.1 r.1 r.2
      writeRuns names reqPpn ns rs (some written.1, st.2 ++ written.2)

/-- The loop with an open run writes the runs from it on. -/
theorem composeLoop_runsFrom (l : List ℕ) : ∀ (sch : Option (List Char)) (node numPpn : ℕ)
    (writes : List BufferWrite),
    ((l.map some).foldlM (composeStep keepFront names reqPpn ns)
        ⟨sch, some node, numPpn, writes⟩ >>=
        finish names reqPpn ns)
      = writeRuns names reqPpn ns (runsFrom node numPpn l) (sch, writes) := by
  induction l with
  | nil =>
      intro sch node numPpn writes
      rw [runsFrom, writeRuns]
      show (writeChunk keepFront names reqPpn ns sch node numPpn).map _ = _
      cases writeChunk keepFront names reqPpn ns sch node numPpn <;> rfl
  | cons next l ih =>
      intro sch node numPpn writes
      rw [List.map_cons, List.foldlM_cons, runsFrom]
      by_cases hsame : next = node
      · rw [if_pos hsame, ← ih]
        have hstep : composeStep keepFront names reqPpn ns ⟨sch, some node, numPpn, writes⟩
            (some next)
            = .ok ⟨sch, some node, numPpn + 1, writes⟩ := by
          unfold composeStep
          rw [hsame]
          simp
        rw [hstep]
        rfl
      · rw [if_neg hsame, writeRuns]
        have hstep : composeStep keepFront names reqPpn ns ⟨sch, some node, numPpn, writes⟩
            (some next)
            = (writeChunk keepFront names reqPpn ns sch node numPpn).map
                (fun written => ⟨some written.1, some next, 1, writes ++ written.2⟩) := by
          unfold composeStep
          dsimp only
          rw [if_neg (fun h => hsame (Option.some.inj h)),
            if_neg (fun h => hsame (Option.some.inj h).symm)]
          cases writeChunk keepFront names reqPpn ns sch node numPpn <;> rfl
        rw [hstep]
        cases writeChunk keepFront names reqPpn ns sch node numPpn with
        | error fault => rfl
        | ok written => exact ih _ _ _ _

/-- The loop and what is written after it: a chunk for each run. -/
theorem composeLoop_finish (l : List ℕ) :
    (composeLoop keepFront names reqPpn ns (l.map some) >>= finish names reqPpn ns)
      = writeRuns names reqPpn ns (runs l) (none, []) := by
  cases l with
  | nil => rfl
  | cons node l =>
      rw [composeLoop, List.map_cons, List.foldlM_cons, runs, ← composeLoop_runsFrom]
      rfl

/-- The multiplied text, when there is one. -/
def multiplied (a : ℕ) (b : List Char) : List Char :=
  match multipNumbers keepFront a b with
  | .ok multi => multi
  | .error _ => []

/-- A text is multiplied exactly if it has a number to multiply. -/
theorem multipNumbers_ok_iff (a : ℕ) (b : List Char) :
    multipNumbers keepFront a b = .ok (multiplied a b) ↔ "mem=".toList <:+: b := by
  unfold multiplied multipNumbers keepFront
  cases hfind : strstr "mem=".toList b with
  | none =>
      rw [strstr_none_iff] at hfind
      refine iff_of_false ?_ hfind
      intro h
      cases h
  | some found =>
      refine iff_of_true rfl ?_
      by_contra hnone
      rw [(strstr_none_iff b).mpr hnone] at hfind
      cases hfind

/-- The chunk of a run. -/
def runText (names : ℕ → List Char) (reqPpn : ℕ) (ns : List Char) (r : ℕ × ℕ) : List Char :=
  chunkText names reqPpn r.1 r.2 (multiplied r.2 ns)

/-- Chunks in a row, with a plus in front of each that has something before it. -/
def joinChunks (sch : Option (List Char)) (chunks : List (List Char)) : Option (List Char) :=
  chunks.foldl (fun sch chunk => match sch with
    | none => some chunk
    | some text => some (text ++ ("+".toList ++ chunk))) sch

/-- Runs are written exactly if there is a number to multiply, each as its chunk. -/
theorem writeRuns_ok {rs : List (ℕ × ℕ)} (hmem : rs = [] ∨ "mem=".toList <:+: ns) :
    ∀ sch writes, ∃ writes', writeRuns names reqPpn ns rs (sch, writes)
      = .ok (joinChunks sch (rs.map (runText names reqPpn ns)), writes') := by
  induction rs with
  | nil => exact fun sch writes => ⟨writes, rfl⟩
  | cons r rs ih =>
      intro sch writes
      have hoccurs := hmem.resolve_left (List.cons_ne_nil r rs)
      have hmulti := (multipNumbers_ok_iff r.2 ns).mpr hoccurs
      rw [writeRuns]
      unfold writeChunk
      rw [hmulti]
      cases sch with
      | none => exact ih (Or.inr hoccurs) _ _
      | some sch => exact ih (Or.inr hoccurs) _ _

/-- Without one, nothing is returned. -/
theorem writeRuns_returns_iff {rs : List (ℕ × ℕ)} (sch : Option (List Char))
    (writes : List BufferWrite) :
    (∃ written, writeRuns names reqPpn ns rs (sch, writes) = .ok written) ↔
      rs = [] ∨ "mem=".toList <:+: ns := by
  constructor
  · rintro ⟨written, h⟩
    cases rs with
    | nil => exact Or.inl rfl
    | cons r rs =>
        rw [writeRuns] at h
        obtain ⟨chunk, hchunk, _⟩ := bind_ok.mp h
        obtain ⟨multi, hmulti, _⟩ := bind_ok.mp hchunk
        refine Or.inr ((multipNumbers_ok_iff r.2 ns).mp ?_)
        unfold multiplied
        rw [hmulti]
  · intro h
    obtain ⟨writes', hwritten⟩ := writeRuns_ok h sch writes
    exact ⟨_, hwritten⟩

/-- The chunks in a row are joined by plus signs. -/
theorem joinChunks_eq (chunks : List (List Char)) :
    ∀ text, joinChunks (some text) chunks
      = some ("+".toList.intercalate (text :: chunks)) := by
  induction chunks with
  | nil =>
      intro text
      show some text = some (List.intercalate _ [text])
      rw [List.intercalate_singleton]
  | cons chunk chunks ih =>
      intro text
      show joinChunks (some (text ++ ("+".toList ++ chunk))) chunks = _
      rw [ih, List.intercalate_cons_cons, ← List.append_assoc]
      cases chunks with
      | nil => rw [List.intercalate_singleton, List.intercalate_singleton]
      | cons next chunks =>
          rw [List.intercalate_cons_cons, List.intercalate_cons_cons]
          simp only [List.append_assoc]

end runs

/-! ## The distinct nodes -/

/-- The array after some rounds: the distinct nodes found so far, `NULL` in the places passed
besides, and the places to come. -/
def passedArr (distinct : List ℕ) (gap : ℕ) (rest : List ℕ) : List (Option ℕ) :=
  distinct.map some ++ List.replicate gap none ++ rest.map some

/-- An entry found so far. -/
theorem any_passedArr (distinct : List ℕ) (gap : ℕ) (rest : List ℕ) (node : ℕ) :
    (List.range distinct.length).any
      (fun j => (passedArr distinct gap rest).getD j none == some node)
      = decide (node ∈ distinct) := by
  have hentry : ∀ j < distinct.length,
      (passedArr distinct gap rest).getD j none = distinct[j]? := by
    intro j hj
    unfold passedArr
    rw [List.getD_eq_getElem?_getD, List.append_assoc,
      List.getElem?_append_left (by rw [List.length_map]; exact hj), List.getElem?_map,
      List.getElem?_eq_getElem hj]
    rfl
  rw [Bool.eq_iff_iff, List.any_eq_true, decide_eq_true_eq, List.mem_iff_getElem?]
  refine exists_congr (fun j => ?_)
  rw [List.mem_range]
  constructor
  · rintro ⟨hj, hsame⟩
    rw [hentry j hj] at hsame
    exact eq_of_beq hsame
  · intro hj
    have hlt : j < distinct.length := (List.getElem?_eq_some_iff.mp hj).1
    exact ⟨hlt, by rw [hentry j hlt, hj]; exact beq_self_eq_true _⟩

/-- One round, at the first place to come. -/
theorem distinctStep_passed (distinct : List ℕ) (gap : ℕ) (node : ℕ) (rest : List ℕ) :
    distinctStep (passedArr distinct gap (node :: rest), distinct.length)
        (distinct.length + gap)
      = if node ∈ distinct then (passedArr distinct (gap + 1) rest, distinct.length)
        else (passedArr (distinct ++ [node]) gap rest, (distinct ++ [node]).length) := by
  have hentry : (passedArr distinct gap (node :: rest)).getD (distinct.length + gap) none
      = some node := by
    unfold passedArr
    rw [List.getD_eq_getElem?_getD, List.getElem?_append_right (by simp)]
    simp
  have hset : ∀ entry, (passedArr distinct gap (node :: rest)).set (distinct.length + gap) entry
      = distinct.map some ++ List.replicate gap none ++ entry :: rest.map some := by
    intro entry
    unfold passedArr
    rw [List.set_append, if_neg (by simp)]
    simp
  unfold distinctStep
  dsimp only
  rw [hentry, any_passedArr]
  -- a node that is there already widens the gap, another one moves over it
  by_cases hfound : node ∈ distinct
  · rw [if_pos (decide_eq_true hfound), if_pos hfound, hset, passedArr, List.replicate_succ',
      ← List.append_assoc, List.append_assoc _ [none]]
    rfl
  · rw [if_neg (by simpa using hfound), if_neg hfound, List.length_append, List.length_singleton]
    unfold passedArr
    cases gap with
    | zero =>
        rw [if_neg (by simp)]
        simp
    | succ gap =>
        rw [if_pos (by omega), List.append_assoc, List.set_append, if_neg (by simp),
          List.set_append, if_neg (by simp), List.length_map, Nat.sub_self,
          Nat.add_sub_cancel_left, List.replicate_succ, List.cons_append, List.set_cons_zero,
          List.set_cons_succ, List.set_append, if_neg (by simp), List.length_replicate,
          Nat.sub_self]
        have hfill : List.replicate gap (none : Option ℕ) ++ none :: rest.map some
            = none :: (List.replicate gap none ++ rest.map some) := by
          rw [← List.cons_append, ← List.replicate_succ, List.replicate_succ', List.append_assoc]
          rfl
        simp [hfill]

/-- The distinct nodes of one more. -/
theorem eraseDups_append_singleton (done : List ℕ) (node : ℕ) :
    (done ++ [node]).eraseDups
      = if node ∈ done.eraseDups then done.eraseDups else done.eraseDups ++ [node] := by
  rw [List.eraseDups_append]
  by_cases h : node ∈ done
  · rw [if_pos (List.mem_eraseDups.mpr h)]
    simp [List.removeAll, h]
  · rw [if_neg (fun hmem => h (List.mem_eraseDups.mp hmem))]
    simp [List.removeAll, h, List.eraseDups_cons]

/-- The loop leaves the distinct nodes, in the order of their first places. -/
theorem distinctLoop_eq (nodes : List ℕ) :
    distinctLoop (nodes.map some)
      = (passedArr nodes.eraseDups (nodes.length - nodes.eraseDups.length) [],
          nodes.eraseDups.length) := by
  have hrounds : ∀ done rest : List ℕ, nodes = done ++ rest →
      (List.range done.length).foldl distinctStep (nodes.map some, 0)
        = (passedArr done.eraseDups (done.length - done.eraseDups.length) rest,
            done.eraseDups.length) ∧ done.eraseDups.length ≤ done.length := by
    intro done
    induction done using List.reverseRecOn with
    | nil =>
        rintro rest rfl
        exact ⟨rfl, le_rfl⟩
    | append_singleton done node ih =>
        intro rest hsplit
        obtain ⟨hdone, hle⟩ := ih (node :: rest) (by rw [hsplit, List.append_assoc]; rfl)
        have hplace : done.length
            = done.eraseDups.length + (done.length - done.eraseDups.length) := by omega
        have hstep := distinctStep_passed done.eraseDups (done.length - done.eraseDups.length)
          node rest
        rw [← hplace] at hstep
        rw [List.length_append, List.length_singleton, List.range_succ, List.foldl_append, hdone,
          List.foldl_cons, List.foldl_nil, hstep, eraseDups_append_singleton]
        split
        · exact ⟨by rw [Nat.succ_sub hle], by omega⟩
        · rw [List.length_append, List.length_singleton]
          refine ⟨?_, by omega⟩
          rw [Nat.add_sub_add_right]
  have hall := (hrounds nodes [] (List.append_nil nodes).symm).1
  unfold distinctLoop
  rw [List.length_map]
  exact hall

/-- No node is left twice. -/
theorem nodup_eraseDups (nodes : List ℕ) : nodes.eraseDups.Nodup := by
  induction nodes using List.reverseRecOn with
  | nil => exact List.nodup_nil
  | append_singleton done node ih =>
      rw [eraseDups_append_singleton]
      split
      · exact ih
      · next hnew =>
          rw [List.nodup_append]
          refine ⟨ih, List.nodup_singleton node, ?_⟩
          rintro a ha b hb rfl
          exact hnew (List.mem_singleton.mp hb ▸ ha)

/-- As many are left as there are different ones. -/
theorem length_eraseDups (nodes : List ℕ) : nodes.eraseDups.length = nodes.toFinset.card := by
  rw [← List.toFinset_card_of_nodup (nodup_eraseDups nodes)]
  congr 1
  ext node
  rw [List.mem_toFinset, List.mem_toFinset, List.mem_eraseDups]

/-! ## Lists of nodes -/

/-- A chunk of a list of nodes: the name of a node and a number of processors. -/
structure HostChunk where
  host : List Char
  ppn : ℕ

/-- `host=name:ppn=k:`, with properties and resources behind it. -/
def ChunkText (text : List Char) (chunk : HostChunk) : Prop :=
  '+' ∉ text ∧ ':' ∉ chunk.host ∧ ∃ resources, text = "host=".toList ++ chunk.host
    ++ ":ppn=".toList ++ Nat.toDigits 10 chunk.ppn ++ ":".toList ++ resources

/-- **The text of a list of nodes**: chunks, with pluses between them. -/
inductive NodeListText : List Char → List HostChunk → Prop
  | last {text : List Char} {chunk : HostChunk} (h : ChunkText text chunk) :
      NodeListText text [chunk]
  | more {text rest : List Char} {chunk : HostChunk} {chunks : List HostChunk}
      (h : ChunkText text chunk) (hrest : NodeListText rest chunks) :
      NodeListText (text ++ '+' :: rest) (chunk :: chunks)

example : NodeListText "host=a:ppn=2:mem=2+host=b:ppn=1:mem=1#excl".toList
    [⟨['a'], 2⟩, ⟨['b'], 1⟩] :=
  have hfirst : ChunkText "host=a:ppn=2:mem=2".toList ⟨['a'], 2⟩ :=
    ⟨by decide, by decide, "mem=2".toList, by decide⟩
  have hsecond : ChunkText "host=b:ppn=1:mem=1#excl".toList ⟨['b'], 1⟩ :=
    ⟨by decide, by decide, "mem=1#excl".toList, by decide⟩
  .more hfirst (.last hsecond)

/-- There is a plus between two chunks and nowhere else. -/
theorem NodeListText.count {text : List Char} {chunks : List HostChunk}
    (h : NodeListText text chunks) : text.count '+' + 1 = chunks.length := by
  induction h with
  | last h => rw [List.count_eq_zero_of_not_mem h.1, List.length_singleton]
  | more h _ ih =>
      rw [List.count_append, List.count_eq_zero_of_not_mem h.1, List.count_cons_self,
        List.length_cons, ← ih, Nat.zero_add]

/-- The names in a list of nodes. -/
theorem NodeListText.hosts {text : List Char} {chunks : List HostChunk}
    (h : NodeListText text chunks) : ∀ chunk ∈ chunks, ':' ∉ chunk.host ∧ '+' ∉ chunk.host := by
  have hhost : ∀ {text : List Char} {chunk : HostChunk}, ChunkText text chunk →
      ':' ∉ chunk.host ∧ '+' ∉ chunk.host := by
    rintro text chunk ⟨hplus, hcolon, resources, rfl⟩
    refine ⟨hcolon, fun hmem => hplus ?_⟩
    simp only [List.mem_append]
    exact Or.inl (Or.inl (Or.inl (Or.inl (Or.inr hmem))))
  induction h with
  | last h =>
      intro chunk hchunk
      rw [List.mem_singleton.mp hchunk]
      exact hhost h
  | more h _ ih => exact List.forall_mem_cons.mpr ⟨hhost h, ih⟩

/-- Chunks with pluses between them are a list of nodes, also with a mark at the end. -/
theorem nodeListText_intercalate {mark : List Char} (hmark : '+' ∉ mark) :
    ∀ {texts : List (List Char)} {chunks : List HostChunk}, texts ≠ [] →
      List.Forall₂ ChunkText texts chunks →
        NodeListText ("+".toList.intercalate texts ++ mark) chunks := by
  intro texts chunks hne h
  induction h with
  | nil => exact absurd rfl hne
  | @cons text chunk texts chunks hchunk hrest ih =>
      cases hrest with
      | nil =>
          obtain ⟨hplus, hcolon, resources, rfl⟩ := hchunk
          rw [List.intercalate_singleton]
          refine .last ⟨?_, hcolon, resources ++ mark, by rw [List.append_assoc]⟩
          exact List.not_mem_append hplus hmark
      | cons _ _ =>
          have hlist := ih (List.cons_ne_nil _ _)
          rw [List.intercalate_cons_cons, List.append_assoc, List.append_assoc]
          exact .more hchunk hlist

/-- The pluses of texts with pluses between them. -/
theorem count_intercalate (texts : List (List Char)) (hne : texts ≠ []) :
    ("+".toList.intercalate texts).count '+' + 1
      = texts.length + (texts.map (List.count '+')).sum := by
  induction texts with
  | nil => exact absurd rfl hne
  | cons text texts ih =>
      cases texts with
      | nil =>
          rw [List.intercalate_singleton, List.map_singleton, List.sum_singleton,
            List.length_singleton, Nat.add_comm]
      | cons next texts =>
          have hnext := ih (List.cons_ne_nil next texts)
          have hplus : "+".toList.count '+' = 1 := by decide
          rw [List.intercalate_cons_cons, List.count_append, List.count_append, hplus,
            List.map_cons, List.sum_cons, List.length_cons]
          omega

/-! ## The result -/

variable {names : ℕ → List Char} {reqPpn : ℕ} {ns : List Char}

/-- What is written and left for a plan: a list of nodes that expands to the plan, a chunk for each
maximal run, and the distinct nodes in the order of their first places. -/
structure Composed (names : ℕ → List Char) (reqPpn : ℕ) (nodes : List ℕ)
    (created : CreatedText) : Prop where
  chunks : nodes ≠ [] → ∃ rs : List (ℕ × ℕ), rs.IsChain (fun r s => r.1 ≠ s.1) ∧
    (∀ r ∈ rs, 0 < r.2) ∧ expand rs = nodes ∧
    NodeListText created.nodespec (rs.map (fun r => ⟨names r.1, r.2 * reqPpn⟩))
  distinct : created.distinctNumNodes = nodes.toFinset.card
  ninfoArr : created.ninfoArr = nodes.eraseDups.map some
    ++ List.replicate (nodes.length - created.distinctNumNodes) none

/-- The function returns, with the plan written and left so. -/
def ComposesPlan (printOver : PrintOver) (names : ℕ → List Char) (reqPpn : ℕ) (isExclusive : Bool)
    (nodespec : List Char) (nodes : List ℕ) : Prop :=
  ∃ fuel created, jobCreateNodespec printOver fuel names reqPpn isExclusive nodespec
      (nodes.map some) = .ok created ∧ Composed names reqPpn nodes created

/-- The properties and resources have a number to multiply and are one chunk, and the names of the
nodes are plain; for a plan without places nothing is needed. -/
def Composable (names : ℕ → List Char) (ns : List Char) (nodes : List ℕ) : Prop :=
  nodes = [] ∨ ("mem=".toList <:+: ns ∧ '+' ∉ ns ∧
    ∀ node ∈ nodes, ':' ∉ names node ∧ '+' ∉ names node)

/-- Once a place of the plan is passed, a node is planned. -/
theorem composeLoop_planned {l : List ℕ} {st st' : Composition}
    (h : (l.map some).foldlM (composeStep keepFront names reqPpn ns) st = .ok st')
    (hst : st.plannedNode.isSome = true) : st'.plannedNode.isSome = true := by
  refine foldlM_invariant (fun st => st.plannedNode.isSome = true) _ _ _ _ ?_ hst h
  intro st entry next hentry hplanned hstep
  obtain ⟨node, _, rfl⟩ := List.mem_map.mp hentry
  unfold composeStep at hstep
  dsimp only at hstep
  generalize st.plannedNode = planned at *
  cases planned with
  | none => cases hplanned
  | some open' =>
      dsimp only at hstep
      split at hstep
      · cases hstep
        rfl
      · obtain ⟨written, _, hstep⟩ := bind_ok.mp hstep
        cases hstep
        rfl

/-- Both loops, for a plan with places: the chunks of its runs. -/
theorem composeLoop_ok {nodes : List ℕ} (hne : nodes ≠ []) {st : Composition}
    (h : composeLoop keepFront names reqPpn ns (nodes.map some) = .ok st) :
    ∃ node, st.plannedNode = some node ∧
      (writeChunk keepFront names reqPpn ns st.schNodespec node st.numPpn).map
          (fun written => (some written.1, st.writes ++ written.2))
        = writeRuns names reqPpn ns (runs nodes) (none, []) := by
  have hfinish := @composeLoop_finish names reqPpn ns nodes
  rw [h] at hfinish
  obtain ⟨first, l, rfl⟩ := List.exists_cons_of_ne_nil hne
  rw [composeLoop, List.map_cons, List.foldlM_cons] at h
  have hplanned := composeLoop_planned h rfl
  obtain ⟨node, hnode⟩ := Option.isSome_iff_exists.mp hplanned
  refine ⟨node, hnode, ?_⟩
  rw [← hfinish]
  show _ = finish names reqPpn ns st
  unfold finish
  rw [hnode]

/-- The chunks of a plan with places. -/
theorem joinChunks_runs {nodes : List ℕ} (hne : nodes ≠ []) :
    joinChunks none ((runs nodes).map (runText names reqPpn ns))
      = some ("+".toList.intercalate ((runs nodes).map (runText names reqPpn ns))) := by
  obtain ⟨first, l, rfl⟩ := List.exists_cons_of_ne_nil hne
  obtain ⟨m, rest, hrest⟩ := runsFrom_eq_cons l first 1
  rw [runs, hrest, List.map_cons]
  exact joinChunks_eq _ _

/-- What the function returns for chunks that are written. -/
def createdFrom (isExcl : Bool) (nodes : List ℕ)
    (written : Option (List Char) × List BufferWrite) : CreatedText :=
  let text := written.1.getD []
  let distinct := distinctLoop (nodes.map some)
  if isExcl then
    ⟨distinct.2, text ++ "#excl".toList, distinct.1,
      written.2 ++ [⟨(text ++ "#excl".toList).length + 1, text.length + 10⟩]⟩
  else ⟨distinct.2, text, distinct.1, written.2⟩

/-- The function, once the properties and resources are cut out. -/
theorem jobCreateNodespec_eq {fuel : ℕ} {isExclusive : Bool} {nodespec : List Char}
    {opening : NodespecStart} (hopening : tmpNsStart nodespec = .ok opening)
    (hns : removalLoop fuel opening.start = .ok ns) {nodes : List ℕ} (hne : nodes ≠ []) :
    jobCreateNodespec keepFront fuel names reqPpn isExclusive nodespec (nodes.map some)
      = (writeRuns names reqPpn ns (runs nodes) (none, [])).map
          (createdFrom (opening.isExcl || isExclusive) nodes) := by
  unfold jobCreateNodespec
  rw [hopening]
  show (removalLoop fuel opening.start >>= _) = _
  rw [hns]
  show (composeLoop keepFront names reqPpn ns (nodes.map some) >>= _) = _
  cases hst : composeLoop keepFront names reqPpn ns (nodes.map some) with
  | error fault =>
      have hfinish := @composeLoop_finish names reqPpn ns nodes
      rw [hst] at hfinish
      rw [← hfinish]
      rfl
  | ok st =>
      obtain ⟨node, hplanned, hwritten⟩ := composeLoop_ok hne hst
      rw [← hwritten]
      show (match st.plannedNode with | none => _ | some node => _) = _
      rw [hplanned]
      dsimp only
      cases writeChunk keepFront names reqPpn ns st.schNodespec node st.numPpn with
      | error fault => rfl
      | ok written => cases hexcl : opening.isExcl || isExclusive <;> rfl

/-- For a plan without places nothing is written. -/
theorem jobCreateNodespec_nil {fuel : ℕ} {isExclusive : Bool} {nodespec : List Char}
    {opening : NodespecStart} (hopening : tmpNsStart nodespec = .ok opening)
    (hns : removalLoop fuel opening.start = .ok ns) :
    jobCreateNodespec keepFront fuel names reqPpn isExclusive nodespec []
      = .ok ⟨0, opening.front ++ ns, [], []⟩ :=
  bind_ok.mpr ⟨_, hopening, bind_ok.mpr ⟨_, hns, rfl⟩⟩

/-- A multiplied text has a plus exactly if the text has. -/
theorem plus_mem_multiplied (a : ℕ) (hmem : "mem=".toList <:+: ns) :
    '+' ∈ multiplied a ns ↔ '+' ∈ ns := by
  cases hfind : strstr "mem=".toList ns with
  | none => exact absurd hmem ((strstr_none_iff ns).mp hfind)
  | some r =>
      obtain ⟨before, found⟩ := r
      obtain ⟨hns, behind, hbehind⟩ := strstr_some ns hfind
      have hdrop : found.drop 4 = behind := by
        rw [← hbehind]
        rfl
      have hprinted : ∀ z : ℤ, '+' ∉ printInt z := by
        intro z hz
        have hdigits : '+' ∉ Nat.toDigits 10 z.natAbs := by
          intro hz
          have := Nat.isDigit_of_mem_toDigits (by omega) (by omega) hz
          cases this
        unfold printInt at hz
        split at hz
        · exact hdigits ((List.mem_cons.mp hz).resolve_left (by decide))
        · exact hdigits hz
      have htaken : '+' ∉ behind.takeWhile Char.isDigit := by
        intro h
        have := List.mem_takeWhile_imp h
        cases this
      have hsplit : '+' ∈ behind ↔ '+' ∈ behind.dropWhile Char.isDigit := by
        conv_lhs => rw [← List.takeWhile_append_dropWhile (p := Char.isDigit) (l := behind)]
        rw [List.mem_append, or_iff_right htaken]
      have hname : '+' ∉ "mem=".toList := by decide
      have hmulti : multiplied a ns = before ++ "mem=".toList
          ++ (printInt (toLong ((strtol behind).1 * a)) ++ behind.dropWhile Char.isDigit) := by
        unfold multiplied multipNumbers keepFront
        rw [hfind, ← hdrop]
        rfl
      rw [hmulti, hns, ← hbehind]
      simp only [List.mem_append]
      rw [or_iff_left hname, or_iff_right (hprinted _), or_iff_right hname, hsplit]

/-- The text of a run is its chunk, if nothing in it has a plus or a colon too many. -/
theorem chunkText_run {r : ℕ × ℕ} (hmem : "mem=".toList <:+: ns) (hns : '+' ∉ ns)
    (hname : ':' ∉ names r.1 ∧ '+' ∉ names r.1) :
    ChunkText (runText names reqPpn ns r) ⟨names r.1, r.2 * reqPpn⟩ := by
  have hdigits : '+' ∉ Nat.toDigits 10 (r.2 * reqPpn) := by
    intro h
    have := Nat.isDigit_of_mem_toDigits (by omega) (by omega) h
    cases this
  have hmulti : '+' ∉ multiplied r.2 ns := fun h => hns ((plus_mem_multiplied r.2 hmem).mp h)
  have hprint : printInt (r.2 * reqPpn : ℕ) = Nat.toDigits 10 (r.2 * reqPpn) :=
    if_neg (by omega)
  refine ⟨?_, hname.1, multiplied r.2 ns, ?_⟩
  · unfold runText chunkText
    rw [hprint]
    simp only [List.mem_append, not_or]
    exact ⟨⟨⟨⟨⟨by decide, hname.2⟩, by decide⟩, hdigits⟩, by decide⟩, hmulti⟩
  · unfold runText chunkText
    rw [hprint]

/-- What the runs stand for are their nodes. -/
theorem mem_expand_iff {rs : List (ℕ × ℕ)} (hpos : ∀ r ∈ rs, 0 < r.2) (node : ℕ) :
    node ∈ expand rs ↔ ∃ r ∈ rs, r.1 = node := by
  unfold expand
  rw [List.mem_flatMap]
  refine exists_congr (fun r => and_congr_right (fun hr => ?_))
  rw [List.mem_replicate, and_iff_right (hpos r hr).ne']
  exact eq_comm

/-- The mark of an exclusive job behind the chunks. -/
theorem createdFrom_nodespec (isExcl : Bool) (nodes : List ℕ) (text : List Char)
    (writes : List BufferWrite) :
    (createdFrom isExcl nodes (some text, writes)).nodespec
      = text ++ (if isExcl then "#excl".toList else []) := by
  cases isExcl with
  | true => rfl
  | false => exact (List.append_nil text).symm

/-- What is returned for the chunks of a plan is as it should be exactly if the chunks and the names
are plain. -/
theorem composed_createdFrom_iff {isExcl : Bool} {nodes : List ℕ} (hne : nodes ≠ [])
    (hmem : "mem=".toList <:+: ns) (writes : List BufferWrite) :
    Composed names reqPpn nodes (createdFrom isExcl nodes
      (some ("+".toList.intercalate ((runs nodes).map (runText names reqPpn ns))), writes)) ↔
    '+' ∉ ns ∧ ∀ node ∈ nodes, ':' ∉ names node ∧ '+' ∉ names node := by
  have hruns : (runs nodes).map (runText names reqPpn ns) ≠ [] := by
    intro h
    have hnil := expand_runs nodes
    rw [List.map_eq_nil_iff.mp h] at hnil
    exact hne hnil.symm
  have hmark : '+' ∉ (if isExcl then "#excl".toList else []) := by cases isExcl <;> decide
  constructor
  · rintro ⟨hchunks, _, _⟩
    obtain ⟨rs, hchain, hpos, hexpand, htext⟩ := hchunks hne
    have hrs : runs nodes = rs := by
      rw [← hexpand]
      exact runs_expand hchain hpos
    rw [createdFrom_nodespec, hrs] at htext
    rw [hrs] at hruns
    refine ⟨?_, ?_⟩
    · -- a plus of the properties and resources would be one too many
      have hcount := htext.count
      have hpluses := count_intercalate (rs.map (runText names reqPpn ns)) hruns
      rw [List.count_append, List.count_eq_zero_of_not_mem hmark, List.length_map] at hcount
      rw [List.length_map] at hpluses
      have hzero : ((rs.map (runText names reqPpn ns)).map (List.count '+')).sum = 0 := by omega
      obtain ⟨r, hr⟩ := List.exists_mem_of_ne_nil rs (fun h => hruns (by rw [h]; rfl))
      have hnone := List.sum_eq_zero_iff.mp hzero _
        (List.mem_map_of_mem (List.mem_map_of_mem hr))
      rw [List.count_eq_zero] at hnone
      intro hplus
      apply hnone
      unfold runText chunkText
      exact List.mem_append_right _ ((plus_mem_multiplied r.2 hmem).mpr hplus)
    · intro node hnode
      rw [← hexpand, mem_expand_iff hpos] at hnode
      obtain ⟨r, hr, rfl⟩ := hnode
      exact htext.hosts _ (List.mem_map_of_mem hr)
  · rintro ⟨hns, hnames⟩
    have hloop := distinctLoop_eq nodes
    have hdistinct : (createdFrom isExcl nodes (some ("+".toList.intercalate
        ((runs nodes).map (runText names reqPpn ns))), writes)).distinctNumNodes
          = nodes.eraseDups.length ∧ (createdFrom isExcl nodes (some ("+".toList.intercalate
        ((runs nodes).map (runText names reqPpn ns))), writes)).ninfoArr
          = (distinctLoop (nodes.map some)).1 := by
      unfold createdFrom
      rw [hloop]
      cases isExcl with
      | true => exact ⟨rfl, rfl⟩
      | false => exact ⟨rfl, rfl⟩
    refine ⟨fun _ => ⟨runs nodes, isChain_runs nodes, runs_pos nodes, expand_runs nodes, ?_⟩,
      ?_, ?_⟩
    · rw [createdFrom_nodespec]
      refine nodeListText_intercalate hmark hruns ?_
      rw [List.forall₂_map_left_iff, List.forall₂_map_right_iff, List.forall₂_same]
      intro r hr
      refine chunkText_run hmem hns (hnames r.1 ?_)
      rw [← expand_runs nodes, mem_expand_iff (runs_pos nodes)]
      exact ⟨r, hr, rfl⟩
    · rw [hdistinct.1, length_eraseDups]
    · rw [hdistinct.1, hdistinct.2, hloop]
      exact List.append_nil _

/-- Once the properties and resources are cut out, the plan is composed exactly if they and the
names allow it. -/
theorem composed_iff {fuel : ℕ} {isExclusive : Bool} {nodespec : List Char}
    {opening : NodespecStart} (hopening : tmpNsStart nodespec = .ok opening)
    (hns : removalLoop fuel opening.start = .ok ns) (nodes : List ℕ) :
    (∃ created, jobCreateNodespec keepFront fuel names reqPpn isExclusive nodespec
        (nodes.map some) = .ok created ∧ Composed names reqPpn nodes created) ↔
      Composable names ns nodes := by
  unfold Composable
  by_cases hne : nodes = []
  · subst hne
    exact iff_of_true ⟨_, jobCreateNodespec_nil hopening hns, fun h => absurd rfl h, rfl, rfl⟩
      (Or.inl rfl)
  rw [or_iff_right hne, jobCreateNodespec_eq hopening hns hne]
  by_cases hmem : "mem=".toList <:+: ns
  · rw [and_iff_right hmem]
    obtain ⟨writes, hok⟩ := @writeRuns_ok names reqPpn ns (runs nodes) (Or.inr hmem) none []
    rw [hok, joinChunks_runs hne]
    have hcomposed := @composed_createdFrom_iff names reqPpn ns (opening.isExcl || isExclusive)
      nodes hne hmem writes
    rw [← hcomposed]
    constructor
    · rintro ⟨created, hcreated, hcomposed⟩
      cases hcreated
      exact hcomposed
    · exact fun hcomposed => ⟨_, rfl, hcomposed⟩
  · -- nothing is written without a number to multiply
    refine iff_of_false ?_ (fun h => hmem h.1)
    rintro ⟨created, hcreated, _⟩
    obtain ⟨written, hwritten, _⟩ := map_ok.mp hcreated
    rcases (writeRuns_returns_iff none []).mp ⟨written, hwritten⟩ with hnil | hmem'
    · have hnodes := expand_runs nodes
      rw [hnil] at hnodes
      exact hne hnodes.symm
    · exact hmem hmem'

/-- The loop that removes the negative properties has one result. -/
theorem removalLoop_unique {s₁ s₂ : List Char} (fuel₁ : ℕ) : ∀ (fuel₂ : ℕ) {s : List Char},
    removalLoop fuel₁ s = .ok s₁ → removalLoop fuel₂ s = .ok s₂ → s₁ = s₂ := by
  induction fuel₁ with
  | zero =>
      intro fuel₂ s h₁ h₂
      cases hfind : strchr '^' s with
      | none =>
          rw [removalLoop, hfind] at h₁ h₂
          cases h₁
          cases h₂
          rfl
      | some r =>
          rw [removalLoop, hfind] at h₁
          cases h₁
  | succ fuel₁ ih =>
      intro fuel₂ s h₁ h₂
      cases hfind : strchr '^' s with
      | none =>
          rw [removalLoop, hfind] at h₁ h₂
          cases h₁
          cases h₂
          rfl
      | some r =>
          rw [removalLoop, hfind] at h₁ h₂
          cases fuel₂ with
          | zero => cases h₂
          | succ fuel₂ => exact ih fuel₂ h₁ h₂

/-- **The plan is composed** exactly if the parts the function looks for are there: the start behind
the colons is found and the negative properties end, and, with places in the plan, what is left has
a number to multiply and is one chunk, and the names of the nodes are plain.  For a specification
written from properties and resources this means that not all of them are negative. -/
theorem composesPlan_iff {printOver : PrintOver}
    (hprint : ∀ front behind, printOver front behind = front ++ behind)
    (names : ℕ → List Char) (reqPpn : ℕ) (isExclusive : Bool) (nodes : List ℕ) :
    (∀ nodespec, ComposesPlan printOver names reqPpn isExclusive nodespec nodes ↔
      ∃ fuel opening ns, tmpNsStart nodespec = .ok opening ∧
        removalLoop fuel opening.start = .ok ns ∧ Composable names ns nodes) ∧
    (∀ n ppn items isExcl, IsDecimal n → IsDecimal ppn →
      (∀ item ∈ items, NodespecItem.Plain item) →
      (ComposesPlan printOver names reqPpn isExclusive (nodespecText n ppn items isExcl) nodes ↔
        (∃ item ∈ items, item.negative = false) ∧
          Composable names (joinItems (positives items)) nodes)) := by
  have hkeep : printOver = keepFront := funext fun front => funext fun behind => hprint front behind
  subst hkeep
  have hall : ∀ nodespec, ComposesPlan keepFront names reqPpn isExclusive nodespec nodes ↔
      ∃ fuel opening ns, tmpNsStart nodespec = .ok opening ∧
        removalLoop fuel opening.start = .ok ns ∧ Composable names ns nodes := by
    intro nodespec
    constructor
    · rintro ⟨fuel, created, hcreated, hcomposed⟩
      obtain ⟨opening, hopening, h⟩ := bind_ok.mp hcreated
      obtain ⟨ns, hns, _⟩ := bind_ok.mp h
      exact ⟨fuel, opening, ns, hopening, hns,
        (composed_iff hopening hns nodes).mp ⟨created, hcreated, hcomposed⟩⟩
    · rintro ⟨fuel, opening, ns, hopening, hns, hcomposable⟩
      exact ⟨fuel, (composed_iff hopening hns nodes).mpr hcomposable⟩
  refine ⟨hall, ?_⟩
  intro n ppn items isExcl hn hppn hitems
  have hremoved := negatives_removed_iff hn hppn hitems isExcl
  rw [hall, ← hremoved]
  constructor
  · rintro ⟨fuel, opening, ns, hopening, hns, hcomposable⟩
    have hpositive : ∃ item ∈ items, item.negative = false := by
      rw [tmpNsStart_nodespecText hn hppn hitems] at hopening
      by_cases hne : items = []
      · rw [if_pos hne] at hopening
        cases hopening
      · rw [if_neg hne] at hopening
        cases hopening
        by_contra hnone
        rw [removalLoop_stuck fuel hne (fun item hitem => ⟨hitems item hitem,
          eq_true_of_ne_false (fun hpos => hnone ⟨item, hitem, hpos⟩)⟩)] at hns
        cases hns
    obtain ⟨fuel', opening', hopening', hns'⟩ := hremoved.mpr hpositive
    rw [hopening] at hopening'
    cases hopening'
    rw [removalLoop_unique fuel fuel' hns hns'] at hcomposable
    exact ⟨⟨fuel', opening, hopening, hns'⟩, hcomposable⟩
  · rintro ⟨⟨fuel, opening, hopening, hns⟩, hcomposable⟩
    exact ⟨fuel, opening, _, hopening, hns, hcomposable⟩

/-- The resource `mem=1`. -/
def oneMem : NodespecItem := ⟨false, "mem=1".toList⟩

/-- The nodes `a` and `b`. -/
def twoNames (node : ℕ) : List Char := if node = 0 then ['a'] else ['b']

/-- The plan `a`, `a`, `b`, `a` of a job that came with `1:ppn=2:^cl:mem=1`. -/
theorem composesPlan_two :
    ComposesPlan keepFront twoNames 2 false (nodespecText ['1'] ['2'] [notCl, oneMem] false)
      [0, 0, 1, 0] := by
  refine ((composesPlan_iff (fun _ _ => rfl) twoNames 2 false [0, 0, 1, 0]).2 ['1'] ['2']
    [notCl, oneMem] false ⟨by simp, by simp⟩ ⟨by simp, by simp⟩ ?_).mpr
    ⟨⟨oneMem, by simp, rfl⟩, Or.inr ⟨by decide, by decide, by decide⟩⟩
  intro item hitem
  simp only [List.mem_cons, List.not_mem_nil, or_false] at hitem
  rcases hitem with rfl | rfl
  · exact notCl_plain
  · exact ⟨by decide, by decide, by decide, fun h => by cases h⟩

/-- For a job that came with `1:ppn=1` the function follows `NULL`, and for `1:ppn=1:^cl` it never
ends, whatever `sprintf` leaves. -/
theorem not_composesPlan (printOver : PrintOver) :
    ¬ ComposesPlan printOver twoNames 1 false "1:ppn=1".toList [0] ∧
    ¬ ComposesPlan printOver twoNames 1 false "1:ppn=1:^cl".toList [0] := by
  constructor
  · rintro ⟨fuel, created, hcreated, _⟩
    have hnull : tmpNsStart "1:ppn=1".toList = .error .nullPointer := by decide
    obtain ⟨opening, hopening, _⟩ := bind_ok.mp hcreated
    rw [hnull] at hopening
    cases hopening
  · rintro ⟨fuel, created, hcreated, _⟩
    have hstart : tmpNsStart "1:ppn=1:^cl".toList
        = .ok ⟨"1:ppn=1:".toList, joinItems [notCl], false⟩ := by decide
    have hstuck := removalLoop_stuck fuel (List.cons_ne_nil notCl []) (fun item hitem => by
      rw [List.mem_singleton.mp hitem]
      exact ⟨notCl_plain, rfl⟩)
    obtain ⟨opening, hopening, h⟩ := bind_ok.mp hcreated
    obtain ⟨ns, hns, _⟩ := bind_ok.mp h
    rw [hstart] at hopening
    cases hopening
    rw [hstuck] at hns
    cases hns

/-- So no text is composed for these jobs. -/
theorem plan_not_composed :
    ¬ ComposesPlan keepFront twoNames 1 false "1:ppn=1".toList [0] ∧
    ¬ ComposesPlan keepFront twoNames 1 false "1:ppn=1:^cl".toList [0] :=
  not_composesPlan keepFront

/-! ## The specification as it is parsed back -/

/-- The parts for the runs from an open one on. -/
theorem nodespecLoop_runsFrom (l : List ℕ) : ∀ (first n : ℕ), ∃ parts node m,
    nodespecLoop reqPpn (some first) n (l.map some) = (parts, some node, m) ∧
      parts ++ [⟨1, node, m * reqPpn⟩]
        = (runsFrom first n l).map (fun r => (⟨1, r.1, r.2 * reqPpn⟩ : SpecNode)) := by
  induction l with
  | nil => exact fun first n => ⟨[], first, n, rfl, rfl⟩
  | cons next l ih =>
      intro first n
      rw [List.map_cons, nodespecLoop, runsFrom]
      by_cases hsame : next = first
      · rw [if_pos (congrArg some hsame), if_pos hsame]
        exact ih first (n + 1)
      · rw [if_neg (fun h => hsame (Option.some.inj h)), if_neg hsame]
        obtain ⟨parts, node, m, hloop, hparts⟩ := ih next 1
        refine ⟨⟨1, first, n * reqPpn⟩ :: parts, node, m, ?_, ?_⟩
        · rw [hloop]
        · rw [List.cons_append, hparts, List.map_cons]

/-- The distinct entries are the distinct nodes. -/
theorem distinctEntries_map (nodes : List ℕ) :
    distinctEntries (nodes.map some) = nodes.eraseDups.map some := by
  induction nodes using List.reverseRecOn with
  | nil => rfl
  | append_singleton done node ih =>
      unfold distinctEntries at ih ⊢
      rw [List.map_append, List.foldl_append, ih, eraseDups_append_singleton]
      show (if some node ∈ done.eraseDups.map some then _ else _) = _
      by_cases hfound : node ∈ done.eraseDups
      · rw [if_pos hfound, if_pos (List.mem_map_of_mem hfound)]
      · rw [if_neg hfound, if_neg ?_, List.map_append]
        · rfl
        · intro hmem
          obtain ⟨other, hother, heq⟩ := List.mem_map.mp hmem
          exact hfound (Option.some.inj heq ▸ hother)

/-- What the walk over the plan sees of the specification are the runs and the distinct nodes
that the texts have. -/
theorem created_specs (own : List SpecNode) {job : PlanJob} {nodes : List ℕ}
    (harr : job.ninfoArr = nodes.map some) (hne : nodes ≠ []) :
    (PlanSched.jobCreateNodespec own job).specs
        = (runs nodes).map (fun r => ⟨1, r.1, r.2 * job.reqPpn⟩) ∧
      (PlanSched.jobCreateNodespec own job).ninfoArr = (distinctLoop job.ninfoArr).1 := by
  obtain ⟨first, l, rfl⟩ := List.exists_cons_of_ne_nil hne
  obtain ⟨parts, node, m, hloop, hparts⟩ := @nodespecLoop_runsFrom job.reqPpn l first 1
  have hfirst : nodespecLoop job.reqPpn none 1 job.ninfoArr = (parts, some node, m) := by
    rw [harr, List.map_cons, nodespecLoop]
    exact hloop
  unfold PlanSched.jobCreateNodespec
  rw [hfirst]
  refine ⟨hparts, ?_⟩
  rw [harr, distinctLoop_eq]
  dsimp only
  rw [distinctEntries_map, List.length_map, List.length_map]
  exact (List.append_nil _).symm

end PlanSched.NodespecText
