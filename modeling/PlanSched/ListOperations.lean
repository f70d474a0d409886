/-
# The list operations of the plan

The plan keeps its jobs, its gaps and its limits in intrusive doubly linked lists
(`plan_list_operations.cpp`): the links live in the items, a list has only its two
ends, a cursor and a number of items.

* `Memory` is the memory the operations work on: the live items with their links
  and the live lists; following a freed pointer, or reading an item at another
  list's type, is a fault;
* `listAddBegin`, `listAddEnd`, `listAddInfrontof`, `listAddInbackof`,
  `listRemoveItem`, `listMoveItem`, `listRepleaceItem`, `listAppend` and
  `listGetItem` are the operations as the source has them;
* `Sequences` says what the lists are for, a sequence of items each, and
  `Op.change` what each operation says about them;
* `Refines` connects the two, `Refines.change` is the frame that every operation on
  one list keeps, `exec_refines` the statement for one operation, and
  `execAll_refines` and `planLists_are_sequences` those for whole runs.
-/
import PlanSched.CheckedRun
import PlanSched.LinkedSegment

namespace PlanSched.ListOperations

open CheckedRun LinkedSegment

/-! ## Memory -/

/-- `listtype`. -/
inductive ListType : Type where
  | gaps : ListType
  | jobs : ListType
  | limits : ListType
  deriving DecidableEq, Repr

/-- `plan_list`. -/
structure PlanList where
  numItems : ℤ
  first : Option ℕ
  last : Option ℕ
  current : Option ℕ
  type : ListType
  deriving DecidableEq, Repr

/-- The live items, by type and with their links, and the live lists. -/
structure Memory where
  kind : ℕ → Option ListType
  successor : ℕ → Option ℕ
  predeccessor : ℕ → Option ℕ
  list : ℕ → Option PlanList

/-- Nothing is allocated. -/
def Memory.empty : Memory where
  kind := fun _ => none
  successor := fun _ => none
  predeccessor := fun _ => none
  list := fun _ => none

/-- `get_successor`; `NULL` has none. -/
def getSuccessor (mem : Memory) (item : Option ℕ) (type : ListType) : Run (Option ℕ) :=
  match item with
  | none => .ok none
  | some a => if mem.kind a = some type then .ok (mem.successor a) else .error .nullPointer

/-- `get_predeccessor`; `NULL` has none. -/
def getPredeccessor (mem : Memory) (item : Option ℕ) (type : ListType) : Run (Option ℕ) :=
  match item with
  | none => .ok none
  | some a => if mem.kind a = some type then .ok (mem.predeccessor a) else .error .nullPointer

/-- `set_successor`; nothing is done for `NULL`. -/
def setSuccessor (mem : Memory) (item successor : Option ℕ) (type : ListType) : Run Memory :=
  match item with
  | none => .ok mem
  | some a =>
      if mem.kind a = some type then
        .ok { mem with successor := Function.update mem.successor a successor }
      else .error .nullPointer

/-- `set_predeccessor`; nothing is done for `NULL`. -/
def setPredeccessor (mem : Memory) (item predeccessor : Option ℕ) (type : ListType) : Run Memory :=
  match item with
  | none => .ok mem
  | some a =>
      if mem.kind a = some type then
        .ok { mem with predeccessor := Function.update mem.predeccessor a predeccessor }
      else .error .nullPointer

/-- Store the record of a list. -/
def Memory.setList (mem : Memory) (l : ℕ) (list : PlanList) : Memory :=
  { mem with list := Function.update mem.list l (some list) }

/-- `free` of a list. -/
def Memory.freeList (mem : Memory) (l : ℕ) : Memory :=
  { mem with list := Function.update mem.list l none }

/-- `free_job`, `free_gap`, `free_limit`. -/
def Memory.freeItem (mem : Memory) (a : ℕ) : Memory :=
  { mem with kind := Function.update mem.kind a none }

/-- `job_create`, `gap_create`, `limit_create` at the address `malloc` returned: both links
are `NULL`. -/
def Memory.createItem (mem : Memory) (a : ℕ) (type : ListType) : Memory :=
  { mem with
    kind := Function.update mem.kind a (some type)
    successor := Function.update mem.successor a none
    predeccessor := Function.update mem.predeccessor a none }

/-! ## The operations -/

/-- `list_create`, at the address `malloc` returned. -/
def listCreate (mem : Memory) (fresh : ℕ) (type : ListType) : Memory :=
  mem.setList fresh { numItems := 0, first := none, last := none, current := none, type := type }

/-- The adding functions create the item they are given as `NULL`, except for limits. -/
def createIfNull (mem : Memory) (type : ListType) (item : Option ℕ) (fresh : ℕ) :
    Memory × Option ℕ :=
  match item with
  | some a => (mem, some a)
  | none => if type = .limits then (mem, none) else (mem.createItem fresh type, some fresh)

/-- `list_add_infrontof` next to an item. -/
def linkInfrontof (mem : Memory) (l : ℕ) (itemNext : ℕ) (itemNew : Option ℕ) (fresh : ℕ) :
    Run (Memory × Option ℕ) := do
  let list ← deref (mem.list l)
  let (mem, itemNew) := createIfNull mem list.type itemNew fresh
  let itemNextPredeccessor ← getPredeccessor mem (some itemNext) list.type
  let mem ← setSuccessor mem itemNextPredeccessor itemNew list.type
  let first := if itemNextPredeccessor = none then itemNew else list.first
  let mem ← setSuccessor mem itemNew (some itemNext) list.type
  let mem ← setPredeccessor mem itemNew itemNextPredeccessor list.type
  let mem ← setPredeccessor mem (some itemNext) itemNew list.type
  return (mem.setList l
    { list with numItems := list.numItems + 1, first := first, current := itemNew }, itemNew)

/-- `list_add_inbackof` next to an item. -/
def linkInbackof (mem : Memory) (l : ℕ) (itemPrevious : ℕ) (itemNew : Option ℕ) (fresh : ℕ) :
    Run (Memory × Option ℕ) := do
  let list ← deref (mem.list l)
  let (mem, itemNew) := createIfNull mem list.type itemNew fresh
  let itemPreviousSuccessor ← getSuccessor mem (some itemPrevious) list.type
  let mem ← setPredeccessor mem itemPreviousSuccessor itemNew list.type
  let last := if itemPreviousSuccessor = none then itemNew else list.last
  let mem ← setSuccessor mem itemNew itemPreviousSuccessor list.type
  let mem ← setPredeccessor mem itemNew (some itemPrevious) list.type
  let mem ← setSuccessor mem (some itemPrevious) itemNew list.type
  return (mem.setList l
    { list with numItems := list.numItems + 1, last := last, current := itemNew }, itemNew)

/-- The sole item of a list that was empty; its links are not touched. -/
def addSole (mem : Memory) (l : ℕ) (list : PlanList) (itemNew : Option ℕ) : Memory :=
  mem.setList l
    { list with numItems := list.numItems + 1, first := itemNew, last := itemNew,
                current := itemNew }

/-- `list_add_begin`.  With items counted but no first one it calls `list_add_infrontof`, which
calls it again, without end. -/
def listAddBegin (mem : Memory) (list : Option ℕ) (itemNew : Option ℕ) (fresh : ℕ) :
    Run (Memory × Option ℕ) :=
  match list with
  | none => .ok (mem, none)
  | some l => do
      let list ← deref (mem.list l)
      let (mem, itemNew) := createIfNull mem list.type itemNew fresh
      if list.numItems = 0 then
        return (addSole mem l list itemNew, itemNew)
      else
        match list.first with
        | none => .error .outOfSteps
        | some first => linkInfrontof mem l first itemNew fresh

/-- `list_add_end`.  With items counted but no last one it calls `list_add_inbackof`, which
calls it again, without end. -/
def listAddEnd (mem : Memory) (list : Option ℕ) (itemNew : Option ℕ) (fresh : ℕ) :
    Run (Memory × Option ℕ) :=
  match list with
  | none => .ok (mem, none)
  | some l => do
      let list ← deref (mem.list l)
      let (mem, itemNew) := createIfNull mem list.type itemNew fresh
      if list.numItems = 0 then
        return (addSole mem l list itemNew, itemNew)
      else
        match list.last with
        | none => .error .outOfSteps
        | some last => linkInbackof mem l last itemNew fresh

/-- `list_add_infrontof`. -/
def listAddInfrontof (mem : Memory) (list : Option ℕ) (itemNext itemNew : Option ℕ)
    (fresh : ℕ) : Run (Memory × Option ℕ) :=
  match list, itemNext with
  | none, _ => .ok (mem, none)
  | some l, none => listAddBegin mem (some l) itemNew fresh
  | some l, some itemNext => linkInfrontof mem l itemNext itemNew fresh

/-- `list_add_inbackof`. -/
def listAddInbackof (mem : Memory) (list : Option ℕ) (itemPrevious itemNew : Option ℕ)
    (fresh : ℕ) : Run (Memory × Option ℕ) :=
  match list, itemPrevious with
  | none, _ => .ok (mem, none)
  | some l, none => listAddEnd mem (some l) itemNew fresh
  | some l, some itemPrevious => linkInbackof mem l itemPrevious itemNew fresh

/-- `list_get_first`. -/
def listGetFirst (mem : Memory) (list : Option ℕ) : Run (Memory × Option ℕ) :=
  match list with
  | none => .ok (mem, none)
  | some l => do
      let list ← deref (mem.list l)
      return (mem.setList l { list with current := list.first }, list.first)

/-- The loop of `list_get_item`: `k` times along the links. -/
def walkItems (step : Option ℕ → Run (Option ℕ)) : ℕ → Option ℕ → Run (Option ℕ)
  | 0, current => .ok current
  | k + 1, current => do
      let current ← step current
      walkItems step k current

/-- `list_get_item`: from the end that looks closer. -/
def listGetItem (mem : Memory) (list : Option ℕ) (position : ℤ) : Run (Memory × Option ℕ) :=
  match list with
  | none => .ok (mem, none)
  | some l => do
      let list ← deref (mem.list l)
      if list.numItems ≤ position ∨ position < 0 then
        return (mem, none)
      else if list.numItems.tdiv 2 < position then
        let current ← walkItems (fun item => getPredeccessor mem item list.type)
          (list.numItems - position - 1).toNat list.last
        return (mem.setList l { list with current := current }, current)
      else
        let current ← walkItems (fun item => getSuccessor mem item list.type)
          position.toNat list.first
        return (mem.setList l { list with current := current }, current)

/-- `list_remove_item`. -/
def listRemoveItem (mem : Memory) (list : Option ℕ) (itemRemove : Option ℕ) (setFree : Bool) :
    Run (Memory × ℤ) :=
  match itemRemove, list with
  | none, _ => .ok (mem, 1)
  | some _, none => .ok (mem, 1)
  | some a, some l => do
      let list ← deref (mem.list l)
      let pred ← getPredeccessor mem (some a) list.type
      let succ ← getSuccessor mem (some a) list.type
      let mem ← if pred = none then setPredeccessor mem succ none list.type
        else setSuccessor mem pred succ list.type
      let first := if pred = none then succ else list.first
      let mem ← if succ = none then setSuccessor mem pred none list.type
        else setPredeccessor mem succ pred list.type
      let last := if succ = none then pred else list.last
      let mem := mem.setList l
        { list with numItems := list.numItems - 1, first := first, last := last, current := none }
      if setFree then
        return (mem.freeItem a, 0)
      else
        let mem ← setSuccessor mem (some a) none list.type
        let mem ← setPredeccessor mem (some a) none list.type
        return (mem, 0)

/-- `list_move_item`: behind `predeccessor`, or to the front.  The item is not `NULL`, so adding
it again creates none. -/
def listMoveItem (mem : Memory) (list : Option ℕ) (itemMove predeccessor : Option ℕ) :
    Run (Memory × ℤ) :=
  if itemMove = none then .ok (mem, 1)
  else do
    let (mem, _) ← listRemoveItem mem list itemMove false
    if predeccessor = none then
      let (mem, first) ← listGetFirst mem list
      let (mem, _) ← listAddInfrontof mem list first itemMove 0
      return (mem, 0)
    else
      let (mem, _) ← listAddInbackof mem list predeccessor itemMove 0
      return (mem, 0)

/-- `list_repleace_item`; an item with links is refused. -/
def listRepleaceItem (mem : Memory) (list : Option ℕ) (itemOld itemNew : Option ℕ)
    (setFree : Bool) : Run (Memory × ℤ) :=
  if itemOld = itemNew then .ok (mem, 1)
  else
    match itemOld, itemNew with
    | none, _ => .ok (mem, 1)
    | some _, none => .ok (mem, 1)
    | some old, some new => do
        let l ← deref list
        let list ← deref (mem.list l)
        let newSuccessor ← getSuccessor mem (some new) list.type
        let newPredeccessor ← getPredeccessor mem (some new) list.type
        if newSuccessor ≠ none ∨ newPredeccessor ≠ none then
          return (mem, 1)
        else
          let mem ← setSuccessor mem (some new) (← getSuccessor mem (some old) list.type) list.type
          let mem ← setPredeccessor mem (some new) (← getPredeccessor mem (some old) list.type)
            list.type
          let succ ← getSuccessor mem (some new) list.type
          let mem ← setPredeccessor mem succ (some new) list.type
          let last := if succ = none then some new else list.last
          let pred ← getPredeccessor mem (some new) list.type
          let mem ← setSuccessor mem pred (some new) list.type
          let first := if pred = none then some new else list.first
          let mem := mem.setList l { list with first := first, last := last }
          if setFree then
            return (mem.freeItem old, 0)
          else
            let mem ← setSuccessor mem (some old) none list.type
            let mem ← setPredeccessor mem (some old) none list.type
            return (mem, 0)

/-- `list_append`; the appended list is freed, also when it was empty. -/
def listAppend (mem : Memory) (list listToAppend : Option ℕ) : Run (Memory × ℤ) :=
  match list, listToAppend with
  | none, _ => .ok (mem, 1)
  | some _, none => .ok (mem, 1)
  | some l, some m => do
      let list ← deref (mem.list l)
      let other ← deref (mem.list m)
      if list.type ≠ other.type then
        return (mem, 1)
      else if 0 < list.numItems ∧ 0 < other.numItems then
        let mem ← setSuccessor mem list.last other.first list.type
        let mem ← setPredeccessor mem other.first list.last list.type
        let mem := mem.setList l
          { list with last := other.last, numItems := list.numItems + other.numItems }
        return (mem.freeList m, 0)
      else if list.numItems = 0 then
        let mem := mem.setList l
          { list with first := other.first, last := other.last,
                      numItems := list.numItems + other.numItems }
        return (mem.freeList m, 0)
      else
        return (mem.freeList m, 0)

/-! ## Sequences of items -/

/-- What a list is for: a sequence of items of one type. -/
structure Sequence where
  type : ListType
  items : List ℕ

/-- The sequences of all lists, by the address of the list. -/
abbrev Sequences : Type := ℕ → Option Sequence

/-- A new item in front of a member; for `NULL`, at the beginning. -/
def addInfrontof (next : Option ℕ) (new : ℕ) (items : List ℕ) : List ℕ :=
  match next with
  | none => new :: items
  | some a => insertBefore a new items

/-- A new item in back of a member; for `NULL`, at the end. -/
def addInbackof (previous : Option ℕ) (new : ℕ) (items : List ℕ) : List ℕ :=
  match previous with
  | none => items ++ [new]
  | some a => insertAfter a new items

/-- A member moved behind another one; for `NULL`, to the front. -/
def moveItem (item : ℕ) (predeccessor : Option ℕ) (items : List ℕ) : List ℕ :=
  match predeccessor with
  | none => item :: items.erase item
  | some a => insertAfter a item (items.erase item)

/-- The item is in none of the lists. -/
def Free (seqs : Sequences) (a : ℕ) : Prop := ∀ l s, seqs l = some s → a ∉ s.items

/-- The list record and the links of its items show the sequence: the ends, the number of
items, and every item's two neighbours; no item stands twice. -/
structure Shape (mem : Memory) (list : PlanList) (s : Sequence) : Prop where
  type : list.type = s.type
  numItems : list.numItems = s.items.length
  first : list.first = s.items.head?
  last : list.last = s.items.getLast?
  nodup : s.items.Nodup
  live : ∀ a ∈ s.items, mem.kind a = some s.type
  links : ∀ pre a post, s.items = pre ++ a :: post →
    mem.predeccessor a = pre.getLast? ∧ mem.successor a = post.head?

/-- The memory shows the sequences: every list its own, no item in two lists, and no links in
an item that is in none. -/
structure Refines (mem : Memory) (seqs : Sequences) : Prop where
  dead : ∀ l, seqs l = none → mem.list l = none
  shape : ∀ l s, seqs l = some s → ∃ list, mem.list l = some list ∧ Shape mem list s
  apart : ∀ l m s u, seqs l = some s → seqs m = some u → l ≠ m → ∀ a ∈ s.items, a ∉ u.items
  loose : ∀ a, mem.kind a ≠ none → Free seqs a →
    mem.successor a = none ∧ mem.predeccessor a = none

variable {mem mem' : Memory} {seqs : Sequences} {list list' : PlanList} {s : Sequence}
  {l a new fresh : ℕ} {t : ListType}

/-- The items of a list are laid out along their links. -/
theorem Shape.segment (h : Shape mem list s) :
    Segment mem.successor mem.predeccessor none s.items none := by
  rw [segment_iff]
  intro pre a post hsplit
  rw [Option.or_none, Option.or_none]
  exact h.links pre a post hsplit

/-- The links of a segment, in the form of `Shape.links`. -/
theorem links_of_segment {xs : List ℕ}
    (h : Segment mem.successor mem.predeccessor none xs none) (pre : List ℕ) (a : ℕ)
    (post : List ℕ) (hsplit : xs = pre ++ a :: post) :
    mem.predeccessor a = pre.getLast? ∧ mem.successor a = post.head? := by
  have hlinks := segment_iff.mp h pre a post hsplit
  rwa [Option.or_none, Option.or_none] at hlinks

/-- Successor and predecessor links of the members are inverse to each other. -/
theorem Shape.inverse (h : Shape mem list s) {a b : ℕ} (ha : a ∈ s.items) (hb : b ∈ s.items) :
    mem.successor a = some b ↔ mem.predeccessor b = some a := by
  constructor
  · intro hsucc
    obtain ⟨pre, post, hsplit⟩ := List.append_of_mem ha
    rw [(h.links pre a post hsplit).2] at hsucc
    obtain ⟨post', rfl⟩ := List.head?_eq_some_iff.mp hsucc
    have hsplit' : s.items = (pre ++ [a]) ++ b :: post' := by
      rw [hsplit, List.append_assoc]
      rfl
    rw [(h.links _ b post' hsplit').1, List.getLast?_concat]
  · intro hpred
    obtain ⟨pre, post, hsplit⟩ := List.append_of_mem hb
    rw [(h.links pre b post hsplit).1] at hpred
    obtain ⟨pre', rfl⟩ := List.getLast?_eq_some_iff.mp hpred
    have hsplit' : s.items = pre' ++ a :: b :: post := by
      rw [hsplit, List.append_assoc]
      rfl
    rw [(h.links pre' a _ hsplit').2, List.head?_cons]

/-- No walk along the links comes back to where it started. -/
theorem Shape.acyclic (h : Shape mem list s) {a : ℕ} (ha : a ∈ s.items) {k : ℕ} (hk : 0 < k) :
    walk mem.successor k (some a) ≠ some a := by
  obtain ⟨pre, post, hsplit⟩ := List.append_of_mem ha
  have hseg := h.segment
  have hnodup := h.nodup
  rw [hsplit] at hseg hnodup
  have hwalk := (segment_append.mp hseg).2.walk k
  rw [List.head?_cons] at hwalk
  rw [hwalk]
  obtain ⟨k, rfl⟩ : ∃ j, k = j + 1 := ⟨k - 1, by omega⟩
  rw [List.getElem?_cons_succ]
  intro hback
  have hnot := (List.nodup_cons.mp (List.nodup_append.mp hnodup).2.1).1
  exact hnot (List.mem_of_getElem? hback)

/-! ## Changing one list -/

/-- The pointer is `NULL` or points to a live item of the type. -/
def Live (kind : ℕ → Option ListType) (item : Option ℕ) (t : ListType) : Prop :=
  ∀ a, item = some a → kind a = some t

/-- An item is live by its own entry. -/
@[simp] theorem live_some {kind : ℕ → Option ListType} :
    Live kind (some a) t ↔ kind a = some t := by
  simp [Live]

/-- A write to a live item of the right type succeeds. -/
theorem setSuccessor_ok {item b : Option ℕ} (h : Live mem.kind item t) :
    setSuccessor mem item b t = .ok { mem with successor := redirect mem.successor item b } := by
  cases item with
  | none => rw [redirect_none]; rfl
  | some a =>
      have heq : redirect mem.successor (some a) b = Function.update mem.successor a b := by
        funext c
        simp only [redirect, Function.update_apply, Option.some.injEq, eq_comm]
      rw [setSuccessor, if_pos (h a rfl), heq]

/-- A write to a live item of the right type succeeds. -/
theorem setPredeccessor_ok {item b : Option ℕ} (h : Live mem.kind item t) :
    setPredeccessor mem item b t =
      .ok { mem with predeccessor := redirect mem.predeccessor item b } := by
  cases item with
  | none => rw [redirect_none]; rfl
  | some a =>
      have heq : redirect mem.predeccessor (some a) b = Function.update mem.predeccessor a b := by
        funext c
        simp only [redirect, Function.update_apply, Option.some.injEq, eq_comm]
      rw [setPredeccessor, if_pos (h a rfl), heq]

/-- **The frame of an operation**: it rewrites one list and touches no item outside the old and
the new sequence; what it takes out is freed or loses its links. -/
theorem Refines.change (h : Refines mem seqs) (hs : seqs l = some s) {items : List ℕ}
    (hlist : mem'.list = Function.update mem.list l (some list'))
    (hshape : Shape mem' list' { s with items := items })
    (hkind : ∀ a, a ∉ s.items → mem'.kind a = mem.kind a)
    (hlinks : ∀ a, a ∉ s.items → a ∉ items →
      mem'.successor a = mem.successor a ∧ mem'.predeccessor a = mem.predeccessor a)
    (hnew : ∀ a ∈ items, a ∉ s.items → Free seqs a)
    (hgone : ∀ a ∈ s.items, a ∉ items → mem'.kind a ≠ none →
      mem'.successor a = none ∧ mem'.predeccessor a = none) :
    Refines mem' (Function.update seqs l (some { s with items := items })) := by
  -- an item of another list is neither an old nor a new item of this one
  have hother : ∀ m u, seqs m = some u → m ≠ l → ∀ a ∈ u.items, a ∉ s.items ∧ a ∉ items := by
    intro m u hu hm a ha
    have hold : a ∉ s.items := h.apart m l u s hu hs hm a ha
    refine ⟨hold, ?_⟩
    intro hin
    exact hnew a hin hold m u hu ha
  constructor
  case dead =>
    intro m hm
    by_cases hml : m = l
    · subst hml
      rw [Function.update_self] at hm
      cases hm
    · rw [Function.update_of_ne hml] at hm
      rw [hlist, Function.update_of_ne hml]
      exact h.dead m hm
  case shape =>
    intro m u hu
    by_cases hml : m = l
    · subst hml
      rw [Function.update_self, Option.some.injEq] at hu
      subst hu
      exact ⟨list', by rw [hlist, Function.update_self], hshape⟩
    · rw [Function.update_of_ne hml] at hu
      obtain ⟨list₁, hlist₁, hshape₁⟩ := h.shape m u hu
      refine ⟨list₁, by rw [hlist, Function.update_of_ne hml, hlist₁], ?_⟩
      refine ⟨hshape₁.type, hshape₁.numItems, hshape₁.first, hshape₁.last, hshape₁.nodup, ?_, ?_⟩
      · intro a ha
        rw [hkind a (hother m u hu hml a ha).1]
        exact hshape₁.live a ha
      · intro pre a post hsplit
        have ha : a ∈ u.items := by simp [hsplit]
        obtain ⟨hold, hin⟩ := hother m u hu hml a ha
        rw [(hlinks a hold hin).1, (hlinks a hold hin).2]
        exact hshape₁.links pre a post hsplit
  case apart =>
    intro m k u v hu hv hne a ha hav
    by_cases hml : m = l
    · subst hml
      rw [Function.update_self, Option.some.injEq] at hu
      subst hu
      rw [Function.update_of_ne (Ne.symm hne)] at hv
      exact (hother k v hv (Ne.symm hne) a hav).2 ha
    · rw [Function.update_of_ne hml] at hu
      by_cases hkl : k = l
      · subst hkl
        rw [Function.update_self, Option.some.injEq] at hv
        subst hv
        exact (hother m u hu hml a ha).2 hav
      · rw [Function.update_of_ne hkl] at hv
        exact h.apart m k u v hu hv hne a ha hav
  case loose =>
    intro a ha hfree
    have hin : a ∉ items := hfree l _ (Function.update_self ..)
    by_cases hold : a ∈ s.items
    · exact hgone a hold hin ha
    · rw [(hlinks a hold hin).1, (hlinks a hold hin).2]
      apply h.loose a
      · rwa [hkind a hold] at ha
      · intro m u hu
        by_cases hml : m = l
        · subst hml
          rw [hs, Option.some.injEq] at hu
          rwa [← hu]
        · exact hfree m u (by rw [Function.update_of_ne hml, hu])

/-! ## Adding an item -/

/-- A free item is put between the two parts of a list. -/
theorem Refines.insert (h : Refines mem seqs) (as bs : List ℕ)
    (hs : seqs l = some { type := t, items := as ++ bs }) (hfree : Free seqs new)
    (hlive : mem.kind new = some t)
    (hlist : mem'.list = Function.update mem.list l (some list'))
    (hkind : mem'.kind = mem.kind) (htype : list'.type = t)
    (hnum : list'.numItems = ((as ++ bs).length : ℤ) + 1)
    (hfirst : list'.first = (as ++ new :: bs).head?)
    (hlast : list'.last = (as ++ new :: bs).getLast?)
    (hsucc : mem'.successor =
      redirect (redirect mem.successor as.getLast? (some new)) (some new) bs.head?)
    (hpred : mem'.predeccessor =
      redirect (redirect mem.predeccessor bs.head? (some new)) (some new) as.getLast?) :
    Refines mem' (Function.update seqs l (some { type := t, items := as ++ new :: bs })) := by
  obtain ⟨list, -, hshape⟩ := h.shape l _ hs
  have hnotin : new ∉ as ++ bs := hfree l _ hs
  have hne : ∀ a ∈ as ++ bs, some new ≠ some a := by
    rintro a ha heq
    rw [Option.some.injEq] at heq
    exact hnotin (heq ▸ ha)
  have hnodup : (as ++ bs).Nodup := hshape.nodup
  have hnodup' : (as ++ new :: bs).Nodup := by
    rw [List.nodup_middle]
    exact List.nodup_cons.mpr ⟨hnotin, hnodup⟩
  -- the chain is cut in two and closed again around the new item
  have hseg := segment_append.mp hshape.segment
  have hseg' : Segment mem'.successor mem'.predeccessor none (as ++ ([new] ++ bs)) none := by
    apply hseg.1.splice hseg.2 hnodup
    · refine ⟨?_, ?_, trivial⟩
      · rw [hpred, redirect_self]
      · rw [hsucc, redirect_self]
        rfl
    · intro a ha
      rw [hsucc, redirect_of_ne (hne a ha)]
      rfl
    · intro a ha
      rw [hpred, redirect_of_ne (hne a ha), List.getLast?_concat]
  -- the list has its new shape, and nothing outside of it moves
  apply h.change hs hlist
  · refine ⟨htype, ?_, hfirst, hlast, hnodup', ?_, links_of_segment hseg'⟩
    · rw [hnum]
      simp only [List.length_append, List.length_cons]
      push_cast
      omega
    · intro a ha
      rw [hkind]
      rcases List.mem_append.mp ha with ha | ha
      · exact hshape.live a (List.mem_append_left _ ha)
      · rcases List.mem_cons.mp ha with rfl | ha
        · exact hlive
        · exact hshape.live a (List.mem_append_right _ ha)
  · intro a _
    rw [hkind]
  · intro a hold hin
    simp only [List.mem_append, List.mem_cons, not_or] at hold hin
    have hnew : some new ≠ some a := fun heq => hin.2.1 (Option.some.inj heq).symm
    constructor
    · rw [hsucc, redirect_of_ne hnew, redirect_of_ne]
      exact fun heq => hold.1 (List.mem_of_getLast? heq)
    · rw [hpred, redirect_of_ne hnew, redirect_of_ne]
      exact fun heq => hold.2 (List.mem_of_head? heq)
  · intro a ha hold
    simp only [List.mem_append, List.mem_cons, not_or] at ha hold
    have : a = new := by tauto
    rw [this]
    exact hfree
  · intro a hold hin
    simp only [List.mem_append, List.mem_cons, not_or] at hold hin
    tauto

/-- The first item of an empty list. -/
theorem addSole_refines (h : Refines mem seqs) (hs : seqs l = some { type := t, items := [] })
    (hlist : mem.list l = some list) (hfree : Free seqs new) (hlive : mem.kind new = some t) :
    Refines (addSole mem l list (some new))
      (Function.update seqs l (some { type := t, items := [new] })) := by
  obtain ⟨list₁, hlist₁, hshape⟩ := h.shape l _ hs
  rw [hlist, Option.some.injEq] at hlist₁
  subst hlist₁
  obtain ⟨hsucc, hpred⟩ := h.loose new (by rw [hlive]; exact Option.some_ne_none t) hfree
  -- its links are not written, but they were `NULL` already
  have hkeep : ∀ f : ℕ → Option ℕ, f new = none → f = redirect f (some new) none := by
    intro f hf
    funext a
    unfold redirect
    split
    · rename_i heq
      rw [← Option.some.inj heq, hf]
    · rfl
  refine h.insert [] [] hs hfree hlive rfl rfl hshape.type ?_ rfl rfl ?_ ?_
  · show list.numItems + 1 = _
    rw [hshape.numItems]
    rfl
  · show mem.successor = redirect (redirect mem.successor none (some new)) (some new) none
    rw [redirect_none]
    exact hkeep _ hsucc
  · show mem.predeccessor = redirect (redirect mem.predeccessor none (some new)) (some new) none
    rw [redirect_none]
    exact hkeep _ hpred

/-- What `list_add_infrontof` writes. -/
theorem linkInfrontof_eq {next : ℕ} (hlist : mem.list l = some list)
    (hnext : mem.kind next = some list.type) (hnew : mem.kind new = some list.type)
    (hpred : Live mem.kind (mem.predeccessor next) list.type) :
    linkInfrontof mem l next (some new) fresh =
      .ok ({ kind := mem.kind
             successor := redirect (redirect mem.successor (mem.predeccessor next) (some new))
               (some new) (some next)
             predeccessor := redirect (redirect mem.predeccessor (some new)
               (mem.predeccessor next)) (some next) (some new)
             list := Function.update mem.list l (some
               { list with
                 numItems := list.numItems + 1
                 first := if mem.predeccessor next = none then some new else list.first
                 current := some new }) }, some new) := by
  simp [linkInfrontof, hlist, deref, createIfNull, getPredeccessor, hnext, setSuccessor_ok,
    setPredeccessor_ok, hpred, hnew, Memory.setList, bind, Except.bind, pure, Except.pure]

/-- What `list_add_inbackof` writes. -/
theorem linkInbackof_eq {previous : ℕ} (hlist : mem.list l = some list)
    (hprev : mem.kind previous = some list.type) (hnew : mem.kind new = some list.type)
    (hsucc : Live mem.kind (mem.successor previous) list.type) :
    linkInbackof mem l previous (some new) fresh =
      .ok ({ kind := mem.kind
             successor := redirect (redirect mem.successor (some new) (mem.successor previous))
               (some previous) (some new)
             predeccessor := redirect (redirect mem.predeccessor (mem.successor previous)
               (some new)) (some new) (some previous)
             list := Function.update mem.list l (some
               { list with
                 numItems := list.numItems + 1
                 last := if mem.successor previous = none then some new else list.last
                 current := some new }) }, some new) := by
  simp [linkInbackof, hlist, deref, createIfNull, getSuccessor, hprev, setSuccessor_ok,
    setPredeccessor_ok, hsucc, hnew, Memory.setList, bind, Except.bind, pure, Except.pure]

/-- The ends of a list's parts are live. -/
theorem Shape.live_ends (h : Shape mem list s) {as bs : List ℕ} (hsplit : s.items = as ++ bs) :
    Live mem.kind as.getLast? s.type ∧ Live mem.kind bs.head? s.type := by
  constructor
  · intro a ha
    apply h.live a
    rw [hsplit]
    exact List.mem_append_left _ (List.mem_of_getLast? ha)
  · intro a ha
    apply h.live a
    rw [hsplit]
    exact List.mem_append_right _ (List.mem_of_head? ha)

/-- `list_add_infrontof` next to a member. -/
theorem linkInfrontof_refines (h : Refines mem seqs) (as bs : List ℕ) {next : ℕ}
    (hs : seqs l = some { type := t, items := as ++ next :: bs }) (hfree : Free seqs new)
    (hlive : mem.kind new = some t) :
    ∃ mem', linkInfrontof mem l next (some new) fresh = .ok (mem', some new) ∧
      Refines mem'
        (Function.update seqs l (some { type := t, items := as ++ new :: next :: bs })) := by
  obtain ⟨list, hlist, hshape⟩ := h.shape l _ hs
  obtain ⟨hpred, -⟩ := hshape.links as next bs rfl
  obtain ⟨hlast, -⟩ := hshape.live_ends rfl
  have hnext : mem.kind next = some t := hshape.live next (by simp)
  have hne : next ≠ new := by
    rintro rfl
    exact hfree l _ hs (by simp)
  have htype : list.type = t := hshape.type
  refine ⟨_, linkInfrontof_eq hlist ?_ ?_ ?_, ?_⟩
  · rw [htype, hnext]
  · rw [htype, hlive]
  · rw [htype, hpred]
    exact hlast
  · refine h.insert as (next :: bs) hs hfree hlive rfl rfl htype ?_ ?_ ?_ ?_ ?_
    · show list.numItems + 1 = _
      rw [hshape.numItems]
    · show (if mem.predeccessor next = none then some new else list.first) = _
      rw [hpred, hshape.first]
      cases as with
      | nil => rfl
      | cons a as => simp [List.getLast?_cons]
    · show list.last = _
      rw [hshape.last]
      simp [List.getLast?_append, List.getLast?_cons]
    · show redirect (redirect _ (mem.predeccessor next) _) _ _ = _
      rw [hpred]
      rfl
    · show redirect (redirect _ _ (mem.predeccessor next)) _ _ = _
      rw [hpred, redirect_comm (by simpa using Ne.symm hne)]
      rfl

/-- `list_add_inbackof` next to a member. -/
theorem linkInbackof_refines (h : Refines mem seqs) (as bs : List ℕ) {previous : ℕ}
    (hs : seqs l = some { type := t, items := as ++ previous :: bs }) (hfree : Free seqs new)
    (hlive : mem.kind new = some t) :
    ∃ mem', linkInbackof mem l previous (some new) fresh = .ok (mem', some new) ∧
      Refines mem'
        (Function.update seqs l (some { type := t, items := as ++ previous :: new :: bs })) := by
  obtain ⟨list, hlist, hshape⟩ := h.shape l _ hs
  obtain ⟨-, hsucc⟩ := hshape.links as previous bs rfl
  have hsplit : as ++ previous :: bs = (as ++ [previous]) ++ bs := by simp
  obtain ⟨-, hfirst⟩ := hshape.live_ends hsplit
  have hprev : mem.kind previous = some t := hshape.live previous (by simp)
  have hne : previous ≠ new := by
    rintro rfl
    exact hfree l _ hs (by simp)
  have htype : list.type = t := hshape.type
  refine ⟨_, linkInbackof_eq hlist ?_ ?_ ?_, ?_⟩
  · rw [htype, hprev]
  · rw [htype, hlive]
  · rw [htype, hsucc]
    exact hfirst
  · rw [show as ++ previous :: new :: bs = (as ++ [previous]) ++ new :: bs by simp]
    rw [hsplit] at hs
    refine h.insert (as ++ [previous]) bs hs hfree hlive rfl rfl htype ?_ ?_ ?_ ?_ ?_
    · show list.numItems + 1 = _
      rw [hshape.numItems, ← hsplit]
    · show list.first = _
      rw [hshape.first]
      cases as <;> rfl
    · show (if mem.successor previous = none then some new else list.last) = _
      rw [hsucc, hshape.last]
      cases bs with
      | nil => simp
      | cons b bs => simp [List.getLast?_append, List.getLast?_cons]
    · show redirect (redirect _ _ (mem.successor previous)) _ _ = _
      rw [hsucc, redirect_comm (by simpa using Ne.symm hne), List.getLast?_concat]
    · show redirect (redirect _ (mem.successor previous) _) _ _ = _
      rw [hsucc, List.getLast?_concat]

/-- The item can be added to a list of type `t`: it is live, of that type and in no list; or it
is `NULL` and the list creates it, at an address that is not in use. -/
def Addable (mem : Memory) (seqs : Sequences) (t : ListType) (item : Option ℕ) (fresh : ℕ) : Prop :=
  match item with
  | some a => mem.kind a = some t ∧ Free seqs a
  | none => t ≠ .limits ∧ mem.kind fresh = none

/-- An item that is not live is in no list. -/
theorem Refines.free (h : Refines mem seqs) (ha : mem.kind a = none) : Free seqs a := by
  intro l s hs hin
  obtain ⟨list, -, hshape⟩ := h.shape l s hs
  rw [hshape.live a hin] at ha
  cases ha

/-- Creating an item leaves all lists as they are. -/
theorem createItem_refines (h : Refines mem seqs) (ha : mem.kind a = none) :
    Refines (mem.createItem a t) seqs := by
  have hfree := h.free ha
  refine ⟨h.dead, ?_, h.apart, ?_⟩
  · intro l s hs
    obtain ⟨list, hlist, hshape⟩ := h.shape l s hs
    have hne : ∀ b ∈ s.items, b ≠ a := by
      rintro b hb rfl
      exact hfree l s hs hb
    refine ⟨list, hlist, hshape.type, hshape.numItems, hshape.first, hshape.last,
      hshape.nodup, ?_, ?_⟩
    · intro b hb
      show Function.update mem.kind a _ b = _
      rw [Function.update_of_ne (hne b hb), hshape.live b hb]
    · intro pre b post hsplit
      have hb : b ≠ a := hne b (by simp [hsplit])
      show Function.update mem.predeccessor a _ b = _ ∧ Function.update mem.successor a _ b = _
      rw [Function.update_of_ne hb, Function.update_of_ne hb]
      exact hshape.links pre b post hsplit
  · intro b hb hfreeb
    show Function.update mem.successor a _ b = _ ∧ Function.update mem.predeccessor a _ b = _
    by_cases hba : b = a
    · rw [hba, Function.update_self, Function.update_self]
      exact ⟨rfl, rfl⟩
    · rw [Function.update_of_ne hba, Function.update_of_ne hba]
      apply h.loose b _ hfreeb
      have hkeep : (mem.createItem a t).kind b = mem.kind b := Function.update_of_ne hba _ _
      rwa [hkeep] at hb

/-- The item that is added, created where it was `NULL`. -/
theorem createIfNull_refines (h : Refines mem seqs) {item : Option ℕ}
    (hadd : Addable mem seqs t item fresh) :
    ∃ mem', createIfNull mem t item fresh = (mem', some (item.getD fresh)) ∧
      mem'.list = mem.list ∧ Refines mem' seqs ∧ mem'.kind (item.getD fresh) = some t ∧
      Free seqs (item.getD fresh) := by
  cases item with
  | some a => exact ⟨mem, rfl, rfl, h, hadd.1, hadd.2⟩
  | none =>
      refine ⟨mem.createItem fresh t, ?_, rfl, createItem_refines h hadd.2, ?_, h.free hadd.2⟩
      · rw [createIfNull, if_neg hadd.1]
        rfl
      · exact Function.update_self ..

/-- `list_add_infrontof` of `NULL` is that of the item it creates. -/
theorem linkInfrontof_create {next : ℕ} {item : Option ℕ} (hlist : mem.list l = some list)
    (hcreate : createIfNull mem list.type item fresh = (mem', some new))
    (hkeep : mem'.list = mem.list) :
    linkInfrontof mem l next item fresh = linkInfrontof mem' l next (some new) fresh := by
  simp only [linkInfrontof, hkeep, hlist, deref, bind, Except.bind, hcreate]
  rfl

/-- `list_add_inbackof` of `NULL` is that of the item it creates. -/
theorem linkInbackof_create {previous : ℕ} {item : Option ℕ} (hlist : mem.list l = some list)
    (hcreate : createIfNull mem list.type item fresh = (mem', some new))
    (hkeep : mem'.list = mem.list) :
    linkInbackof mem l previous item fresh = linkInbackof mem' l previous (some new) fresh := by
  simp only [linkInbackof, hkeep, hlist, deref, bind, Except.bind, hcreate]
  rfl

/-- `list_add_begin`. -/
theorem listAddBegin_refines (h : Refines mem seqs) (hs : seqs l = some s) {item : Option ℕ}
    (hadd : Addable mem seqs s.type item fresh) :
    ∃ mem', listAddBegin mem (some l) item fresh = .ok (mem', some (item.getD fresh)) ∧
      Refines mem'
        (Function.update seqs l (some { s with items := item.getD fresh :: s.items })) := by
  obtain ⟨list, hlist, hshape⟩ := h.shape l _ hs
  rw [← hshape.type] at hadd
  obtain ⟨mem₁, hcreate, hkeep, h₁, hkind, hfree⟩ := createIfNull_refines h hadd
  rw [hshape.type] at hkind
  have hnum := hshape.numItems
  have hfirst := hshape.first
  obtain ⟨type, items⟩ := s
  simp only [listAddBegin, hlist, deref, bind, Except.bind, hcreate]
  cases items with
  | nil =>
      rw [if_pos (by rw [hnum]; rfl)]
      exact ⟨_, rfl, addSole_refines h₁ hs (by rw [hkeep, hlist]) hfree hkind⟩
  | cons a as =>
      have hpos : list.numItems ≠ 0 := by
        rw [hnum, List.length_cons]
        omega
      rw [if_neg hpos, hfirst]
      exact linkInfrontof_refines h₁ [] as hs hfree hkind

/-- `list_add_end`. -/
theorem listAddEnd_refines (h : Refines mem seqs) (hs : seqs l = some s) {item : Option ℕ}
    (hadd : Addable mem seqs s.type item fresh) :
    ∃ mem', listAddEnd mem (some l) item fresh = .ok (mem', some (item.getD fresh)) ∧
      Refines mem'
        (Function.update seqs l (some { s with items := s.items ++ [item.getD fresh] })) := by
  obtain ⟨list, hlist, hshape⟩ := h.shape l _ hs
  rw [← hshape.type] at hadd
  obtain ⟨mem₁, hcreate, hkeep, h₁, hkind, hfree⟩ := createIfNull_refines h hadd
  rw [hshape.type] at hkind
  have hnum := hshape.numItems
  have hlast := hshape.last
  obtain ⟨type, items⟩ := s
  simp only [listAddEnd, hlist, deref, bind, Except.bind, hcreate]
  rcases List.eq_nil_or_concat' items with rfl | ⟨as, a, rfl⟩
  · rw [if_pos (by rw [hnum]; rfl)]
    exact ⟨_, rfl, addSole_refines h₁ hs (by rw [hkeep, hlist]) hfree hkind⟩
  · have hpos : list.numItems ≠ 0 := by
      rw [hnum, List.length_append, List.length_singleton]
      omega
    rw [if_neg hpos, hlast, List.getLast?_concat]
    obtain ⟨mem', hlink, href⟩ := linkInbackof_refines h₁ as [] hs hfree hkind
    refine ⟨mem', hlink, ?_⟩
    rw [List.append_assoc]
    exact href

/-- `list_add_infrontof`, next to a member or with `NULL` for it. -/
theorem listAddInfrontof_refines (h : Refines mem seqs) (hs : seqs l = some s)
    {next item : Option ℕ} (hnext : ∀ a, next = some a → a ∈ s.items)
    (hadd : Addable mem seqs s.type item fresh) :
    ∃ mem', listAddInfrontof mem (some l) next item fresh =
        .ok (mem', some (item.getD fresh)) ∧
      Refines mem' (Function.update seqs l
        (some { s with items := addInfrontof next (item.getD fresh) s.items })) := by
  cases next with
  | none => exact listAddBegin_refines h hs hadd
  | some next =>
      obtain ⟨list, hlist, hshape⟩ := h.shape l _ hs
      obtain ⟨as, bs, hsplit⟩ := List.append_of_mem (hnext next rfl)
      have hnot : next ∉ as := by
        have hnodup := hshape.nodup
        rw [hsplit] at hnodup
        intro hin
        exact (List.nodup_append.mp hnodup).2.2 next hin next (by simp) rfl
      rw [← hshape.type] at hadd
      obtain ⟨mem₁, hcreate, hkeep, h₁, hkind, hfree⟩ := createIfNull_refines h hadd
      rw [hshape.type] at hkind
      obtain ⟨type, items⟩ := s
      simp only at hsplit
      subst hsplit
      rw [show listAddInfrontof mem (some l) (some next) item fresh =
        linkInfrontof mem l next item fresh from rfl, linkInfrontof_create hlist hcreate hkeep]
      simp only [addInfrontof, insertBefore_split hnot]
      exact linkInfrontof_refines h₁ as bs hs hfree hkind

/-- `list_add_inbackof`, next to a member or with `NULL` for it. -/
theorem listAddInbackof_refines (h : Refines mem seqs) (hs : seqs l = some s)
    {previous item : Option ℕ} (hprevious : ∀ a, previous = some a → a ∈ s.items)
    (hadd : Addable mem seqs s.type item fresh) :
    ∃ mem', listAddInbackof mem (some l) previous item fresh =
        .ok (mem', some (item.getD fresh)) ∧
      Refines mem' (Function.update seqs l
        (some { s with items := addInbackof previous (item.getD fresh) s.items })) := by
  cases previous with
  | none => exact listAddEnd_refines h hs hadd
  | some previous =>
      obtain ⟨list, hlist, hshape⟩ := h.shape l _ hs
      obtain ⟨as, bs, hsplit⟩ := List.append_of_mem (hprevious previous rfl)
      have hnot : previous ∉ as := by
        have hnodup := hshape.nodup
        rw [hsplit] at hnodup
        intro hin
        exact (List.nodup_append.mp hnodup).2.2 previous hin previous (by simp) rfl
      rw [← hshape.type] at hadd
      obtain ⟨mem₁, hcreate, hkeep, h₁, hkind, hfree⟩ := createIfNull_refines h hadd
      rw [hshape.type] at hkind
      obtain ⟨type, items⟩ := s
      simp only at hsplit
      subst hsplit
      rw [show listAddInbackof mem (some l) (some previous) item fresh =
        linkInbackof mem l previous item fresh from rfl, linkInbackof_create hlist hcreate hkeep]
      simp only [addInbackof, insertAfter_split hnot]
      exact linkInbackof_refines h₁ as bs hs hfree hkind

/-! ## Removing and moving an item -/

/-- A member is taken out of a list. -/
theorem Refines.remove (h : Refines mem seqs) (as bs : List ℕ)
    (hs : seqs l = some { type := t, items := as ++ a :: bs })
    (hlist : mem'.list = Function.update mem.list l (some list'))
    (hkind : ∀ b, b ≠ a → mem'.kind b = mem.kind b) (htype : list'.type = t)
    (hnum : list'.numItems = ((as ++ a :: bs).length : ℤ) - 1)
    (hfirst : list'.first = (as ++ bs).head?) (hlast : list'.last = (as ++ bs).getLast?)
    (hsucc : ∀ b, b ≠ a → mem'.successor b = redirect mem.successor as.getLast? bs.head? b)
    (hpred : ∀ b, b ≠ a →
      mem'.predeccessor b = redirect mem.predeccessor bs.head? as.getLast? b)
    (hgone : mem'.kind a ≠ none → mem'.successor a = none ∧ mem'.predeccessor a = none) :
    Refines mem' (Function.update seqs l (some { type := t, items := as ++ bs })) := by
  obtain ⟨list, -, hshape⟩ := h.shape l _ hs
  have hnodup := hshape.nodup
  simp only at hnodup
  rw [List.nodup_middle, List.nodup_cons] at hnodup
  obtain ⟨hnot, hnodup⟩ := hnodup
  have hne : ∀ b ∈ as ++ bs, b ≠ a := by
    rintro b hb rfl
    exact hnot hb
  obtain ⟨has, -, -, hbs⟩ := segment_append.mp hshape.segment
  have hmiddle : Segment mem'.successor mem'.predeccessor as.getLast? [] bs.head? := trivial
  -- the two parts are linked to each other where the member was
  have hseg : Segment mem'.successor mem'.predeccessor none (as ++ ([] ++ bs)) none := by
    apply has.splice hbs hnodup hmiddle
    · intro b hb
      rw [hsucc b (hne b hb)]
      rfl
    · intro b hb
      rw [hpred b (hne b hb), List.append_nil]
  apply h.change hs hlist
  · refine ⟨htype, ?_, hfirst, hlast, hnodup, ?_, links_of_segment hseg⟩
    · rw [hnum]
      simp only [List.length_append, List.length_cons]
      push_cast
      omega
    · intro b hb
      rw [hkind b (hne b hb)]
      apply hshape.live b
      simp only [List.mem_append, List.mem_cons] at hb ⊢
      tauto
  · intro b hb
    simp only [List.mem_append, List.mem_cons, not_or] at hb
    exact hkind b hb.2.1
  · intro b hold _
    simp only [List.mem_append, List.mem_cons, not_or] at hold
    rw [hsucc b hold.2.1, hpred b hold.2.1, redirect_of_ne, redirect_of_ne]
    · exact ⟨rfl, rfl⟩
    · exact fun heq => hold.2.2 (List.mem_of_head? heq)
    · exact fun heq => hold.1 (List.mem_of_getLast? heq)
  · intro b hb hold
    simp only [List.mem_append, List.mem_cons, not_or] at hb hold
    tauto
  · intro b hold hin hlive
    simp only [List.mem_append, List.mem_cons, not_or] at hold hin
    have hba : b = a := by tauto
    rw [hba] at hlive ⊢
    exact hgone hlive

/-- What `list_remove_item` writes: the two neighbours are joined, and the item is freed or
loses its links. -/
theorem listRemoveItem_eq {setFree : Bool} (hlist : mem.list l = some list)
    (ha : mem.kind a = some list.type)
    (hpred : Live mem.kind (mem.predeccessor a) list.type)
    (hsucc : Live mem.kind (mem.successor a) list.type) :
    listRemoveItem mem (some l) (some a) setFree =
      .ok ({ kind := if setFree then Function.update mem.kind a none else mem.kind
             successor :=
               if setFree then redirect mem.successor (mem.predeccessor a) (mem.successor a)
               else redirect (redirect mem.successor (mem.predeccessor a) (mem.successor a))
                 (some a) none
             predeccessor :=
               if setFree then redirect mem.predeccessor (mem.successor a) (mem.predeccessor a)
               else redirect (redirect mem.predeccessor (mem.successor a) (mem.predeccessor a))
                 (some a) none
             list := Function.update mem.list l (some
               { list with
                 numItems := list.numItems - 1
                 first := if mem.predeccessor a = none then mem.successor a else list.first
                 last := if mem.successor a = none then mem.predeccessor a else list.last
                 current := none }) }, 0) := by
  cases hp : mem.predeccessor a <;> cases hq : mem.successor a <;> cases setFree <;>
    simp_all [listRemoveItem, deref, getPredeccessor, getSuccessor, setSuccessor_ok,
      setPredeccessor_ok, Memory.setList, Memory.freeItem, bind, Except.bind, pure, Except.pure]

/-- `list_remove_item` of a member. -/
theorem listRemoveItem_refines (h : Refines mem seqs) (hs : seqs l = some s)
    (ha : a ∈ s.items) (setFree : Bool) :
    ∃ mem', listRemoveItem mem (some l) (some a) setFree = .ok (mem', 0) ∧
      Refines mem' (Function.update seqs l (some { s with items := s.items.erase a })) ∧
      (setFree = false → mem'.kind = mem.kind) := by
  obtain ⟨list, hlist, hshape⟩ := h.shape l _ hs
  obtain ⟨as, bs, hsplit⟩ := List.append_of_mem ha
  obtain ⟨type, items⟩ := s
  simp only at hsplit
  subst hsplit
  obtain ⟨hpred, hsucc⟩ := hshape.links as a bs rfl
  obtain ⟨hlast, -⟩ := hshape.live_ends rfl
  have hsplit : as ++ a :: bs = (as ++ [a]) ++ bs := by simp
  obtain ⟨-, hfirst⟩ := hshape.live_ends hsplit
  have hnodup := hshape.nodup
  simp only at hnodup
  rw [List.nodup_middle, List.nodup_cons, List.mem_append, not_or] at hnodup
  obtain ⟨⟨hnotas, hnotbs⟩, -⟩ := hnodup
  have htype : list.type = type := hshape.type
  refine ⟨_, listRemoveItem_eq hlist ?_ ?_ ?_, ?_, ?_⟩
  · rw [htype]
    exact hshape.live a ha
  · rw [htype, hpred]
    exact hlast
  · rw [htype, hsucc]
    exact hfirst
  · have herase : (as ++ a :: bs).erase a = as ++ bs := by
      rw [List.erase_append_right _ hnotas, List.erase_cons_head]
    simp only [herase]
    -- `a` itself is neither end of the two parts, so its own links are the last written
    have hnelast : as.getLast? ≠ some a := fun heq => hnotas (List.mem_of_getLast? heq)
    have hnefirst : bs.head? ≠ some a := fun heq => hnotbs (List.mem_of_head? heq)
    refine h.remove as bs hs rfl ?_ htype ?_ ?_ ?_ ?_ ?_ ?_
    · intro b hb
      cases setFree with
      | true => exact Function.update_of_ne hb _ _
      | false => rfl
    · show list.numItems - 1 = _
      rw [hshape.numItems]
    · show (if mem.predeccessor a = none then mem.successor a else list.first) = _
      rw [hpred, hsucc, hshape.first]
      cases as with
      | nil => rfl
      | cons c as => simp [List.getLast?_cons]
    · show (if mem.successor a = none then mem.predeccessor a else list.last) = _
      rw [hpred, hsucc, hshape.last]
      cases bs with
      | nil => simp
      | cons b bs => simp [List.getLast?_append, List.getLast?_cons]
    · intro b hb
      have hba : some a ≠ some b := by simpa using Ne.symm hb
      cases setFree with
      | true => simp [hpred, hsucc]
      | false => simp [hpred, hsucc, redirect, Ne.symm hb]
    · intro b hb
      cases setFree with
      | true => simp [hpred, hsucc]
      | false => simp [hpred, hsucc, redirect, Ne.symm hb]
    · intro hlive
      cases setFree with
      | true => exact absurd (Function.update_self ..) hlive
      | false => simp [redirect]
  · intro hfree
    simp [hfree]

/-- The cursor of a list is no part of its sequence. -/
theorem Refines.setCurrent (h : Refines mem seqs) (hlist : mem.list l = some list)
    (current : Option ℕ) : Refines (mem.setList l { list with current := current }) seqs := by
  constructor
  case dead =>
    intro m hm
    have hml : m ≠ l := by
      rintro rfl
      rw [h.dead m hm] at hlist
      cases hlist
    show Function.update mem.list l _ m = none
    rw [Function.update_of_ne hml]
    exact h.dead m hm
  case shape =>
    intro m s hs
    obtain ⟨list₁, hlist₁, hshape⟩ := h.shape m s hs
    by_cases hml : m = l
    · subst hml
      rw [hlist, Option.some.injEq] at hlist₁
      subst hlist₁
      exact ⟨_, Function.update_self .., hshape.type, hshape.numItems, hshape.first, hshape.last,
        hshape.nodup, hshape.live, hshape.links⟩
    · refine ⟨list₁, ?_, hshape.type, hshape.numItems, hshape.first, hshape.last, hshape.nodup,
        hshape.live, hshape.links⟩
      show Function.update mem.list l _ m = some list₁
      rw [Function.update_of_ne hml, hlist₁]
  case apart => exact h.apart
  case loose => exact h.loose

/-- An item in front of the first one begins the list. -/
theorem addInfrontof_head (items : List ℕ) : addInfrontof items.head? a items = a :: items := by
  cases items with
  | nil => rfl
  | cons first items => simp [addInfrontof, insertBefore]

/-- `list_move_item` of a member, to the front or behind another member. -/
theorem listMoveItem_refines (h : Refines mem seqs) (hs : seqs l = some s) (ha : a ∈ s.items)
    {predeccessor : Option ℕ} (hpred : ∀ b, predeccessor = some b → b ∈ s.items ∧ b ≠ a) :
    ∃ mem', listMoveItem mem (some l) (some a) predeccessor = .ok (mem', 0) ∧
      Refines mem'
        (Function.update seqs l (some { s with items := moveItem a predeccessor s.items })) := by
  obtain ⟨list, hlist, hshape⟩ := h.shape l _ hs
  obtain ⟨mem₁, hremove, h₁, hkind⟩ := listRemoveItem_refines h hs ha false
  have hs₁ : Function.update seqs l (some { s with items := s.items.erase a }) l =
      some { s with items := s.items.erase a } := Function.update_self ..
  have hnot : a ∉ s.items.erase a := fun hin => (hshape.nodup.mem_erase_iff.mp hin).1 rfl
  -- between the two halves of the move the item is in no list
  have hfree : Free (Function.update seqs l (some { s with items := s.items.erase a })) a := by
    intro m u hu
    by_cases hml : m = l
    · subst hml
      rw [Function.update_self, Option.some.injEq] at hu
      subst hu
      exact hnot
    · rw [Function.update_of_ne hml] at hu
      exact fun hin => h.apart l m s u hs hu (Ne.symm hml) a ha hin
  have hadd : ∀ mem₂ : Memory, mem₂.kind = mem₁.kind → Addable mem₂
      (Function.update seqs l (some { s with items := s.items.erase a })) s.type (some a)
      0 := by
    intro mem₂ hk
    refine ⟨?_, hfree⟩
    rw [hk, hkind rfl]
    exact hshape.live a ha
  have hmove : listMoveItem mem (some l) (some a) predeccessor = (do
      if predeccessor = none then
        let (mem, first) ← listGetFirst mem₁ (some l)
        let (mem, _) ← listAddInfrontof mem (some l) first (some a) 0
        return (mem, 0)
      else
        let (mem, _) ← listAddInbackof mem₁ (some l) predeccessor (some a) 0
        return (mem, 0) : Run (Memory × ℤ)) := by
    rw [listMoveItem, if_neg (Option.some_ne_none a), hremove]
    rfl
  cases predeccessor with
  | none =>
      obtain ⟨list₁, hlist₁, hshape₁⟩ := h₁.shape l _ hs₁
      have h₂ := h₁.setCurrent hlist₁ list₁.first
      have hget : listGetFirst mem₁ (some l) =
          .ok (mem₁.setList l { list₁ with current := list₁.first }, list₁.first) := by
        rw [listGetFirst, hlist₁]
        rfl
      have hmember : ∀ b, list₁.first = some b → b ∈ s.items.erase a := by
        intro b hb
        rw [hshape₁.first] at hb
        exact List.mem_of_head? hb
      obtain ⟨mem', hadded, href⟩ := listAddInfrontof_refines h₂ hs₁ hmember (hadd _ rfl)
      refine ⟨mem', ?_, ?_⟩
      · rw [hmove, if_pos rfl, hget]
        show (do
          let (mem, _) ← listAddInfrontof _ (some l) list₁.first (some a) 0
          return (mem, 0) : Run (Memory × ℤ)) = _
        rw [hadded]
        rfl
      · rw [Function.update_idem] at href
        rw [hshape₁.first] at href
        simp only [addInfrontof_head] at href
        exact href
  | some b =>
      have hmember : ∀ c, some b = some c → c ∈ s.items.erase a := by
        rintro c hc
        obtain ⟨hin, hne⟩ := hpred c hc
        exact hshape.nodup.mem_erase_iff.mpr ⟨hne, hin⟩
      obtain ⟨mem', hadded, href⟩ := listAddInbackof_refines h₁ hs₁ hmember (hadd _ rfl)
      refine ⟨mem', ?_, ?_⟩
      · rw [hmove, if_neg (Option.some_ne_none b), hadded]
        rfl
      · rwa [Function.update_idem] at href

/-! ## Replacing an item -/

/-- What `list_repleace_item` writes when it does not refuse. -/
theorem listRepleaceItem_eq {old : ℕ} (hlist : mem.list l = some list) (hne : old ≠ new)
    (hnewSucc : mem.successor new = none) (hnewPred : mem.predeccessor new = none)
    (hold : mem.kind old = some list.type) (hnew : mem.kind new = some list.type)
    (hpred : Live mem.kind (mem.predeccessor old) list.type)
    (hsucc : Live mem.kind (mem.successor old) list.type)
    (hsuccNew : mem.successor old ≠ some new) :
    listRepleaceItem mem (some l) (some old) (some new) false =
      .ok ({ kind := mem.kind
             successor := redirect (redirect (redirect mem.successor (some new)
               (mem.successor old)) (mem.predeccessor old) (some new)) (some old) none
             predeccessor := redirect (redirect (redirect mem.predeccessor (some new)
               (mem.predeccessor old)) (mem.successor old) (some new)) (some old) none
             list := Function.update mem.list l (some
               { list with
                 first := if mem.predeccessor old = none then some new else list.first
                 last := if mem.successor old = none then some new else list.last }) }, 0) := by
  have hsuccRead : ∀ f : ℕ → Option ℕ, redirect f (some new) (mem.successor old) new =
      mem.successor old := fun f => if_pos rfl
  have hpredRead : redirect (redirect mem.predeccessor (some new) (mem.predeccessor old))
      (mem.successor old) (some new) new = mem.predeccessor old := by
    rw [redirect_of_ne hsuccNew, redirect_self]
  simp [listRepleaceItem, hne, hlist, deref, getSuccessor, getPredeccessor, hnew, hold, hnewSucc,
    hnewPred, setSuccessor_ok, setPredeccessor_ok, hpred, hsucc, hsuccRead, hpredRead,
    Memory.setList, bind, Except.bind, pure, Except.pure]

/-- A member of a longer list has a link. -/
theorem Shape.linked (h : Shape mem list s) (ha : a ∈ s.items) (hsole : s.items ≠ [a]) :
    mem.successor a ≠ none ∨ mem.predeccessor a ≠ none := by
  obtain ⟨pre, post, hsplit⟩ := List.append_of_mem ha
  obtain ⟨hpred, hsucc⟩ := h.links pre a post hsplit
  rw [hpred, hsucc]
  by_contra hnone
  rw [not_or, not_not, not_not, List.head?_eq_none_iff, List.getLast?_eq_none_iff] at hnone
  apply hsole
  rw [hsplit, hnone.1, hnone.2]
  rfl

/-- `list_repleace_item` refuses an item that has links. -/
theorem listRepleaceItem_refused {old : ℕ} (hlist : mem.list l = some list) (hne : old ≠ new)
    (hnew : mem.kind new = some list.type)
    (hlinked : mem.successor new ≠ none ∨ mem.predeccessor new ≠ none) :
    listRepleaceItem mem (some l) (some old) (some new) false = .ok (mem, 1) := by
  simp [listRepleaceItem, hne, hlist, deref, getSuccessor, getPredeccessor, hnew, hlinked,
    bind, Except.bind, pure, Except.pure]

/-- A free item takes the place of a member, which loses its links. -/
theorem Refines.replace (h : Refines mem seqs) (as bs : List ℕ) {old : ℕ}
    (hs : seqs l = some { type := t, items := as ++ old :: bs }) (hfree : Free seqs new)
    (hlive : mem.kind new = some t)
    (hlist : mem'.list = Function.update mem.list l (some list'))
    (hkind : mem'.kind = mem.kind) (htype : list'.type = t)
    (hnum : list'.numItems = ((as ++ old :: bs).length : ℤ))
    (hfirst : list'.first = (as ++ new :: bs).head?)
    (hlast : list'.last = (as ++ new :: bs).getLast?)
    (hsucc : mem'.successor = redirect (redirect (redirect mem.successor (some new) bs.head?)
      as.getLast? (some new)) (some old) none)
    (hpred : mem'.predeccessor = redirect (redirect (redirect mem.predeccessor (some new)
      as.getLast?) bs.head? (some new)) (some old) none) :
    Refines mem' (Function.update seqs l (some { type := t, items := as ++ new :: bs })) := by
  obtain ⟨list, -, hshape⟩ := h.shape l _ hs
  have hnodup := hshape.nodup
  simp only at hnodup
  rw [List.nodup_middle, List.nodup_cons] at hnodup
  obtain ⟨hold, hnodup⟩ := hnodup
  have hnewNot : new ∉ as ++ old :: bs := hfree l _ hs
  simp only [List.mem_append, List.mem_cons, not_or] at hold hnewNot
  have hlastNew : as.getLast? ≠ some new := fun heq => hnewNot.1 (List.mem_of_getLast? heq)
  have hheadNew : bs.head? ≠ some new := fun heq => hnewNot.2.2 (List.mem_of_head? heq)
  have holdNew : some old ≠ some new := fun heq => hnewNot.2.1 (Option.some.inj heq).symm
  have hne : ∀ b ∈ as ++ bs, some old ≠ some b ∧ some new ≠ some b := by
    intro b hb
    rw [List.mem_append] at hb
    constructor
    · rintro heq
      rw [← Option.some.inj heq] at hb
      tauto
    · rintro heq
      rw [← Option.some.inj heq] at hb
      tauto
  -- the parts in front of the old item and behind it are closed around the new one
  obtain ⟨has, -, -, hbs⟩ := segment_append.mp hshape.segment
  have hseg : Segment mem'.successor mem'.predeccessor none (as ++ ([new] ++ bs)) none := by
    apply has.splice hbs hnodup
    · refine ⟨?_, ?_, trivial⟩
      · rw [hpred, redirect_of_ne holdNew, redirect_of_ne hheadNew, redirect_self]
      · rw [hsucc, redirect_of_ne holdNew, redirect_of_ne hlastNew, redirect_self]
        rfl
    · intro b hb
      rw [hsucc, redirect_of_ne (hne b hb).1, redirect, redirect_of_ne (hne b hb).2]
      rfl
    · intro b hb
      rw [hpred, redirect_of_ne (hne b hb).1, redirect, redirect_of_ne (hne b hb).2,
        List.getLast?_concat]
      rfl
  -- the list has its new shape, the new item was free, and the old one is free now
  apply h.change hs hlist
  · refine ⟨htype, ?_, hfirst, hlast, ?_, ?_, links_of_segment hseg⟩
    · rw [hnum]
      simp only [List.length_append, List.length_cons]
    · simp only
      rw [List.nodup_middle, List.nodup_cons, List.mem_append, not_or]
      exact ⟨⟨hnewNot.1, hnewNot.2.2⟩, hnodup⟩
    · intro b hb
      rw [hkind]
      rcases List.mem_append.mp hb with hb | hb
      · exact hshape.live b (List.mem_append_left _ hb)
      · rcases List.mem_cons.mp hb with rfl | hb
        · exact hlive
        · exact hshape.live b (List.mem_append_right _ (List.mem_cons_of_mem _ hb))
  · intro b _
    rw [hkind]
  · intro b hout hin
    simp only [List.mem_append, List.mem_cons, not_or] at hout hin
    have hnewb : some new ≠ some b := fun heq => hin.2.1 (Option.some.inj heq).symm
    have holdb : some old ≠ some b := fun heq => hout.2.1 (Option.some.inj heq).symm
    constructor
    · rw [hsucc, redirect_of_ne holdb, redirect_of_ne, redirect_of_ne hnewb]
      exact fun heq => hout.1 (List.mem_of_getLast? heq)
    · rw [hpred, redirect_of_ne holdb, redirect_of_ne, redirect_of_ne hnewb]
      exact fun heq => hout.2.2 (List.mem_of_head? heq)
  · intro b hin hout
    simp only [List.mem_append, List.mem_cons, not_or] at hin hout
    have hb : b = new := by tauto
    rw [hb]
    exact hfree
  · intro b hin hout _
    simp only [List.mem_append, List.mem_cons, not_or] at hin hout
    have hb : b = old := by tauto
    rw [hb, hsucc, hpred, redirect_self, redirect_self]
    exact ⟨rfl, rfl⟩

/-- A free item takes the place of a member. -/
theorem listRepleaceItem_refines (h : Refines mem seqs) (hs : seqs l = some s) {old : ℕ}
    (hold : old ∈ s.items) (hlive : mem.kind new = some s.type) (hfree : Free seqs new) :
    ∃ mem', listRepleaceItem mem (some l) (some old) (some new) false = .ok (mem', 0) ∧
      Refines mem'
        (Function.update seqs l (some { s with items := s.items.replace old new })) := by
  obtain ⟨list, hlist, hshape⟩ := h.shape l _ hs
  obtain ⟨as, bs, hsplit⟩ := List.append_of_mem hold
  obtain ⟨type, items⟩ := s
  simp only at hsplit
  subst hsplit
  obtain ⟨hpred, hsucc⟩ := hshape.links as old bs rfl
  obtain ⟨hlast, -⟩ := hshape.live_ends rfl
  have hsplit : as ++ old :: bs = (as ++ [old]) ++ bs := by simp
  obtain ⟨-, hfirst⟩ := hshape.live_ends hsplit
  have htype : list.type = type := hshape.type
  have hnodup := hshape.nodup
  simp only at hnodup
  rw [List.nodup_middle, List.nodup_cons, List.mem_append, not_or] at hnodup
  have hnewNot : new ∉ as ++ old :: bs := hfree l _ hs
  simp only [List.mem_append, List.mem_cons, not_or] at hnewNot
  have hne : old ≠ new := fun heq => hnewNot.2.1 heq.symm
  obtain ⟨hnewSucc, hnewPred⟩ := h.loose new (by rw [hlive]; exact Option.some_ne_none _) hfree
  have hreplace : (as ++ old :: bs).replace old new = as ++ new :: bs := by
    rw [List.replace_append_right hnodup.1.1, List.replace_cons_self]
  -- the tests made before anything is written, and then the new segment
  refine ⟨_, listRepleaceItem_eq hlist hne hnewSucc hnewPred ?_ ?_ ?_ ?_ ?_, ?_⟩
  · rw [htype]
    exact hshape.live old hold
  · rw [htype]
    exact hlive
  · rw [htype, hpred]
    exact hlast
  · rw [htype, hsucc]
    exact hfirst
  · rw [hsucc]
    exact fun heq => hnewNot.2.2 (List.mem_of_head? heq)
  · simp only [hreplace, hpred, hsucc]
    refine h.replace as bs hs hfree hlive rfl rfl htype hshape.numItems ?_ ?_ rfl rfl
    · show (if as.getLast? = none then some new else list.first) = _
      rw [hshape.first]
      cases as with
      | nil => rfl
      | cons c as => simp [List.getLast?_cons]
    · show (if bs.head? = none then some new else list.last) = _
      rw [hshape.last]
      cases bs with
      | nil => simp
      | cons b bs => simp [List.getLast?_append, List.getLast?_cons]

/-! ## Joining two lists -/

/-- The lists `l` and `m` become one, and `m` is freed. -/
theorem Refines.concat (h : Refines mem seqs) {m : ℕ} {xs ys : List ℕ} (hlm : l ≠ m)
    (hs : seqs l = some { type := t, items := xs }) (hu : seqs m = some { type := t, items := ys })
    (hlist : mem'.list = Function.update (Function.update mem.list l (some list')) m none)
    (hkind : mem'.kind = mem.kind) (htype : list'.type = t)
    (hnum : list'.numItems = ((xs.length : ℤ) + ys.length))
    (hfirst : list'.first = (xs ++ ys).head?) (hlast : list'.last = (xs ++ ys).getLast?)
    (hsucc : mem'.successor = if ys = [] then mem.successor
      else redirect mem.successor xs.getLast? ys.head?)
    (hpred : mem'.predeccessor = if xs = [] then mem.predeccessor
      else redirect mem.predeccessor ys.head? xs.getLast?) :
    Refines mem' (Function.update (Function.update seqs l
      (some { type := t, items := xs ++ ys })) m none) := by
  obtain ⟨list₁, -, hxs⟩ := h.shape l _ hs
  obtain ⟨list₂, -, hys⟩ := h.shape m _ hu
  have hapart : ∀ a ∈ xs, a ∉ ys := h.apart l m _ _ hs hu hlm
  have hnodup : (xs ++ ys).Nodup := by
    rw [List.nodup_append]
    refine ⟨hxs.nodup, hys.nodup, ?_⟩
    rintro a ha b hb rfl
    exact hapart a ha hb
  -- where one list is empty nothing is written, and nothing had to be
  have hsucc' : ∀ a ∈ xs ++ ys,
      mem'.successor a = redirect mem.successor xs.getLast? ys.head? a := by
    intro a _
    rw [hsucc]
    split
    · rename_i hnil
      rw [redirect]
      split
      · rename_i hlast
        obtain ⟨pre, hsplit⟩ := List.getLast?_eq_some_iff.mp hlast
        rw [(hxs.links pre a [] hsplit).2, hnil]
      · rfl
    · rfl
  have hpred' : ∀ a ∈ xs ++ ys,
      mem'.predeccessor a = redirect mem.predeccessor ys.head? xs.getLast? a := by
    intro a _
    rw [hpred]
    split
    · rename_i hnil
      rw [redirect]
      split
      · rename_i hhead
        obtain ⟨post, hsplit⟩ := List.head?_eq_some_iff.mp hhead
        rw [(hys.links [] a post hsplit).1, hnil]
      · rfl
    · rfl
  have hmiddle : Segment mem'.successor mem'.predeccessor xs.getLast? [] ys.head? := trivial
  have hseg : Segment mem'.successor mem'.predeccessor none (xs ++ ([] ++ ys)) none := by
    apply hxs.segment.splice hys.segment hnodup hmiddle hsucc'
    intro a ha
    rw [hpred' a ha, List.append_nil]
  -- an item of a third list, or of none, keeps its links
  have hkeep : ∀ a, a ∉ xs → a ∉ ys →
      mem'.successor a = mem.successor a ∧ mem'.predeccessor a = mem.predeccessor a := by
    intro a hax hay
    constructor
    · rw [hsucc]
      split
      · rfl
      · exact redirect_of_ne fun heq => hax (List.mem_of_getLast? heq)
    · rw [hpred]
      split
      · rfl
      · exact redirect_of_ne fun heq => hay (List.mem_of_head? heq)
  have hother : ∀ k u, seqs k = some u → k ≠ l → k ≠ m → ∀ a ∈ u.items, a ∉ xs ∧ a ∉ ys := by
    intro k u hk hkl hkm a ha
    exact ⟨h.apart k l u _ hk hs hkl a ha, h.apart k m u _ hk hu hkm a ha⟩
  -- the three cases of a list after the change
  have hcases : ∀ k u, Function.update (Function.update seqs l
      (some { type := t, items := xs ++ ys })) m none k = some u →
      (k = l ∧ u = { type := t, items := xs ++ ys }) ∨ (k ≠ l ∧ k ≠ m ∧ seqs k = some u) := by
    intro k u hk
    by_cases hkm : k = m
    · rw [hkm, Function.update_self] at hk
      cases hk
    · rw [Function.update_of_ne hkm] at hk
      by_cases hkl : k = l
      · rw [hkl, Function.update_self, Option.some.injEq] at hk
        exact Or.inl ⟨hkl, hk.symm⟩
      · rw [Function.update_of_ne hkl] at hk
        exact Or.inr ⟨hkl, hkm, hk⟩
  constructor
  case dead =>
    intro k hk
    rw [hlist]
    by_cases hkm : k = m
    · rw [hkm, Function.update_self]
    · rw [Function.update_of_ne hkm] at hk ⊢
      by_cases hkl : k = l
      · rw [hkl, Function.update_self] at hk
        cases hk
      · rw [Function.update_of_ne hkl] at hk ⊢
        exact h.dead k hk
  case shape =>
    intro k u hk
    rcases hcases k u hk with ⟨rfl, rfl⟩ | ⟨hkl, hkm, hk⟩
    · refine ⟨list', ?_, htype, ?_, hfirst, hlast, hnodup, ?_, links_of_segment hseg⟩
      · rw [hlist, Function.update_of_ne hlm, Function.update_self]
      · rw [hnum, List.length_append]
        push_cast
        rfl
      · intro a ha
        rw [hkind]
        rcases List.mem_append.mp ha with ha | ha
        · exact hxs.live a ha
        · exact hys.live a ha
    · obtain ⟨list₃, hlist₃, hshape⟩ := h.shape k u hk
      refine ⟨list₃, ?_, hshape.type, hshape.numItems, hshape.first, hshape.last, hshape.nodup,
        ?_, ?_⟩
      · rw [hlist, Function.update_of_ne hkm, Function.update_of_ne hkl, hlist₃]
      · intro a ha
        rw [hkind, hshape.live a ha]
      · intro pre a post hsplit
        obtain ⟨hax, hay⟩ := hother k u hk hkl hkm a (by simp [hsplit])
        rw [(hkeep a hax hay).1, (hkeep a hax hay).2]
        exact hshape.links pre a post hsplit
  case apart =>
    intro j k u v hj hk hne a ha hav
    rcases hcases j u hj with ⟨rfl, rfl⟩ | ⟨hjl, hjm, hju⟩
    · rcases hcases k v hk with ⟨rfl, rfl⟩ | ⟨hkl, hkm, hkv⟩
      · exact hne rfl
      · obtain ⟨hax, hay⟩ := hother k v hkv hkl hkm a hav
        rcases List.mem_append.mp ha with ha | ha
        · exact hax ha
        · exact hay ha
    · rcases hcases k v hk with ⟨rfl, rfl⟩ | ⟨hkl, hkm, hkv⟩
      · obtain ⟨hax, hay⟩ := hother j u hju hjl hjm a ha
        rcases List.mem_append.mp hav with hav | hav
        · exact hax hav
        · exact hay hav
      · exact h.apart j k u v hju hkv hne a ha hav
  case loose =>
    intro a ha hfree
    have hnot : a ∉ xs ++ ys :=
      hfree l { type := t, items := xs ++ ys }
        (by rw [Function.update_of_ne hlm, Function.update_self])
    rw [List.mem_append, not_or] at hnot
    rw [(hkeep a hnot.1 hnot.2).1, (hkeep a hnot.1 hnot.2).2]
    apply h.loose a (by rwa [hkind] at ha)
    intro k u hk
    by_cases hkl : k = l
    · rw [hkl, hs, Option.some.injEq] at hk
      rw [← hk]
      exact hnot.1
    · by_cases hkm : k = m
      · rw [hkm, hu, Option.some.injEq] at hk
        rw [← hk]
        exact hnot.2
      · exact hfree k u (by rw [Function.update_of_ne hkm, Function.update_of_ne hkl, hk])

/-- `list_append` of another list of the same type. -/
theorem listAppend_refines (h : Refines mem seqs) {m : ℕ} {u : Sequence} (hlm : l ≠ m)
    (hs : seqs l = some s) (hu : seqs m = some u) (htype : s.type = u.type) :
    ∃ mem', listAppend mem (some l) (some m) = .ok (mem', 0) ∧
      Refines mem' (Function.update (Function.update seqs l
        (some { s with items := s.items ++ u.items })) m none) := by
  obtain ⟨list, hlist, hshape⟩ := h.shape l _ hs
  obtain ⟨other, hother, hshape'⟩ := h.shape m _ hu
  obtain ⟨t, xs⟩ := s
  obtain ⟨t', ys⟩ := u
  simp only at htype
  subst htype
  -- the links that are written are those of live items of this type
  have hlive : Live mem.kind list.last list.type := by
    intro a ha
    rw [hshape.last] at ha
    rw [hshape.type]
    exact hshape.live a (List.mem_of_getLast? ha)
  have hlive' : Live mem.kind other.first list.type := by
    intro a ha
    rw [hshape'.first] at ha
    rw [hshape.type]
    exact hshape'.live a (List.mem_of_head? ha)
  have heq : list.type = other.type := by
    rw [hshape.type, hshape'.type]
  have hnum : list.numItems = xs.length := hshape.numItems
  have hnum' : other.numItems = ys.length := hshape'.numItems
  have hlast : list.last = xs.getLast? := hshape.last
  have hfirst : list.first = xs.head? := hshape.first
  have hlast' : other.last = ys.getLast? := hshape'.last
  have hfirst' : other.first = ys.head? := hshape'.first
  simp only [listAppend, hlist, hother, deref, bind, Except.bind, if_neg (not_not.mpr heq)]
  -- which of the two lists is empty decides about the links that are written
  by_cases hxs : xs = []
  · subst hxs
    rw [if_neg (by rw [hnum]; simp), if_pos (by rw [hnum]; rfl)]
    refine ⟨_, rfl, h.concat hlm hs hu rfl rfl hshape.type ?_ ?_ ?_ ?_ rfl⟩
    · show list.numItems + other.numItems = _
      rw [hnum, hnum']
    · exact hfirst'
    · exact hlast'
    · simp only [List.getLast?_nil, redirect_none, ite_self]
      rfl
  · have hpos : 0 < xs.length := List.length_pos_iff.mpr hxs
    by_cases hys : ys = []
    · subst hys
      rw [if_neg (by rw [hnum']; simp), if_neg (by omega)]
      refine ⟨_, rfl, h.concat hlm hs hu ?_ rfl hshape.type ?_ ?_ ?_ rfl ?_⟩
      · show Function.update mem.list m none = _
        rw [← hlist, Function.update_eq_self]
      · rw [hnum]
        simp
      · rw [hfirst, List.append_nil]
      · rw [hlast, List.append_nil]
      · simp only [List.head?_nil, redirect_none, ite_self]
        rfl
    · have hpos' : 0 < ys.length := List.length_pos_iff.mpr hys
      rw [if_pos (by omega)]
      simp only [setSuccessor_ok hlive, setPredeccessor_ok, hlive']
      refine ⟨_, rfl, h.concat hlm hs hu rfl rfl hshape.type ?_ ?_ ?_ ?_ ?_⟩
      · show list.numItems + other.numItems = _
        rw [hnum, hnum']
      · show list.first = _
        rw [hfirst, List.head?_append_of_ne_nil _ hxs]
      · show other.last = _
        rw [hlast', List.getLast?_append_of_ne_nil _ hys]
      · rw [if_neg hys, ← hlast, ← hfirst']
        rfl
      · rw [if_neg hxs, ← hlast, ← hfirst']
        rfl

/-! ## Reading an item -/

/-- The loop of `list_get_item` is a walk along the links, as long as it stays on live items. -/
theorem walkItems_eq {step : Option ℕ → Run (Option ℕ)} {next : ℕ → Option ℕ}
    (items : List ℕ) (hnone : step none = .ok none)
    (hstep : ∀ a ∈ items, step (some a) = .ok (next a))
    (hnext : ∀ a ∈ items, ∀ b, next a = some b → b ∈ items) (k : ℕ) :
    ∀ item, (∀ a, item = some a → a ∈ items) → walkItems step k item = .ok (walk next k item) := by
  induction k with
  | zero =>
      intro item _
      rfl
  | succ k ih =>
      intro item hitem
      have hone : step item = .ok (item.bind next) := by
        cases item with
        | none => exact hnone
        | some a => exact hstep a (hitem a rfl)
      have hin : ∀ b, item.bind next = some b → b ∈ items := by
        intro b hb
        cases item with
        | none => cases hb
        | some a => exact hnext a (hitem a rfl) b hb
      rw [walkItems, hone, walk_succ]
      exact ih _ hin

/-- `list_get_item`: the item at the position, from whichever end it is walked to. -/
theorem listGetItem_spec (h : Refines mem seqs) (hs : seqs l = some s) (position : ℤ) :
    ∃ mem', listGetItem mem (some l) position =
        .ok (mem', if 0 ≤ position then s.items[position.toNat]? else none) ∧
      Refines mem' seqs := by
  obtain ⟨list, hlist, hshape⟩ := h.shape l _ hs
  have hseg := hshape.segment
  have hlen : list.numItems = s.items.length := hshape.numItems
  simp only [listGetItem, hlist, deref, bind, Except.bind]
  split
  · rename_i hout
    refine ⟨mem, ?_, h⟩
    split
    · rw [List.getElem?_eq_none (by omega)]
      rfl
    · rfl
  · rename_i hin
    rw [not_or, not_le, not_lt] at hin
    rw [if_pos hin.2]
    split
    · -- the position is in the second half: from the last item backwards
      have hwalk : walkItems (fun item => getPredeccessor mem item list.type)
          (list.numItems - position - 1).toNat list.last =
          .ok (walk mem.predeccessor (list.numItems - position - 1).toNat list.last) := by
        apply walkItems_eq s.items
        · rfl
        · intro a ha
          rw [getPredeccessor, hshape.type, if_pos (hshape.live a ha)]
        · intro a ha b hb
          obtain ⟨pre, post, hsplit⟩ := List.append_of_mem ha
          rw [(hshape.links pre a post hsplit).1] at hb
          rw [hsplit]
          exact List.mem_append_left _ (List.mem_of_getLast? hb)
        · intro a ha
          rw [hshape.last] at ha
          exact List.mem_of_getLast? ha
      have hread : walk mem.predeccessor (list.numItems - position - 1).toNat list.last =
          s.items[position.toNat]? := by
        rw [hshape.last, hseg.walkBack, List.getElem?_reverse (by omega)]
        congr 1
        omega
      rw [hwalk, hread]
      exact ⟨_, rfl, h.setCurrent hlist _⟩
    · have hwalk : walkItems (fun item => getSuccessor mem item list.type) position.toNat
          list.first = .ok (walk mem.successor position.toNat list.first) := by
        apply walkItems_eq s.items
        · rfl
        · intro a ha
          rw [getSuccessor, hshape.type, if_pos (hshape.live a ha)]
        · intro a ha b hb
          obtain ⟨pre, post, hsplit⟩ := List.append_of_mem ha
          rw [(hshape.links pre a post hsplit).2] at hb
          rw [hsplit]
          exact List.mem_append_right _ (List.mem_cons_of_mem _ (List.mem_of_head? hb))
        · intro a ha
          rw [hshape.first] at ha
          exact List.mem_of_head? ha
      have hread : walk mem.successor position.toNat list.first = s.items[position.toNat]? := by
        rw [hshape.first, hseg.walk]
      rw [hwalk, hread]
      exact ⟨_, rfl, h.setCurrent hlist _⟩

/-! ## Runs of operations -/

/-- One operation on the lists; what `malloc` returns is part of it. -/
inductive Op : Type where
  | createList (list : ℕ) (type : ListType) : Op
  | createItem (item : ℕ) (type : ListType) : Op
  | addBegin (list : ℕ) (item : Option ℕ) (fresh : ℕ) : Op
  | addEnd (list : ℕ) (item : Option ℕ) (fresh : ℕ) : Op
  | addInfrontof (list : ℕ) (next item : Option ℕ) (fresh : ℕ) : Op
  | addInbackof (list : ℕ) (previous item : Option ℕ) (fresh : ℕ) : Op
  | removeItem (list item : ℕ) (setFree : Bool) : Op
  | moveItem (list item : ℕ) (predeccessor : Option ℕ) : Op
  | repleaceItem (list old new : ℕ) : Op
  | append (list other : ℕ) : Op
  | getItem (list : ℕ) (position : ℤ) : Op

/-- Carry an operation out. -/
def Op.exec (mem : Memory) : Op → Run Memory
  | .createList l t => .ok (listCreate mem l t)
  | .createItem a t => .ok (mem.createItem a t)
  | .addBegin l item fresh => Prod.fst <$> listAddBegin mem (some l) item fresh
  | .addEnd l item fresh => Prod.fst <$> listAddEnd mem (some l) item fresh
  | .addInfrontof l next item fresh => Prod.fst <$> listAddInfrontof mem (some l) next item fresh
  | .addInbackof l previous item fresh =>
      Prod.fst <$> listAddInbackof mem (some l) previous item fresh
  | .removeItem l a setFree => Prod.fst <$> listRemoveItem mem (some l) (some a) setFree
  | .moveItem l a predeccessor => Prod.fst <$> listMoveItem mem (some l) (some a) predeccessor
  | .repleaceItem l old new =>
      Prod.fst <$> listRepleaceItem mem (some l) (some old) (some new) false
  | .append l m => Prod.fst <$> listAppend mem (some l) (some m)
  | .getItem l position => Prod.fst <$> listGetItem mem (some l) position

/-- Change the sequence of one list. -/
def Sequences.modify (seqs : Sequences) (l : ℕ) (f : List ℕ → List ℕ) : Sequences :=
  Function.update seqs l ((seqs l).map fun s => { s with items := f s.items })

open Classical in
/-- What an operation says about the sequences. -/
noncomputable def Op.change (seqs : Sequences) : Op → Sequences
  | .createList l t => Function.update seqs l (some { type := t, items := [] })
  | .createItem _ _ => seqs
  | .addBegin l item fresh => seqs.modify l (item.getD fresh :: ·)
  | .addEnd l item fresh => seqs.modify l (· ++ [item.getD fresh])
  | .addInfrontof l next item fresh =>
      seqs.modify l (ListOperations.addInfrontof next (item.getD fresh))
  | .addInbackof l previous item fresh =>
      seqs.modify l (ListOperations.addInbackof previous (item.getD fresh))
  | .removeItem l a _ => seqs.modify l (·.erase a)
  | .moveItem l a predeccessor => seqs.modify l (ListOperations.moveItem a predeccessor)
  | .repleaceItem l old new =>
      -- an item that is in a list already is refused
      if Free seqs new then seqs.modify l (·.replace old new) else seqs
  | .append l m =>
      match seqs l, seqs m with
      | some s, some u =>
          if s.type = u.type then Function.update (seqs.modify l (· ++ u.items)) m none else seqs
      | _, _ => seqs
  | .getItem _ _ => seqs

/-- What the callers owe: live lists and members where the operation needs them, new items that
are in no list, another list to append, and addresses from `malloc` that are not in use. -/
def Op.Legal (mem : Memory) (seqs : Sequences) : Op → Prop
  | .createList l _ => seqs l = none
  | .createItem a _ => mem.kind a = none
  | .addBegin l item fresh => ∃ s, seqs l = some s ∧ Addable mem seqs s.type item fresh
  | .addEnd l item fresh => ∃ s, seqs l = some s ∧ Addable mem seqs s.type item fresh
  | .addInfrontof l next item fresh => ∃ s, seqs l = some s ∧
      (∀ a, next = some a → a ∈ s.items) ∧ Addable mem seqs s.type item fresh
  | .addInbackof l previous item fresh => ∃ s, seqs l = some s ∧
      (∀ a, previous = some a → a ∈ s.items) ∧ Addable mem seqs s.type item fresh
  | .removeItem l a _ => ∃ s, seqs l = some s ∧ a ∈ s.items
  | .moveItem l a predeccessor => ∃ s, seqs l = some s ∧ a ∈ s.items ∧
      ∀ b, predeccessor = some b → b ∈ s.items ∧ b ≠ a
  | .repleaceItem l old new => ∃ s, seqs l = some s ∧ old ∈ s.items ∧
      mem.kind new = some s.type ∧ (old ≠ new → ∀ m u, seqs m = some u → u.items ≠ [new])
  | .append l m => l ≠ m ∧ (∃ s, seqs l = some s) ∧ ∃ u, seqs m = some u
  | .getItem l _ => ∃ s, seqs l = some s

/-- A run of operations. -/
def execAll (mem : Memory) : List Op → Run Memory
  | [] => .ok mem
  | op :: ops => do
      let mem ← op.exec mem
      execAll mem ops

/-- What a run of operations says about the sequences. -/
noncomputable def changeAll (seqs : Sequences) (ops : List Op) : Sequences :=
  ops.foldl Op.change seqs

/-- Every operation of the run is legal in the state it is carried out in. -/
def LegalRun (mem : Memory) (seqs : Sequences) : List Op → Prop
  | [] => True
  | op :: ops => op.Legal mem seqs ∧
      ∀ mem', op.exec mem = .ok mem' → LegalRun mem' (op.change seqs) ops

/-- The change of a live list. -/
theorem modify_of_some (hs : seqs l = some s) (f : List ℕ → List ℕ) :
    seqs.modify l f = Function.update seqs l (some { s with items := f s.items }) := by
  rw [Sequences.modify, hs]
  rfl

/-- The new list is empty. -/
theorem listCreate_refines (h : Refines mem seqs) (hl : seqs l = none) :
    Refines (listCreate mem l t) (Function.update seqs l (some { type := t, items := [] })) := by
  -- every list with an item was there before
  have hold : ∀ m u, Function.update seqs l (some { type := t, items := [] }) m = some u →
      u.items ≠ [] → seqs m = some u := by
    intro m u hu hne
    by_cases hml : m = l
    · rw [hml, Function.update_self, Option.some.injEq] at hu
      rw [← hu] at hne
      exact absurd rfl hne
    · rwa [Function.update_of_ne hml] at hu
  constructor
  case dead =>
    intro m hm
    show Function.update mem.list l _ m = none
    by_cases hml : m = l
    · rw [hml, Function.update_self] at hm
      cases hm
    · rw [Function.update_of_ne hml] at hm ⊢
      exact h.dead m hm
  case shape =>
    intro m u hu
    by_cases hml : m = l
    · rw [hml, Function.update_self, Option.some.injEq] at hu
      subst hu
      refine ⟨_, by rw [hml]; exact Function.update_self .., rfl, rfl, rfl, rfl, List.nodup_nil,
        by simp, ?_⟩
      intro pre a post hsplit
      simp at hsplit
    · rw [Function.update_of_ne hml] at hu
      obtain ⟨list₁, hlist, hshape⟩ := h.shape m u hu
      refine ⟨list₁, ?_, hshape.type, hshape.numItems, hshape.first, hshape.last, hshape.nodup,
        hshape.live, hshape.links⟩
      show Function.update mem.list l _ m = some list₁
      rw [Function.update_of_ne hml, hlist]
  case apart =>
    intro j k u v hu hv hne a ha hav
    have hj := hold j u hu (List.ne_nil_of_mem ha)
    have hk := hold k v hv (List.ne_nil_of_mem hav)
    exact h.apart j k u v hj hk hne a ha hav
  case loose =>
    intro a ha hfree
    apply h.loose a ha
    intro m u hu
    have hml : m ≠ l := by
      rintro rfl
      rw [hl] at hu
      cases hu
    exact hfree m u (by rw [Function.update_of_ne hml, hu])

/-- **One operation**: it is carried out, and the memory shows the sequences it says. -/
theorem exec_refines (h : Refines mem seqs) {op : Op} (hlegal : op.Legal mem seqs) :
    ∃ mem', op.exec mem = .ok mem' ∧ Refines mem' (op.change seqs) := by
  cases op with
  | createList l t => exact ⟨_, rfl, listCreate_refines h hlegal⟩
  | createItem a t => exact ⟨_, rfl, createItem_refines h hlegal⟩
  | addBegin l item fresh =>
      obtain ⟨s, hs, hadd⟩ := hlegal
      obtain ⟨mem', hexec, href⟩ := listAddBegin_refines h hs hadd
      refine ⟨mem', by rw [Op.exec, hexec]; rfl, ?_⟩
      rw [Op.change, modify_of_some hs]
      exact href
  | addEnd l item fresh =>
      obtain ⟨s, hs, hadd⟩ := hlegal
      obtain ⟨mem', hexec, href⟩ := listAddEnd_refines h hs hadd
      refine ⟨mem', by rw [Op.exec, hexec]; rfl, ?_⟩
      rw [Op.change, modify_of_some hs]
      exact href
  | addInfrontof l next item fresh =>
      obtain ⟨s, hs, hnext, hadd⟩ := hlegal
      obtain ⟨mem', hexec, href⟩ := listAddInfrontof_refines h hs hnext hadd
      refine ⟨mem', by rw [Op.exec, hexec]; rfl, ?_⟩
      rw [Op.change, modify_of_some hs]
      exact href
  | addInbackof l previous item fresh =>
      obtain ⟨s, hs, hprevious, hadd⟩ := hlegal
      obtain ⟨mem', hexec, href⟩ := listAddInbackof_refines h hs hprevious hadd
      refine ⟨mem', by rw [Op.exec, hexec]; rfl, ?_⟩
      rw [Op.change, modify_of_some hs]
      exact href
  | removeItem l a setFree =>
      obtain ⟨s, hs, ha⟩ := hlegal
      obtain ⟨mem', hexec, href, -⟩ := listRemoveItem_refines h hs ha setFree
      refine ⟨mem', by rw [Op.exec, hexec]; rfl, ?_⟩
      rw [Op.change, modify_of_some hs]
      exact href
  | moveItem l a predeccessor =>
      obtain ⟨s, hs, ha, hpred⟩ := hlegal
      obtain ⟨mem', hexec, href⟩ := listMoveItem_refines h hs ha hpred
      refine ⟨mem', by rw [Op.exec, hexec]; rfl, ?_⟩
      rw [Op.change, modify_of_some hs]
      exact href
  | repleaceItem l old new =>
      obtain ⟨s, hs, hold, hlive, hsole⟩ := hlegal
      by_cases hfree : Free seqs new
      · obtain ⟨mem', hexec, href⟩ := listRepleaceItem_refines h hs hold hlive hfree
        refine ⟨mem', by rw [Op.exec, hexec]; rfl, ?_⟩
        rw [Op.change, if_pos hfree, modify_of_some hs]
        exact href
      -- an item of one of the lists is refused: it is the old one, or its links are set
      · refine ⟨mem, ?_, by rw [Op.change, if_neg hfree]; exact h⟩
        by_cases hne : old = new
        · rw [Op.exec, listRepleaceItem, if_pos (by rw [hne])]
          rfl
        · simp only [Free, not_forall, not_not] at hfree
          obtain ⟨m, u, hu, hin⟩ := hfree
          obtain ⟨list, hlist, hshape⟩ := h.shape l s hs
          obtain ⟨other, -, hother⟩ := h.shape m u hu
          have hlinked := hother.linked hin (hsole hne m u hu)
          rw [Op.exec, listRepleaceItem_refused hlist hne (by rw [hshape.type, hlive]) hlinked]
          rfl
  | append l m =>
      obtain ⟨hlm, ⟨s, hs⟩, u, hu⟩ := hlegal
      simp only [Op.change, hs, hu]
      by_cases htype : s.type = u.type
      · obtain ⟨mem', hexec, href⟩ := listAppend_refines h hlm hs hu htype
        refine ⟨mem', by rw [Op.exec, hexec]; rfl, ?_⟩
        rw [if_pos htype, modify_of_some hs]
        exact href
      · obtain ⟨list, hlist, hshape⟩ := h.shape l s hs
        obtain ⟨other, hother, hshape'⟩ := h.shape m u hu
        refine ⟨mem, ?_, by rw [if_neg htype]; exact h⟩
        have hne : list.type ≠ other.type := by rwa [hshape.type, hshape'.type]
        simp only [Op.exec, listAppend, hlist, hother, deref, bind, Except.bind, if_pos hne]
        rfl
  | getItem l position =>
      obtain ⟨s, hs⟩ := hlegal
      obtain ⟨mem', hexec, href⟩ := listGetItem_spec h hs position
      exact ⟨mem', by rw [Op.exec, hexec]; rfl, href⟩

/-- **A run of operations** is carried out, and the memory shows the sequences it says. -/
theorem execAll_refines {ops : List Op} (h : Refines mem seqs) (hlegal : LegalRun mem seqs ops) :
    ∃ mem', execAll mem ops = .ok mem' ∧ Refines mem' (changeAll seqs ops) := by
  induction ops generalizing mem seqs with
  | nil => exact ⟨mem, rfl, h⟩
  | cons op ops ih =>
      obtain ⟨hop, hrest⟩ := hlegal
      obtain ⟨mem₁, hexec, h₁⟩ := exec_refines h hop
      obtain ⟨mem', hrun, href⟩ := ih h₁ (hrest mem₁ hexec)
      refine ⟨mem', ?_, href⟩
      rw [execAll, hexec]
      exact hrun

/-- There are no lists yet. -/
def noLists : Sequences := fun _ => none

/-- The empty memory shows no lists. -/
theorem empty_refines : Refines Memory.empty noLists := by
  constructor
  case dead =>
    intro l _
    rfl
  case shape =>
    intro l s hs
    cases hs
  case apart =>
    intro l m s u hs
    cases hs
  case loose =>
    intro a _ _
    exact ⟨rfl, rfl⟩

/-- **The lists of the plan are sequences**: after any run of operations whose callers keep to
what they owe, every list shows its sequence, with inverse links and no cycle, and
`list_get_item` reads it at every position. -/
theorem planLists_are_sequences (ops : List Op) (hlegal : LegalRun Memory.empty noLists ops) :
    ∃ mem, execAll Memory.empty ops = .ok mem ∧ Refines mem (changeAll noLists ops) ∧
      ∀ l s, changeAll noLists ops l = some s →
        (∀ a ∈ s.items, ∀ b ∈ s.items,
          (mem.successor a = some b ↔ mem.predeccessor b = some a)) ∧
        (∀ a ∈ s.items, ∀ k, 0 < k → walk mem.successor k (some a) ≠ some a) ∧
        ∀ position : ℤ, ∃ mem', listGetItem mem (some l) position =
          .ok (mem', if 0 ≤ position then s.items[position.toNat]? else none) := by
  obtain ⟨mem, hrun, href⟩ := execAll_refines empty_refines hlegal
  refine ⟨mem, hrun, href, ?_⟩
  intro l s hs
  obtain ⟨list, -, hshape⟩ := href.shape l s hs
  refine ⟨?_, ?_, ?_⟩
  · intro a ha b hb
    exact hshape.inverse ha hb
  · intro a ha k hk
    exact hshape.acyclic ha hk
  · intro position
    obtain ⟨mem', hget, -⟩ := listGetItem_spec href hs position
    exact ⟨mem', hget⟩

/-- Two jobs are added and moved, a third one replaces the first of them. -/
def threeJobs : List Op :=
  [.createList 0 .jobs, .addEnd 0 none 1, .addBegin 0 none 2, .moveItem 0 1 none,
    .createItem 3 .jobs, .repleaceItem 0 1 3]

/-- One list, at address 0. -/
def oneList (items : List ℕ) : Sequences :=
  Function.update noLists 0 (some { type := .jobs, items := items })

/-- The one list. -/
theorem oneList_zero (items : List ℕ) :
    oneList items 0 = some { type := .jobs, items := items } := Function.update_self ..

/-- Changing the one list. -/
theorem oneList_modify (items : List ℕ) (f : List ℕ → List ℕ) :
    (oneList items).modify 0 f = oneList (f items) := by
  rw [modify_of_some (oneList_zero items), oneList, Function.update_idem]
  rfl

/-- Every list is the one list. -/
theorem oneList_only {items : List ℕ} (hs : oneList items l = some s) : s.items = items := by
  by_cases hl : l = 0
  · rw [hl, oneList_zero, Option.some.injEq] at hs
    rw [← hs]
  · rw [oneList, Function.update_of_ne hl] at hs
    cases hs

/-- The sequences along the run of the three jobs. -/
theorem threeJobs_changes :
    Op.change noLists (.createList 0 .jobs) = oneList [] ∧
    Op.change (oneList []) (.addEnd 0 none 1) = oneList [1] ∧
    Op.change (oneList [1]) (.addBegin 0 none 2) = oneList [2, 1] ∧
    Op.change (oneList [2, 1]) (.moveItem 0 1 none) = oneList [1, 2] ∧
    Op.change (oneList [1, 2]) (.createItem 3 .jobs) = oneList [1, 2] ∧
    Op.change (oneList [1, 2]) (.repleaceItem 0 1 3) = oneList [3, 2] := by
  refine ⟨rfl, oneList_modify _ _, oneList_modify _ _, oneList_modify _ _, rfl, ?_⟩
  have hfree : Free (oneList [1, 2]) 3 := by
    intro l s hs
    rw [oneList_only hs]
    decide
  rw [Op.change, if_pos hfree]
  exact oneList_modify _ _

/-- A run is legal step by step. -/
theorem legalRun_cons {op : Op} {ops : List Op} {seqs' : Sequences} (hop : op.Legal mem seqs)
    (hexec : op.exec mem = .ok mem') (hchange : op.change seqs = seqs')
    (hrest : LegalRun mem' seqs' ops) : LegalRun mem seqs (op :: ops) := by
  refine ⟨hop, ?_⟩
  intro mem₁ hexec₁
  rw [hexec, Except.ok.injEq] at hexec₁
  rw [← hexec₁, hchange]
  exact hrest

/-- The run of the three jobs keeps to what the callers owe. -/
theorem threeJobs_legal : LegalRun Memory.empty noLists threeJobs := by
  obtain ⟨hcreate, hend, hbegin, hmove, hitem, hrepleace⟩ := threeJobs_changes
  refine legalRun_cons rfl rfl hcreate ?_
  refine legalRun_cons ⟨_, oneList_zero _, by decide, rfl⟩ rfl hend ?_
  refine legalRun_cons ⟨_, oneList_zero _, by decide, rfl⟩ rfl hbegin ?_
  refine legalRun_cons ⟨_, oneList_zero _, by decide, by simp⟩ rfl hmove ?_
  refine legalRun_cons rfl rfl hitem ?_
  refine legalRun_cons ⟨_, oneList_zero _, by decide, rfl, ?_⟩ rfl hrepleace trivial
  intro _ m u hu
  rw [oneList_only hu]
  decide

/-- The three jobs: after the run the list is `3, 2`, and each is read at its position. -/
theorem planLists_are_sequences_three :
    ∃ mem, execAll Memory.empty threeJobs = .ok mem ∧ Refines mem (oneList [3, 2]) ∧
      (∃ mem', listGetItem mem (some 0) 0 = .ok (mem', some 3)) ∧
      (∃ mem', listGetItem mem (some 0) 1 = .ok (mem', some 2)) ∧
      ∃ mem', listGetItem mem (some 0) 2 = .ok (mem', none) := by
  obtain ⟨hcreate, hend, hbegin, hmove, hitem, hrepleace⟩ := threeJobs_changes
  have hchange : changeAll noLists threeJobs = oneList [3, 2] := by
    simp only [changeAll, threeJobs, List.foldl_cons, List.foldl_nil, hcreate, hend, hbegin,
      hmove, hitem, hrepleace]
  obtain ⟨mem, hrun, href, hlists⟩ := planLists_are_sequences threeJobs threeJobs_legal
  rw [hchange] at href hlists
  obtain ⟨-, -, hget⟩ := hlists 0 _ (oneList_zero [3, 2])
  exact ⟨mem, hrun, href, hget 0, hget 1, hget 2⟩

/-- The sole item of a list has no links either: added a second time it becomes its own
successor, and the list shows no sequence any more. -/
theorem sole_item_added_twice :
    ∃ mem mem', execAll Memory.empty [.createList 0 .jobs, .addEnd 0 none 1] = .ok mem ∧
      Refines mem (oneList [1]) ∧ mem.successor 1 = none ∧ mem.predeccessor 1 = none ∧
      Op.exec mem (.addEnd 0 (some 1) 2) = .ok mem' ∧ mem'.successor 1 = some 1 ∧
      ∀ seqs, ¬ Refines mem' seqs := by
  obtain ⟨hcreate, hend, -⟩ := threeJobs_changes
  have hlegal : LegalRun Memory.empty noLists [.createList 0 .jobs, .addEnd 0 none 1] := by
    refine legalRun_cons rfl rfl hcreate ?_
    exact legalRun_cons ⟨_, oneList_zero _, by decide, rfl⟩ rfl hend trivial
  obtain ⟨mem, hrun, href⟩ := execAll_refines empty_refines hlegal
  have hchange : changeAll noLists [.createList 0 .jobs, .addEnd 0 none 1] = oneList [1] := by
    simp only [changeAll, List.foldl_cons, List.foldl_nil, hcreate, hend]
  rw [hchange] at href
  cases hrun
  refine ⟨_, _, rfl, href, rfl, rfl, rfl, rfl, ?_⟩
  intro seqs hbad
  cases hseqs : seqs 0 with
  | none => cases hbad.dead 0 hseqs
  | some s =>
      obtain ⟨list, hlist, hshape⟩ := hbad.shape 0 s hseqs
      cases hlist
      have hnum := hshape.numItems
      have hfirst := hshape.first
      have hlast := hshape.last
      have hnodup := hshape.nodup
      obtain ⟨type, items⟩ := s
      -- two items counted, and item 1 at both ends
      match items with
      | [] => cases hfirst
      | [_] => cases hnum
      | [a, b] =>
          cases hfirst
          cases hlast
          simp at hnodup
      | _ :: _ :: _ :: rest =>
          simp only [List.length_cons] at hnum
          have : ((2 : ℕ) : ℤ) = ((rest.length + 1 + 1 + 1 : ℕ) : ℤ) := hnum
          omega

end PlanSched.ListOperations
