/-
# Trees of siblings and children

A library for trees kept as two pointers a node, to the next sibling and to the first
child, that are searched depth first with the siblings before the children.  Nothing
here names the scheduler.

* `find` is the search, `modifyFirst` changes the node it finds, `addFirst` puts a new
  node before the children of that node;
* `find_modifyFirst_self`, `find_modifyFirst_ne`, `find_addFirst_self` and
  `find_addFirst_ne` say what a later search finds;
* `updateChild` changes what is below that node, `perm_updateChild` counts the nodes afterwards;
* `EveryFamily` relates every node to its children, `EveryFamily.updateChild` keeps the relation
  when the children of one node change, `EveryFamily.of_relabel` when nodes change otherwise;
* `toList` lists the nodes in the order of the search, `map` changes all of them, `relabel` reads
  a value off each.

Trust base: `[propext, Classical.choice, Quot.sound]`.
-/
import Mathlib

/-- A tree kept as pointers to siblings and children. -/
inductive SiblingTree (α : Type) : Type where
  | null : SiblingTree α
  | node (value : α) (sibling child : SiblingTree α) : SiblingTree α
  deriving DecidableEq, Repr

namespace SiblingTree

variable {α : Type} {p q : α → Bool} {f : α → α} {new : α}

/-! ## Searching and changing -/

/-- The first node that passes the test: the node itself, then its siblings, then its
children. -/
def find (p : α → Bool) : SiblingTree α → Option α
  | null => none
  | node a sibling child => if p a then some a else (sibling.find p).or (child.find p)

/-- Change the first node that passes the test. -/
def modifyFirst (p : α → Bool) (f : α → α) : SiblingTree α → SiblingTree α
  | null => null
  | node a sibling child =>
      if p a then node (f a) sibling child
      else if (sibling.find p).isSome then node a (sibling.modifyFirst p f) child
      else node a sibling (child.modifyFirst p f)

/-- Put a new node before the children of the first node that passes the test. -/
def addFirst (p : α → Bool) (new : α) : SiblingTree α → SiblingTree α
  | null => null
  | node a sibling child =>
      if p a then node a sibling (node new child null)
      else if (sibling.find p).isSome then node a (sibling.addFirst p new) child
      else node a sibling (child.addFirst p new)

/-- The nodes, in the order of the search. -/
def toList : SiblingTree α → List α
  | null => []
  | node a sibling child => a :: (sibling.toList ++ child.toList)

/-- Change every node. -/
def map (f : α → α) : SiblingTree α → SiblingTree α
  | null => null
  | node a sibling child => node (f a) (sibling.map f) (child.map f)

/-- What is found is a node of the tree. -/
theorem mem_of_find {t : SiblingTree α} {a : α} (h : t.find p = some a) : a ∈ t.toList := by
  induction t with
  | null => cases h
  | node b sibling child ihs ihc =>
      rw [find] at h
      rw [toList, List.mem_cons, List.mem_append]
      split at h
      · cases h
        exact Or.inl rfl
      · rcases Option.or_eq_some_iff.mp h with h | ⟨-, h⟩
        · exact Or.inr (Or.inl (ihs h))
        · exact Or.inr (Or.inr (ihc h))

/-! ## Changing the first node -/

/-- The changed node is found again. -/
theorem find_modifyFirst_self (hf : ∀ a, p a = true → p (f a) = true) (t : SiblingTree α) :
    (t.modifyFirst p f).find p = (t.find p).map f := by
  induction t with
  | null => rfl
  | node a sibling child ihs ihc =>
      rw [modifyFirst, find]
      by_cases ha : p a = true
      · rw [if_pos ha, if_pos ha, find, if_pos (hf a ha)]
        rfl
      · rw [if_neg ha, if_neg ha]
        cases hs : sibling.find p with
        | some b =>
            rw [if_pos Option.isSome_some, find, if_neg ha, ihs, hs]
            rfl
        | none =>
            rw [if_neg (by simp), find, if_neg ha, hs, Option.none_or, Option.none_or, ihc]

/-- A search for something else finds what it found before. -/
theorem find_modifyFirst_ne (hq : ∀ a, p a = true → q a = false ∧ q (f a) = false)
    (t : SiblingTree α) : (t.modifyFirst p f).find q = t.find q := by
  induction t with
  | null => rfl
  | node a sibling child ihs ihc =>
      rw [modifyFirst, find]
      by_cases ha : p a = true
      · obtain ⟨hold, hnew⟩ := hq a ha
        rw [if_pos ha, find, hold, hnew]
        rfl
      · rw [if_neg ha]
        split
        · rw [find, ihs]
        · rw [find, ihc]

/-- The nodes after one has been changed. -/
theorem mem_toList_modifyFirst {t : SiblingTree α} {b : α}
    (h : b ∈ (t.modifyFirst p f).toList) : b ∈ t.toList ∨ ∃ a ∈ t.toList, b = f a := by
  induction t with
  | null => cases h
  | node a sibling child ihs ihc =>
      rw [modifyFirst] at h
      simp only [toList, List.mem_cons, List.mem_append]
      split at h
      · simp only [toList, List.mem_cons, List.mem_append] at h
        rcases h with rfl | h
        · exact Or.inr ⟨a, Or.inl rfl, rfl⟩
        · exact Or.inl (Or.inr h)
      · split at h
        · simp only [toList, List.mem_cons, List.mem_append] at h
          rcases h with h | h | h
          · exact Or.inl (Or.inl h)
          · rcases ihs h with h | ⟨c, hc, rfl⟩
            · exact Or.inl (Or.inr (Or.inl h))
            · exact Or.inr ⟨c, Or.inr (Or.inl hc), rfl⟩
          · exact Or.inl (Or.inr (Or.inr h))
        · simp only [toList, List.mem_cons, List.mem_append] at h
          rcases h with h | h | h
          · exact Or.inl (Or.inl h)
          · exact Or.inl (Or.inr (Or.inl h))
          · rcases ihc h with h | ⟨c, hc, rfl⟩
            · exact Or.inl (Or.inr (Or.inr h))
            · exact Or.inr ⟨c, Or.inr (Or.inr hc), rfl⟩

/-! ## Adding a node -/

/-- A search that the new node fails finds what it found before. -/
theorem find_addFirst_ne (hq : q new = false) (t : SiblingTree α) :
    (t.addFirst p new).find q = t.find q := by
  induction t with
  | null => rfl
  | node a sibling child ihs ihc =>
      rw [addFirst]
      split
      · simp only [find, hq, Bool.false_eq_true, if_false, Option.or_none]
      · split
        · rw [find, find, ihs]
        · rw [find, find, ihc]

/-- A search that found nothing finds the new node. -/
theorem find_addFirst_self (hq : q new = true) {t : SiblingTree α} (hnone : t.find q = none)
    (hparent : (t.find p).isSome) : (t.addFirst p new).find q = some new := by
  induction t with
  | null => cases hparent
  | node a sibling child ihs ihc =>
      rw [find] at hnone hparent
      by_cases hqa : q a = true
      · rw [if_pos hqa] at hnone
        cases hnone
      · rw [if_neg hqa, Option.or_eq_none_iff] at hnone
        rw [addFirst]
        by_cases hpa : p a = true
        · rw [if_pos hpa, find, if_neg hqa, hnone.1, find, if_pos hq]
          rfl
        · rw [if_neg hpa] at hparent ⊢
          split
          · rename_i hs
            rw [find, if_neg hqa, ihs hnone.1 hs]
            rfl
          · rename_i hs
            have hc : (child.find p).isSome := by
              cases hsib : sibling.find p with
              | none => rwa [hsib, Option.none_or] at hparent
              | some b => exact absurd (by rw [hsib]; rfl) hs
            rw [find, if_neg hqa, hnone.1, ihc hnone.2 hc]
            rfl

/-- A search that found something still does. -/
theorem isSome_find_addFirst {t : SiblingTree α} (h : (t.find q).isSome) :
    ((t.addFirst p new).find q).isSome := by
  by_cases hq : q new = true
  · induction t with
    | null => cases h
    | node a sibling child ihs ihc =>
        rw [find] at h
        rw [addFirst]
        by_cases hqa : q a = true
        · split
          · rw [find, if_pos hqa]
            rfl
          · split <;> (rw [find, if_pos hqa]; rfl)
        · rw [if_neg hqa, Option.isSome_or, Bool.or_eq_true] at h
          split
          · rw [find, if_neg hqa, find, if_pos hq, Option.isSome_or]
            simp
          · split
            · rw [find, if_neg hqa, Option.isSome_or, Bool.or_eq_true]
              exact h.imp ihs id
            · rw [find, if_neg hqa, Option.isSome_or, Bool.or_eq_true]
              exact h.imp id ihc
  · rwa [find_addFirst_ne (by simpa using hq)]

/-- The nodes with a new one added. -/
theorem mem_toList_addFirst {t : SiblingTree α} {b : α} (h : b ∈ (t.addFirst p new).toList) :
    b ∈ t.toList ∨ b = new := by
  induction t with
  | null => cases h
  | node a sibling child ihs ihc =>
      rw [addFirst] at h
      simp only [toList, List.mem_cons, List.mem_append]
      split at h
      · simp only [toList, List.mem_cons, List.mem_append, List.not_mem_nil, or_false] at h
        tauto
      · split at h
        · simp only [toList, List.mem_cons, List.mem_append] at h
          rcases h with h | h | h
          · exact Or.inl (Or.inl h)
          · exact (ihs h).imp (fun h => Or.inr (Or.inl h)) id
          · exact Or.inl (Or.inr (Or.inr h))
        · simp only [toList, List.mem_cons, List.mem_append] at h
          rcases h with h | h | h
          · exact Or.inl (Or.inl h)
          · exact Or.inl (Or.inr (Or.inl h))
          · exact (ihc h).imp (fun h => Or.inr (Or.inr h)) id

/-- The nodes stay when one is added. -/
theorem mem_addFirst_of_mem {t : SiblingTree α} {b : α} (h : b ∈ t.toList) :
    b ∈ (t.addFirst p new).toList := by
  induction t with
  | null => cases h
  | node a sibling child ihs ihc =>
      simp only [toList, List.mem_cons, List.mem_append] at h
      rw [addFirst]
      split
      · simp only [toList, List.mem_cons, List.mem_append]
        tauto
      · split
        · simp only [toList, List.mem_cons, List.mem_append]
          rcases h with h | h | h
          · exact Or.inl h
          · exact Or.inr (Or.inl (ihs h))
          · exact Or.inr (Or.inr h)
        · simp only [toList, List.mem_cons, List.mem_append]
          rcases h with h | h | h
          · exact Or.inl h
          · exact Or.inr (Or.inl h)
          · exact Or.inr (Or.inr (ihc h))

/-! ## Searching -/

/-- What is found passes the test. -/
theorem find_passes {t : SiblingTree α} {a : α} (h : t.find p = some a) : p a = true := by
  induction t with
  | null => cases h
  | node b sibling child ihs ihc =>
      rw [find] at h
      split at h
      · next hb =>
          cases h
          exact hb
      · rcases Option.or_eq_some_iff.mp h with h | ⟨-, h⟩
        · exact ihs h
        · exact ihc h

/-- A search ends at a node exactly if there is one that passes. -/
theorem find_isSome_iff {t : SiblingTree α} :
    (t.find p).isSome ↔ ∃ a ∈ t.toList, p a = true := by
  constructor
  · intro h
    obtain ⟨a, ha⟩ := Option.isSome_iff_exists.mp h
    exact ⟨a, mem_of_find ha, find_passes ha⟩
  · rintro ⟨a, ha, hpass⟩
    induction t with
    | null => cases ha
    | node b sibling child ihs ihc =>
        rw [toList, List.mem_cons, List.mem_append] at ha
        rw [find]
        split
        · rfl
        · next hb =>
            rw [Option.isSome_or, Bool.or_eq_true]
            rcases ha with rfl | ha | ha
            · exact absurd hpass hb
            · exact Or.inl (ihs ha)
            · exact Or.inr (ihc ha)

/-! ## Changing the children of a node -/

/-- Change the children of the first node that passes the test. -/
def updateChild (p : α → Bool) (f : α → SiblingTree α → SiblingTree α) :
    SiblingTree α → SiblingTree α
  | null => null
  | node a sibling child =>
      if p a then node a sibling (f a child)
      else if (sibling.find p).isSome then node a (sibling.updateChild p f) child
      else node a sibling (child.updateChild p f)

variable {change : α → SiblingTree α → SiblingTree α}

/-- A new child is such a change. -/
theorem addFirst_eq_updateChild (t : SiblingTree α) :
    t.addFirst p new = t.updateChild p (fun _ child => node new child null) := by
  induction t with
  | null => rfl
  | node a sibling child ihs ihc => rw [addFirst, updateChild, ihs, ihc]

/-- A child is added first, and then the children are changed. -/
theorem updateChild_addFirst (t : SiblingTree α) :
    (t.addFirst p new).updateChild p change
      = t.updateChild p (fun a child => change a (node new child null)) := by
  induction t with
  | null => rfl
  | node a sibling child ihs ihc =>
      rw [addFirst, updateChild]
      by_cases ha : p a = true
      · rw [if_pos ha, if_pos ha, updateChild, if_pos ha]
      · rw [if_neg ha, if_neg ha]
        by_cases hs : (sibling.find p).isSome
        · rw [if_pos hs, if_pos hs, updateChild, if_neg ha, if_pos (isSome_find_addFirst hs), ihs]
        · rw [if_neg hs, if_neg hs, updateChild, if_neg ha, if_neg hs, ihc]

/-- What a change of the children leaves, as a list of keys: the keys that it adds, and the old
ones. -/
theorem perm_updateChild {κ : Type} (key : α → κ) (added : List κ)
    (hchange : ∀ a child, ((change a child).toList.map key).Perm (added ++ child.toList.map key))
    {t : SiblingTree α} (h : (t.find p).isSome) :
    ((t.updateChild p change).toList.map key).Perm (added ++ t.toList.map key) := by
  induction t with
  | null => cases h
  | node a sibling child ihs ihc =>
      rw [find] at h
      rw [updateChild]
      by_cases ha : p a = true
      · rw [if_pos ha, toList, toList, List.map_cons, List.map_cons, List.map_append,
          List.map_append]
        refine List.Perm.trans ?_ List.perm_middle.symm
        refine List.Perm.cons _ ?_
        refine ((hchange a child).append_left _).trans ?_
        rw [← List.append_assoc, ← List.append_assoc]
        exact List.perm_append_comm.append_right _
      · rw [if_neg ha] at h ⊢
        split
        · next hs =>
            rw [toList, toList, List.map_cons, List.map_cons, List.map_append, List.map_append]
            refine List.Perm.trans ?_ List.perm_middle.symm
            refine List.Perm.cons _ ?_
            rw [← List.append_assoc]
            exact (ihs hs).append_right _
        · next hs =>
            have hc : (child.find p).isSome := by
              rw [Option.isSome_or, Bool.or_eq_true] at h
              exact h.resolve_left hs
            rw [toList, toList, List.map_cons, List.map_cons, List.map_append, List.map_append]
            refine List.Perm.trans ?_ List.perm_middle.symm
            refine List.Perm.cons _ ?_
            refine ((ihc hc).append_left _).trans ?_
            rw [← List.append_assoc, ← List.append_assoc]
            exact List.perm_append_comm.append_right _

/-! ## Families -/

/-- A node and the siblings after it. -/
def siblings : SiblingTree α → List α
  | null => []
  | node a sibling _ => a :: sibling.siblings

/-- Every node is related to its children. -/
def EveryFamily (R : α → List α → Prop) : SiblingTree α → Prop
  | null => True
  | node a sibling child => R a child.siblings ∧ sibling.EveryFamily R ∧ child.EveryFamily R

/-- Changing children changes no node. -/
theorem siblings_updateChild (t : SiblingTree α) :
    (t.updateChild p change).siblings = t.siblings := by
  induction t with
  | null => rfl
  | node a sibling child ihs ihc =>
      rw [updateChild]
      split
      · rfl
      · split
        · rw [siblings, siblings, ihs]
        · rfl

/-- The first node that passes the test, with what is below it. -/
def findFamily (p : α → Bool) : SiblingTree α → Option (α × SiblingTree α)
  | null => none
  | node a sibling child =>
      if p a then some (a, child) else (sibling.findFamily p).or (child.findFamily p)

/-- It is there if the search finds a node. -/
theorem isSome_findFamily (t : SiblingTree α) : (t.findFamily p).isSome = (t.find p).isSome := by
  induction t with
  | null => rfl
  | node a sibling child ihs ihc =>
      rw [findFamily, find]
      split
      · rfl
      · rw [Option.isSome_or, Option.isSome_or, ihs, ihc]

/-- What is below it after a change there. -/
theorem findFamily_updateChild (t : SiblingTree α) :
    (t.updateChild p change).findFamily p
      = (t.findFamily p).map (fun family => (family.1, change family.1 family.2)) := by
  induction t with
  | null => rfl
  | node a sibling child ihs ihc =>
      rw [updateChild, findFamily]
      by_cases ha : p a = true
      · rw [if_pos ha, if_pos ha, findFamily, if_pos ha]
        rfl
      · rw [if_neg ha, if_neg ha]
        rw [← isSome_findFamily sibling]
        cases hs : sibling.findFamily p with
        | some family =>
            rw [if_pos Option.isSome_some, findFamily, if_neg ha, ihs, hs]
            rfl
        | none =>
            rw [if_neg (by simp), findFamily, if_neg ha, ihc, hs, Option.none_or, Option.none_or]

/-- The relation holds for the node that is found, and below it. -/
theorem EveryFamily.of_findFamily {R : α → List α → Prop} {t : SiblingTree α}
    (h : t.EveryFamily R) {a : α} {below : SiblingTree α}
    (hfind : t.findFamily p = some (a, below)) :
    R a below.siblings ∧ below.EveryFamily R := by
  induction t with
  | null => cases hfind
  | node b sibling child ihs ihc =>
      obtain ⟨hb, hs, hc⟩ := h
      rw [findFamily] at hfind
      split at hfind
      · cases hfind
        exact ⟨hb, hc⟩
      · rcases Option.or_eq_some_iff.mp hfind with hfind | ⟨-, hfind⟩
        · exact ihs hs hfind
        · exact ihc hc hfind

/-- The relation holds after the change if it does for the node whose children are changed and
below it. -/
theorem EveryFamily.updateChild {R : α → List α → Prop} {t : SiblingTree α} (h : t.EveryFamily R)
    (hchange : ∀ a child, t.findFamily p = some (a, child) →
      R a (change a child).siblings ∧ (change a child).EveryFamily R) :
    (t.updateChild p change).EveryFamily R := by
  induction t with
  | null => trivial
  | node a sibling child ihs ihc =>
      obtain ⟨ha, hs, hc⟩ := h
      rw [SiblingTree.updateChild]
      by_cases hpass : p a = true
      · rw [if_pos hpass]
        have hfound : (node a sibling child).findFamily p = some (a, child) := if_pos hpass
        obtain ⟨ha', hc'⟩ := hchange a child hfound
        exact ⟨ha', hs, hc'⟩
      · have hfind : (node a sibling child).findFamily p
            = (sibling.findFamily p).or (child.findFamily p) := if_neg hpass
        rw [if_neg hpass, ← isSome_findFamily]
        cases hfamily : sibling.findFamily p with
        | some family =>
            rw [if_pos Option.isSome_some]
            refine ⟨ha, ihs hs fun b below hbelow => hchange b below ?_, hc⟩
            rw [hfind, hbelow]
            rfl
        | none =>
            rw [if_neg (by simp)]
            refine ⟨?_, hs, ihc hc fun b below hbelow => hchange b below ?_⟩
            · rw [siblings_updateChild]
              exact ha
            · rw [hfind, hfamily, hbelow]
              rfl

/-- The relation held before the change if it follows from its holding for the changed children
and below them. -/
theorem EveryFamily.of_updateChild {R : α → List α → Prop} {t : SiblingTree α}
    (h : (t.updateChild p change).EveryFamily R)
    (hchange : ∀ a child, R a (change a child).siblings → (change a child).EveryFamily R →
      R a child.siblings ∧ child.EveryFamily R) : t.EveryFamily R := by
  induction t with
  | null => trivial
  | node a sibling child ihs ihc =>
      rw [SiblingTree.updateChild] at h
      split at h
      · obtain ⟨ha, hs, hc⟩ := h
        obtain ⟨ha', hc'⟩ := hchange a child ha hc
        exact ⟨ha', hs, hc'⟩
      · split at h
        · obtain ⟨ha, hs, hc⟩ := h
          exact ⟨ha, ihs hs, hc⟩
        · obtain ⟨ha, hs, hc⟩ := h
          rw [siblings_updateChild] at ha
          exact ⟨ha, hs, ihc hc⟩

/-- A relation that follows from another. -/
theorem EveryFamily.imp {R S : α → List α → Prop} (h : ∀ a children, R a children → S a children)
    {t : SiblingTree α} (ht : t.EveryFamily R) : t.EveryFamily S := by
  induction t with
  | null => trivial
  | node a sibling child ihs ihc => exact ⟨h _ _ ht.1, ihs ht.2.1, ihc ht.2.2⟩

/-- Two relations at once. -/
theorem everyFamily_and {R S : α → List α → Prop} {t : SiblingTree α} :
    t.EveryFamily (fun a children => R a children ∧ S a children)
      ↔ t.EveryFamily R ∧ t.EveryFamily S := by
  induction t with
  | null => exact iff_of_true trivial ⟨trivial, trivial⟩
  | node a sibling child ihs ihc =>
      rw [EveryFamily, EveryFamily, EveryFamily, ihs, ihc]
      tauto

/-! ## Changing every node -/

/-- A change that the test does not see commutes with the search. -/
theorem find_map (hf : ∀ a, p (f a) = p a) (t : SiblingTree α) :
    (t.map f).find p = (t.find p).map f := by
  induction t with
  | null => rfl
  | node a sibling child ihs ihc =>
      rw [map, find, find, hf]
      split
      · rfl
      · rw [ihs, ihc, Option.map_or]

/-- The changed nodes. -/
theorem toList_map (t : SiblingTree α) : (t.map f).toList = t.toList.map f := by
  induction t with
  | null => rfl
  | node a sibling child ihs ihc =>
      rw [map, toList, toList, ihs, ihc, List.map_cons, List.map_append]

/-! ## Reading a value off every node -/

/-- The tree of the values. -/
def relabel {β : Type} (g : α → β) : SiblingTree α → SiblingTree β
  | null => null
  | node a sibling child => node (g a) (sibling.relabel g) (child.relabel g)

variable {β : Type} {g : α → β} {r : β → Bool}

/-- The values, in the order of the search. -/
theorem toList_relabel (t : SiblingTree α) : (t.relabel g).toList = t.toList.map g := by
  induction t with
  | null => rfl
  | node a sibling child ihs ihc =>
      rw [relabel, toList, toList, ihs, ihc, List.map_cons, List.map_append]

/-- The values of siblings. -/
theorem siblings_relabel (t : SiblingTree α) : (t.relabel g).siblings = t.siblings.map g := by
  induction t with
  | null => rfl
  | node a sibling child ihs ihc => rw [relabel, siblings, siblings, ihs, List.map_cons]

/-- A test of the values finds the node's. -/
theorem find_relabel (hp : ∀ a, r (g a) = p a) (t : SiblingTree α) :
    (t.relabel g).find r = (t.find p).map g := by
  induction t with
  | null => rfl
  | node a sibling child ihs ihc =>
      rw [relabel, find, find, hp]
      split
      · rfl
      · rw [ihs, ihc, Option.map_or]

/-- A change below a node that keeps the values. -/
theorem relabel_updateChild
    (hchange : ∀ a child, (change a child).relabel g = child.relabel g) (t : SiblingTree α) :
    (t.updateChild p change).relabel g = t.relabel g := by
  induction t with
  | null => rfl
  | node a sibling child ihs ihc =>
      rw [updateChild, relabel]
      split
      · rw [relabel, hchange]
      · split
        · rw [relabel, ihs]
        · rw [relabel, ihc]

/-- A change of one node that keeps its value. -/
theorem relabel_modifyFirst (hf : ∀ a, g (f a) = g a) (t : SiblingTree α) :
    (t.modifyFirst p f).relabel g = t.relabel g := by
  induction t with
  | null => rfl
  | node a sibling child ihs ihc =>
      rw [modifyFirst, relabel]
      split
      · rw [relabel, hf]
      · split
        · rw [relabel, ihs]
        · rw [relabel, ihc]

/-- A change of all nodes that keeps their values. -/
theorem relabel_map (hf : ∀ a, g (f a) = g a) (t : SiblingTree α) :
    (t.map f).relabel g = t.relabel g := by
  induction t with
  | null => rfl
  | node a sibling child ihs ihc => rw [map, relabel, relabel, hf, ihs, ihc]

/-- Values of values. -/
theorem relabel_relabel {γ : Type} (g' : β → γ) (t : SiblingTree α) :
    (t.relabel g).relabel g' = t.relabel (fun a => g' (g a)) := by
  induction t with
  | null => rfl
  | node a sibling child ihs ihc => rw [relabel, relabel, relabel, ihs, ihc]

/-- What is below the node that is found, in values. -/
theorem findFamily_relabel (hp : ∀ a, r (g a) = p a) (t : SiblingTree α) :
    (t.relabel g).findFamily r
      = (t.findFamily p).map (fun family => (g family.1, family.2.relabel g)) := by
  induction t with
  | null => rfl
  | node a sibling child ihs ihc =>
      rw [relabel, findFamily, findFamily, hp]
      split
      · rfl
      · rw [ihs, ihc, Option.map_or]

/-- A relation that only reads the values holds in all trees with these values. -/
theorem EveryFamily.of_relabel {R : α → List α → Prop}
    (hR : ∀ a a' children children', g a = g a' → children.map g = children'.map g →
      R a children → R a' children')
    {t : SiblingTree α} :
    ∀ {t' : SiblingTree α}, t.relabel g = t'.relabel g → t.EveryFamily R → t'.EveryFamily R := by
  induction t with
  | null =>
      intro t' h _
      cases t' with
      | null => trivial
      | node _ _ _ => cases h
  | node a sibling child ihs ihc =>
      intro t' h ht
      cases t' with
      | null => cases h
      | node a' sibling' child' =>
          rw [relabel, relabel, node.injEq] at h
          obtain ⟨ha, hs, hc⟩ := h
          refine ⟨hR a a' _ _ ha ?_ ht.1, ihs hs ht.2.1, ihc hc ht.2.2⟩
          rw [← siblings_relabel, ← siblings_relabel, hc]

end SiblingTree
