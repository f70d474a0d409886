/-
# The registry of properties

Models `PropRegistry` (`base/PropRegistry.cpp`), which numbers the string resources and their
values in four containers, and the vector in which a node keeps the value it has of each
(`add_reg_props` and `has_reg_prop`, `base/NodeData.cpp`).

The vector of a node grows up to the id of the property, not one further, when the id lies 50 or
more behind its end; the value is then written behind the vector.

* `InStep`: the four containers number the same properties and values;
* `registry_numbers`: any calls end in a stable dense numbering;
* `node_props_iff`: the calls on a node that keep a map from properties to values.
-/
import PlanSched.CheckedRun
import PlanSched.DenseNumbering

namespace PlanSched

open CheckedRun DenseNumbering

/-! ## The registry -/

/-- `PropRegistry`. -/
structure PropRegistry where
  properties : List (String × ℕ)
  propIndex : List String
  values : List (List (String × ℕ))
  valIndex : List (List String)
  deriving DecidableEq, Repr

/-- A registry without properties. -/
def PropRegistry.empty : PropRegistry := ⟨[], [], [], []⟩

/-- The first half of `register_property`: the index of the property. -/
def PropRegistry.propertyIndex (reg : PropRegistry) (property : String) : PropRegistry × ℕ :=
  match reg.properties.lookup property with
  | none =>
      let propIndex := reg.propIndex ++ [property]
      let index := propIndex.length - 1
      ({ properties := (property, index) :: reg.properties
         propIndex := propIndex
         values := reg.values ++ [[]]
         valIndex := reg.valIndex ++ [[]] }, index)
  | some index => (reg, index)

/-- The second half of `register_property`: the index of the value. -/
def PropRegistry.valueIndex (reg : PropRegistry) (index : ℕ) (value : String) :
    Run (PropRegistry × ℕ) := do
  let vals ← getAt reg.values index
  match vals.lookup value with
  | none => do
      let names ← getAt reg.valIndex index
      let valIndex ← setAt reg.valIndex index (names ++ [value])
      let vindex := (names ++ [value]).length - 1
      let values ← setAt reg.values index ((value, vindex) :: vals)
      return ({ reg with values := values, valIndex := valIndex }, vindex)
  | some vindex => return (reg, vindex)

/-- `register_property`. -/
def PropRegistry.registerProperty (reg : PropRegistry) (property value : String) :
    Run (PropRegistry × (ℕ × ℕ)) := do
  let found := reg.propertyIndex property
  let (reg, vindex) ← found.1.valueIndex found.2 value
  return (reg, (found.2, vindex))

/-- `get_property_id`. -/
def PropRegistry.getPropertyId (reg : PropRegistry) (property : String) : Bool × ℕ :=
  match reg.properties.lookup property with
  | none => (false, 0)
  | some index => (true, index)

/-- `get_value_id`. -/
def PropRegistry.getValueId (reg : PropRegistry) (propertyId : ℕ) (value : String) :
    Run (Bool × ℕ) :=
  if propertyId ≥ reg.propIndex.length then .ok (false, 0)
  else do
    let vals ← getAt reg.values propertyId
    match vals.lookup value with
    | none => return (false, 0)
    | some vindex => return (true, vindex)

/-- `prop_count`. -/
def PropRegistry.propCount (reg : PropRegistry) : ℕ := reg.propIndex.length

/-- `value_count`. -/
def PropRegistry.valueCount (reg : PropRegistry) (propertyId : ℕ) : Run (Bool × ℕ) :=
  if propertyId ≥ reg.propIndex.length then .ok (false, 0)
  else do
    let names ← getAt reg.valIndex propertyId
    return (true, names.length)

/-- The calls of `register_property` in this order, with the ids they return. -/
def registerAll : PropRegistry → List (String × String) → Run (PropRegistry × List (ℕ × ℕ))
  | reg, [] => .ok (reg, [])
  | reg, call :: calls => do
      let (reg, id) ← reg.registerProperty call.1 call.2
      let (reg, ids) ← registerAll reg calls
      return (reg, id :: ids)

/-! ## The four containers -/

/-- The maps number the names of the vectors beside them. -/
structure InStep (reg : PropRegistry) : Prop where
  properties : Numbers reg.properties reg.propIndex
  values_length : reg.values.length = reg.propIndex.length
  valIndex_length : reg.valIndex.length = reg.propIndex.length
  values : ∀ (i : ℕ) (vals : List (String × ℕ)) (names : List String),
    reg.values[i]? = some vals → reg.valIndex[i]? = some names → Numbers vals names

/-- The id of a value of the property with the id `i`. -/
def PropRegistry.valueOf (reg : PropRegistry) (i : ℕ) (value : String) : Option ℕ :=
  reg.values[i]?.bind (List.lookup value)

/-- An empty registry is in step. -/
theorem empty_inStep : InStep PropRegistry.empty where
  properties := numbers_nil
  values_length := rfl
  valIndex_length := rfl
  values := by
    intro i vals names hvals
    simp [PropRegistry.empty] at hvals

section Step

variable {reg : PropRegistry}

/-- The property has its index afterwards and the other numbers are as before. -/
theorem InStep.propertyIndex (h : InStep reg) (property : String) :
    InStep (reg.propertyIndex property).1 ∧
    (reg.propertyIndex property).2 < (reg.propertyIndex property).1.propIndex.length ∧
    (∀ q, (reg.propertyIndex property).1.properties.lookup q =
      if q = property then some (reg.propertyIndex property).2 else reg.properties.lookup q) ∧
    (∀ i, reg.properties.lookup property = some i → (reg.propertyIndex property).2 = i) ∧
    ∀ i value, (reg.propertyIndex property).1.valueOf i value = reg.valueOf i value := by
  unfold PropRegistry.propertyIndex
  cases hfind : reg.properties.lookup property with
  | some index =>
      refine ⟨h, h.properties.lt hfind, ?_, ?_, fun _ _ => rfl⟩
      · intro q
        by_cases hq : q = property
        · rw [if_pos hq, hq, hfind]
        · rw [if_neg hq]
      · intro i hi
        exact Option.some.inj hi
  | none =>
      -- a new name goes to the end of the names, with no values
      have hlast : (reg.propIndex ++ [property]).length - 1 = reg.propIndex.length := by simp
      simp only [hlast]
      refine ⟨⟨?_, ?_, ?_, ?_⟩, ?_, ?_, ?_, ?_⟩
      · exact h.properties.concat hfind
      · simp [h.values_length]
      · simp [h.valIndex_length]
      · intro i vals names hvals hnames
        simp only at hvals hnames
        by_cases hi : i < reg.propIndex.length
        · rw [List.getElem?_append_left (by rw [h.values_length]; exact hi)] at hvals
          rw [List.getElem?_append_left (by rw [h.valIndex_length]; exact hi)] at hnames
          exact h.values i vals names hvals hnames
        · rw [List.getElem?_append_right (by rw [h.values_length]; omega),
            List.getElem?_singleton] at hvals
          rw [List.getElem?_append_right (by rw [h.valIndex_length]; omega),
            List.getElem?_singleton] at hnames
          split at hvals
          · split at hnames
            · cases hvals
              cases hnames
              exact numbers_nil
            · cases hnames
          · cases hvals
      · simp
      · intro q
        exact lookup_cons_entry _ _ _ _
      · intro i hi
        cases hi
      · intro i value
        unfold PropRegistry.valueOf
        simp only
        by_cases hi : i < reg.values.length
        · rw [List.getElem?_append_left hi]
        · rw [List.getElem?_append_right (by omega), List.getElem?_singleton,
            List.getElem?_eq_none (show reg.values.length ≤ i by omega)]
          split
          · rfl
          · rfl

/-- The value has its index afterwards and the other numbers are as before. -/
theorem InStep.valueIndex (h : InStep reg) {index : ℕ} (hindex : index < reg.propIndex.length)
    (value : String) : ∃ reg' vindex, reg.valueIndex index value = .ok (reg', vindex) ∧
      InStep reg' ∧ reg'.properties = reg.properties ∧
      (∀ i w, reg'.valueOf i w = if i = index ∧ w = value then some vindex else reg.valueOf i w) ∧
      ∀ j, reg.valueOf index value = some j → vindex = j := by
  have hlt : index < reg.values.length := by rw [h.values_length]; exact hindex
  have hlt' : index < reg.valIndex.length := by rw [h.valIndex_length]; exact hindex
  obtain ⟨vals, hvals⟩ : ∃ vals, reg.values[index]? = some vals :=
    ⟨_, List.getElem?_eq_getElem hlt⟩
  obtain ⟨names, hnames⟩ : ∃ names, reg.valIndex[index]? = some names :=
    ⟨_, List.getElem?_eq_getElem hlt'⟩
  have hnumbers := h.values index vals names hvals hnames
  have hat : ∀ w, reg.valueOf index w = vals.lookup w := by
    intro w
    unfold PropRegistry.valueOf
    rw [hvals]
    rfl
  unfold PropRegistry.valueIndex
  rw [getAt_ok.mpr hvals]
  simp only [bind, Except.bind]
  cases hfind : vals.lookup value with
  | some vindex =>
      refine ⟨reg, vindex, rfl, h, rfl, ?_, ?_⟩
      · intro i w
        by_cases hiw : i = index ∧ w = value
        · rw [if_pos hiw, hiw.1, hiw.2, hat, hfind]
        · rw [if_neg hiw]
      · intro j hj
        rw [hat, hfind] at hj
        exact Option.some.inj hj
  | none =>
      -- a new value goes to the end of those of its property
      have hlast : (names ++ [value]).length - 1 = names.length := by simp
      rw [getAt_ok.mpr hnames]
      simp only [hlast]
      rw [setAt_ok.mpr ⟨hlt', rfl⟩]
      simp only
      rw [setAt_ok.mpr ⟨hlt, rfl⟩]
      refine ⟨_, names.length, rfl, ⟨h.properties, ?_, ?_, ?_⟩, rfl, ?_, ?_⟩
      · simp [h.values_length]
      · simp [h.valIndex_length]
      · intro i vals' names' hvals' hnames'
        simp only at hvals' hnames'
        by_cases hi : i = index
        · subst hi
          rw [List.getElem?_set_self hlt] at hvals'
          rw [List.getElem?_set_self hlt'] at hnames'
          cases hvals'
          cases hnames'
          exact hnumbers.concat hfind
        · rw [List.getElem?_set_ne (Ne.symm hi)] at hvals' hnames'
          exact h.values i vals' names' hvals' hnames'
      · intro i w
        unfold PropRegistry.valueOf
        simp only
        by_cases hi : i = index
        · subst hi
          rw [List.getElem?_set_self hlt, Option.bind_some, lookup_cons_entry, hvals]
          simp
        · rw [List.getElem?_set_ne (Ne.symm hi), if_neg (fun hiw => hi hiw.1)]
      · intro j hj
        rw [hat, hfind] at hj
        cases hj

/-- What a call of `register_property` does: the pair has the ids returned, all other numbers
are as before, and a number that was there is returned. -/
structure Registers (reg : PropRegistry) (property value : String) (reg' : PropRegistry)
    (id : ℕ × ℕ) : Prop where
  inStep : InStep reg'
  property_eq : ∀ q, reg'.properties.lookup q =
    if q = property then some id.1 else reg.properties.lookup q
  value_eq : ∀ i w, reg'.valueOf i w =
    if i = id.1 ∧ w = value then some id.2 else reg.valueOf i w
  property_kept : ∀ i, reg.properties.lookup property = some i → id.1 = i
  value_kept : ∀ j, reg.valueOf id.1 value = some j → id.2 = j

/-- Every call of `register_property` does this. -/
theorem InStep.registerProperty (h : InStep reg) (property value : String) :
    ∃ reg' id, reg.registerProperty property value = .ok (reg', id) ∧
      Registers reg property value reg' id := by
  obtain ⟨hstep, hlt, hlookup, hkept, hvalues⟩ := h.propertyIndex property
  obtain ⟨reg', vindex, hrun, hstep', hproperties, hvalueOf, hvalueKept⟩ :=
    hstep.valueIndex hlt value
  refine ⟨reg', ((reg.propertyIndex property).2, vindex), ?_, hstep', ?_, ?_, hkept, ?_⟩
  · unfold PropRegistry.registerProperty
    simp only [hrun]
    rfl
  · intro q
    rw [hproperties]
    exact hlookup q
  · intro i w
    rw [hvalueOf, hvalues]
  · intro j hj
    exact hvalueKept j (by rw [hvalues]; exact hj)

end Step

/-! ## All calls -/

/-- What any calls do: they keep the numbers that were there, give numbers to the pairs of the
calls only, and return the numbers of the pairs. -/
structure RegistersAll (reg : PropRegistry) (calls : List (String × String))
    (reg' : PropRegistry) (ids : List (ℕ × ℕ)) : Prop where
  inStep : InStep reg'
  ids_length : ids.length = calls.length
  property_kept : ∀ q i, reg.properties.lookup q = some i → reg'.properties.lookup q = some i
  value_kept : ∀ i w j, reg.valueOf i w = some j → reg'.valueOf i w = some j
  property_new : ∀ q i, reg'.properties.lookup q = some i →
    reg.properties.lookup q = some i ∨ q ∈ calls.map Prod.fst
  value_new : ∀ q i w j, reg'.properties.lookup q = some i → reg'.valueOf i w = some j →
    reg.valueOf i w = some j ∨ (q, w) ∈ calls
  returned : ∀ (k : ℕ) call id, calls[k]? = some call → ids[k]? = some id →
    reg'.properties.lookup call.1 = some id.1 ∧ reg'.valueOf id.1 call.2 = some id.2

/-- A run of calls goes through. -/
theorem InStep.registerAll (calls : List (String × String)) :
    ∀ {reg : PropRegistry}, InStep reg →
      ∃ reg' ids, registerAll reg calls = .ok (reg', ids) ∧ RegistersAll reg calls reg' ids := by
  induction calls with
  | nil =>
      intro reg h
      refine ⟨reg, [], rfl, h, rfl, ?_, ?_, ?_, ?_, ?_⟩
      · exact fun _ _ hq => hq
      · exact fun _ _ _ hw => hw
      · exact fun _ _ hq => Or.inl hq
      · exact fun _ _ _ _ _ hw => Or.inl hw
      · intro k call id hcall
        cases hcall
  | cons call calls ih =>
      intro reg h
      obtain ⟨reg₁, id, hrun₁, h₁⟩ := h.registerProperty call.1 call.2
      obtain ⟨reg', ids, hrun, hall⟩ := ih h₁.inStep
      -- the first call keeps the numbers that were there
      have hproperty : ∀ q i, reg.properties.lookup q = some i →
          reg₁.properties.lookup q = some i := by
        intro q i hq
        rw [h₁.property_eq]
        by_cases hcall : q = call.1
        · rw [if_pos hcall, h₁.property_kept i (by rw [← hcall]; exact hq)]
        · rw [if_neg hcall]
          exact hq
      have hvalue : ∀ i w j, reg.valueOf i w = some j → reg₁.valueOf i w = some j := by
        intro i w j hw
        rw [h₁.value_eq]
        by_cases hcall : i = id.1 ∧ w = call.2
        · rw [if_pos hcall, h₁.value_kept j (by rw [← hcall.1, ← hcall.2]; exact hw)]
        · rw [if_neg hcall]
          exact hw
      have hruns : PlanSched.registerAll reg (call :: calls) = .ok (reg', id :: ids) := by
        unfold PlanSched.registerAll
        simp only [hrun₁, bind, Except.bind, hrun]
        rfl
      refine ⟨reg', id :: ids, hruns, ?_⟩
      constructor
      case inStep => exact hall.inStep
      case ids_length => simp [hall.ids_length]
      case property_kept => exact fun q i hq => hall.property_kept q i (hproperty q i hq)
      case value_kept => exact fun i w j hw => hall.value_kept i w j (hvalue i w j hw)
      case property_new =>
        intro q i hq
        rcases hall.property_new q i hq with hq | hq
        · rw [h₁.property_eq] at hq
          by_cases hcall : q = call.1
          · exact Or.inr (by simp [hcall])
          · rw [if_neg hcall] at hq
            exact Or.inl hq
        · exact Or.inr (by simp [hq])
      case value_new =>
        intro q i w j hq hw
        rcases hall.value_new q i w j hq hw with hw | hw
        · rw [h₁.value_eq] at hw
          by_cases hcall : i = id.1 ∧ w = call.2
          · -- only the property of the call has its id
            right
            have hown : reg'.properties.lookup call.1 = some i := by
              rw [hcall.1]
              exact hall.property_kept _ _ (by rw [h₁.property_eq, if_pos rfl])
            have hsame := hall.inStep.properties.inj hq hown
            rw [hsame, hcall.2]
            exact List.mem_cons_self
          · rw [if_neg hcall] at hw
            exact Or.inl hw
        · exact Or.inr (List.mem_cons_of_mem call hw)
      case returned =>
        intro k call' id' hcall hid
        cases k with
        | zero =>
            cases hcall
            cases hid
            refine ⟨hall.property_kept _ _ ?_, hall.value_kept _ _ _ ?_⟩
            · rw [h₁.property_eq, if_pos rfl]
            · rw [h₁.value_eq, if_pos ⟨rfl, rfl⟩]
        | succ k => exact hall.returned k call' id' hcall hid

/-- A stable dense numbering of the properties and values registered by the calls, which
returned `ids`. -/
structure StableNumbering (calls : List (String × String)) (reg : PropRegistry)
    (ids : List (ℕ × ℕ)) : Prop where
  /-- The ids of properties are those below the count. -/
  property_ids : ∀ i, i < reg.propCount ↔
    ∃ q ∈ calls.map Prod.fst, reg.getPropertyId q = (true, i)
  /-- The ids of the values of a property are those below its count. -/
  value_ids : ∀ q i, reg.getPropertyId q = (true, i) →
    ∃ n, reg.valueCount i = .ok (true, n) ∧
      ∀ j, j < n ↔ ∃ w, (q, w) ∈ calls ∧ reg.getValueId i w = .ok (true, j)
  /-- Distinct properties have distinct ids. -/
  property_inj : ∀ q r i, reg.getPropertyId q = (true, i) → reg.getPropertyId r = (true, i) →
    q = r
  /-- Distinct values of a property have distinct ids. -/
  value_inj : ∀ i v w j, reg.getValueId i v = .ok (true, j) →
    reg.getValueId i w = .ok (true, j) → v = w
  /-- The ids returned by a call are those found afterwards. -/
  returned : ∀ (k : ℕ) call id, calls[k]? = some call → ids[k]? = some id →
    reg.getPropertyId call.1 = (true, id.1) ∧ reg.getValueId id.1 call.2 = .ok (true, id.2)
  /-- Every call returns ids, and calls with the same pair return the same ones. -/
  stable : ids.length = calls.length ∧
    ∀ k l : ℕ, calls[k]? = calls[l]? → ids[k]? = ids[l]?
  /-- Nothing is found for names that were never registered. -/
  unregistered : (∀ q, q ∉ calls.map Prod.fst → reg.getPropertyId q = (false, 0)) ∧
    (∀ q i w, reg.getPropertyId q = (true, i) → (q, w) ∉ calls →
      reg.getValueId i w = .ok (false, 0)) ∧
    ∀ i w, reg.propCount ≤ i → reg.getValueId i w = .ok (false, 0)

/-- What `get_property_id` finds. -/
theorem getPropertyId_eq (reg : PropRegistry) (q : String) (i : ℕ) :
    reg.getPropertyId q = (true, i) ↔ reg.properties.lookup q = some i := by
  unfold PropRegistry.getPropertyId
  cases reg.properties.lookup q with
  | none => simp
  | some index => simp

/-- What `get_value_id` finds in a registry in step. -/
theorem InStep.getValueId {reg : PropRegistry} (h : InStep reg) (i : ℕ) (w : String) :
    reg.getValueId i w = .ok (match reg.valueOf i w with
      | none => (false, 0)
      | some j => (true, j)) := by
  unfold PropRegistry.getValueId PropRegistry.valueOf
  by_cases hi : i ≥ reg.propIndex.length
  · rw [if_pos hi, List.getElem?_eq_none (by rw [h.values_length]; exact hi)]
    rfl
  · rw [if_neg hi]
    obtain ⟨vals, hvals⟩ : ∃ vals, reg.values[i]? = some vals :=
      ⟨_, List.getElem?_eq_getElem (by rw [h.values_length]; omega)⟩
    rw [getAt_ok.mpr hvals, hvals]
    simp only [bind, Except.bind, Option.bind_some]
    cases vals.lookup w with
    | none => rfl
    | some j => rfl

/-- It finds an id exactly if the value has one. -/
theorem InStep.getValueId_eq {reg : PropRegistry} (h : InStep reg) (i : ℕ) (w : String) (j : ℕ) :
    reg.getValueId i w = .ok (true, j) ↔ reg.valueOf i w = some j := by
  rw [h.getValueId]
  cases reg.valueOf i w with
  | none => simp
  | some j' => simp

/-- It finds none exactly if the value has none. -/
theorem InStep.getValueId_none {reg : PropRegistry} (h : InStep reg) {i : ℕ} {w : String}
    (hnone : reg.valueOf i w = none) : reg.getValueId i w = .ok (false, 0) := by
  rw [h.getValueId, hnone]

/-- The values of a property and their numbers. -/
theorem InStep.values_at {reg : PropRegistry} (h : InStep reg) {i : ℕ}
    (hi : i < reg.propIndex.length) :
    ∃ vals names, reg.valIndex[i]? = some names ∧ Numbers vals names ∧
      ∀ w, reg.valueOf i w = vals.lookup w := by
  obtain ⟨vals, hvals⟩ : ∃ vals, reg.values[i]? = some vals :=
    ⟨_, List.getElem?_eq_getElem (by rw [h.values_length]; exact hi)⟩
  obtain ⟨names, hnames⟩ : ∃ names, reg.valIndex[i]? = some names :=
    ⟨_, List.getElem?_eq_getElem (by rw [h.valIndex_length]; exact hi)⟩
  refine ⟨vals, names, hnames, h.values i vals names hvals hnames, ?_⟩
  intro w
  unfold PropRegistry.valueOf
  rw [hvals]
  rfl

/-- Only properties have values. -/
theorem InStep.lt_of_valueOf {reg : PropRegistry} (h : InStep reg) {i j : ℕ} {w : String}
    (hw : reg.valueOf i w = some j) : i < reg.propIndex.length := by
  unfold PropRegistry.valueOf at hw
  obtain ⟨vals, hvals, -⟩ := Option.bind_eq_some_iff.mp hw
  rw [← h.values_length]
  exact (List.getElem?_eq_some_iff.mp hvals).1

section Numbering

variable {calls : List (String × String)} {reg : PropRegistry} {ids : List (ℕ × ℕ)}

/-- Starting empty, only the properties of the calls have ids. -/
theorem RegistersAll.registered (h : RegistersAll PropRegistry.empty calls reg ids) {q : String}
    {i : ℕ} (hq : reg.properties.lookup q = some i) : q ∈ calls.map Prod.fst := by
  refine (h.property_new q i hq).resolve_left ?_
  intro hempty
  cases hempty

/-- Starting empty, only the pairs of the calls have ids. -/
theorem RegistersAll.valued (h : RegistersAll PropRegistry.empty calls reg ids) {q w : String}
    {i j : ℕ} (hq : reg.properties.lookup q = some i) (hw : reg.valueOf i w = some j) :
    (q, w) ∈ calls := by
  refine (h.value_new q i w j hq hw).resolve_left ?_
  intro hempty
  cases hempty

/-- The ids of the values of a property are dense. -/
theorem RegistersAll.value_ids (h : RegistersAll PropRegistry.empty calls reg ids) {q : String}
    {i : ℕ} (hq : reg.properties.lookup q = some i) :
    ∃ n, reg.valueCount i = .ok (true, n) ∧
      ∀ j, j < n ↔ ∃ w, (q, w) ∈ calls ∧ reg.getValueId i w = .ok (true, j) := by
  have hlt := h.inStep.properties.lt hq
  obtain ⟨vals, names, hnames, hnumbers, hat⟩ := h.inStep.values_at hlt
  refine ⟨names.length, ?_, ?_⟩
  · unfold PropRegistry.valueCount
    rw [if_neg (by omega), getAt_ok.mpr hnames]
    rfl
  · intro j
    rw [hnumbers.lt_iff]
    constructor
    · rintro ⟨w, hw⟩
      rw [← hat] at hw
      exact ⟨w, h.valued hq hw, (h.inStep.getValueId_eq ..).mpr hw⟩
    · rintro ⟨w, -, hw⟩
      exact ⟨w, by rw [← hat]; exact (h.inStep.getValueId_eq ..).mp hw⟩

/-- Calls with the same pair return the same ids. -/
theorem RegistersAll.same_ids {reg₀ : PropRegistry} (h : RegistersAll reg₀ calls reg ids) {k l : ℕ}
    (hsame : calls[k]? = calls[l]?) : ids[k]? = ids[l]? := by
  by_cases hk : k < calls.length
  · obtain ⟨call, hcall⟩ : ∃ call, calls[k]? = some call := ⟨_, List.getElem?_eq_getElem hk⟩
    have hcall' : calls[l]? = some call := by rw [← hsame, hcall]
    have hl := (List.getElem?_eq_some_iff.mp hcall').1
    obtain ⟨id, hid⟩ : ∃ id, ids[k]? = some id :=
      ⟨_, List.getElem?_eq_getElem (by rw [h.ids_length]; exact hk)⟩
    obtain ⟨id', hid'⟩ : ∃ id, ids[l]? = some id :=
      ⟨_, List.getElem?_eq_getElem (by rw [h.ids_length]; exact hl)⟩
    obtain ⟨hproperty, hvalue⟩ := h.returned k call id hcall hid
    obtain ⟨hproperty', hvalue'⟩ := h.returned l call id' hcall' hid'
    rw [hproperty] at hproperty'
    have hfirst := Option.some.inj hproperty'
    rw [← hfirst, hvalue] at hvalue'
    rw [hid, hid', Option.some.injEq, Prod.ext_iff]
    exact ⟨hfirst, Option.some.inj hvalue'⟩
  · -- behind the last call nothing is returned
    have hnone : calls[l]? = none := by rw [← hsame, List.getElem?_eq_none (by omega)]
    have hl := List.getElem?_eq_none_iff.mp hnone
    rw [List.getElem?_eq_none (by rw [h.ids_length]; omega),
      List.getElem?_eq_none (by rw [h.ids_length]; omega)]

end Numbering

/-- `PropRegistry` is a stable dense numbering after any calls of `register_property`. -/
theorem registry_numbers (calls : List (String × String)) :
    ∃ reg ids, registerAll PropRegistry.empty calls = .ok (reg, ids) ∧
      StableNumbering calls reg ids := by
  obtain ⟨reg, ids, hrun, hall⟩ := empty_inStep.registerAll calls
  have hstep := hall.inStep
  refine ⟨reg, ids, hrun, ?_⟩
  constructor
  case property_ids =>
    intro i
    rw [PropRegistry.propCount, hstep.properties.lt_iff]
    constructor
    · rintro ⟨q, hq⟩
      exact ⟨q, hall.registered hq, (getPropertyId_eq ..).mpr hq⟩
    · rintro ⟨q, -, hq⟩
      exact ⟨q, (getPropertyId_eq ..).mp hq⟩
  case value_ids =>
    intro q i hq
    exact hall.value_ids ((getPropertyId_eq ..).mp hq)
  case property_inj =>
    intro q r i hq hr
    exact hstep.properties.inj ((getPropertyId_eq ..).mp hq) ((getPropertyId_eq ..).mp hr)
  case value_inj =>
    intro i v w j hv hw
    have hv := (hstep.getValueId_eq ..).mp hv
    have hw := (hstep.getValueId_eq ..).mp hw
    obtain ⟨vals, names, -, hnumbers, hat⟩ := hstep.values_at (hstep.lt_of_valueOf hv)
    rw [hat] at hv hw
    exact hnumbers.inj hv hw
  case returned =>
    intro k call id hcall hid
    obtain ⟨hproperty, hvalue⟩ := hall.returned k call id hcall hid
    exact ⟨(getPropertyId_eq ..).mpr hproperty, (hstep.getValueId_eq ..).mpr hvalue⟩
  case stable => exact ⟨hall.ids_length, fun k l hsame => hall.same_ids hsame⟩
  case unregistered =>
    refine ⟨?_, ?_, ?_⟩
    · intro q hq
      unfold PropRegistry.getPropertyId
      cases hfind : reg.properties.lookup q with
      | none => rfl
      | some i => exact absurd (hall.registered hfind) hq
    · intro q i w hq hw
      refine hstep.getValueId_none ?_
      cases hvalue : reg.valueOf i w with
      | none => rfl
      | some j => exact absurd (hall.valued ((getPropertyId_eq ..).mp hq) hvalue) hw
    · intro i w hi
      unfold PropRegistry.getValueId
      rw [if_pos (show i ≥ reg.propIndex.length from hi)]

/-! ## The properties of a node -/

/-- The value of a property that a node does not have: the largest `size_t`. -/
def noValue : ℕ := 2 ^ 64 - 1

/-- `add_reg_props`. -/
def addRegProps (regProps : List ℕ) (propid valueid : ℕ) : Run (List ℕ) :=
  let regProps :=
    if propid ≥ regProps.length then
      regProps ++ List.replicate (max 50 (propid - regProps.length)) noValue
    else regProps
  setAt regProps propid valueid

/-- `has_reg_prop`. -/
def hasRegProp (regProps : List ℕ) (propid valueid : ℕ) : Bool :=
  if propid ≥ regProps.length then false
  else regProps[propid]? == some valueid

/-- The vector of a new node. -/
def freshProps : List ℕ := List.replicate 100 noValue

/-- The calls of `add_reg_props` in this order. -/
def addAllProps (calls : List (ℕ × ℕ)) : Run (List ℕ) :=
  calls.foldlM (fun regProps call => addRegProps regProps call.1 call.2) freshProps

/-- No call writes outside, and each of them sets the value of its property and no other. -/
def NodePropsKept (calls : List (ℕ × ℕ)) : Prop :=
  ∀ done propid valueid rest, calls = done ++ (propid, valueid) :: rest →
    ∃ before after, addAllProps done = .ok before ∧
      addRegProps before propid valueid = .ok after ∧
      (∀ w, w < noValue → (hasRegProp after propid w = true ↔ w = valueid)) ∧
      ∀ q, q ≠ propid → ∀ w, w < noValue → hasRegProp after q w = hasRegProp before q w

/-- The property of the call lies less than 50 behind the end of the vector. -/
def PropsNear (calls : List (ℕ × ℕ)) : Prop :=
  ∀ done propid valueid rest, calls = done ++ (propid, valueid) :: rest →
    ∀ before, addAllProps done = .ok before → propid < before.length + 50

/-- A call near the end is written inside. -/
theorem addRegProps_ok {regProps : List ℕ} {propid : ℕ} (valueid : ℕ) :
    (∃ after, addRegProps regProps propid valueid = .ok after) ↔
      propid < regProps.length + 50 := by
  unfold addRegProps
  by_cases hend : propid ≥ regProps.length
  · simp only [if_pos hend, setAt_ok, List.length_append, List.length_replicate]
    constructor
    · rintro ⟨after, hlt, -⟩
      omega
    · intro hnear
      exact ⟨_, by omega, rfl⟩
  · simp only [if_neg hend, setAt_ok]
    constructor
    · rintro ⟨after, hlt, -⟩
      omega
    · intro _
      exact ⟨_, by omega, rfl⟩

/-- What `has_reg_prop` says of a real value. -/
theorem hasRegProp_eq (regProps : List ℕ) (q w : ℕ) :
    hasRegProp regProps q w = true ↔ regProps[q]? = some w := by
  unfold hasRegProp
  by_cases hq : q ≥ regProps.length
  · rw [if_pos hq, List.getElem?_eq_none hq]
    simp
  · rw [if_neg hq]
    simp

/-- A call sets the value of its property and no other. -/
theorem addRegProps_sets {regProps after : List ℕ} {propid valueid : ℕ}
    (h : addRegProps regProps propid valueid = .ok after) :
    (∀ w, hasRegProp after propid w = true ↔ w = valueid) ∧
    ∀ q, q ≠ propid → ∀ w, w < noValue → hasRegProp after q w = hasRegProp regProps q w := by
  unfold addRegProps at h
  simp only at h
  obtain ⟨hlt, rfl⟩ := setAt_ok.mp h
  refine ⟨?_, ?_⟩
  · intro w
    rw [hasRegProp_eq, List.getElem?_set_self hlt, Option.some.injEq]
    exact eq_comm
  · intro q hq w hw
    rw [Bool.eq_iff_iff, hasRegProp_eq, hasRegProp_eq, List.getElem?_set_ne (Ne.symm hq)]
    by_cases hend : propid ≥ regProps.length
    · rw [if_pos hend]
      by_cases hin : q < regProps.length
      · rw [List.getElem?_append_left hin]
      · rw [List.getElem?_append_right (by omega), List.getElem?_replicate,
          List.getElem?_eq_none (show regProps.length ≤ q by omega)]
        split
        · -- the cells of the resize hold no real value
          have hne : noValue ≠ w := by omega
          simp [hne]
        · simp
    · rw [if_neg hend]

/-- One more call. -/
theorem addAllProps_concat (calls : List (ℕ × ℕ)) (call : ℕ × ℕ) :
    addAllProps (calls ++ [call]) =
      (addAllProps calls >>= fun regProps => addRegProps regProps call.1 call.2) := by
  unfold addAllProps
  rw [List.foldlM_append]
  congr 1
  funext regProps
  rw [List.foldlM_cons]
  simp

/-- The registered properties of a node form a map, and nothing is written outside its vector,
exactly if every call is for a property less than 50 behind the end of the vector. -/
theorem node_props_iff (calls : List (ℕ × ℕ)) : NodePropsKept calls ↔ PropsNear calls := by
  constructor
  · intro hkept done propid valueid rest hsplit before hbefore
    obtain ⟨before', after, hdone, hadd, -⟩ := hkept done propid valueid rest hsplit
    rw [hbefore] at hdone
    cases hdone
    exact (addRegProps_ok valueid).mp ⟨after, hadd⟩
  · intro hnear done propid valueid rest hsplit
    have hdone : ∀ front back, calls = front ++ back →
        ∃ before, addAllProps front = .ok before := by
      intro front
      induction front using List.reverseRecOn with
      | nil =>
          intro back _
          exact ⟨freshProps, rfl⟩
      | append_singleton front call ih =>
          intro back hback
          rw [List.append_assoc] at hback
          obtain ⟨before, hbefore⟩ := ih _ hback
          obtain ⟨after, hadd⟩ := (addRegProps_ok call.2).mpr
            (hnear front call.1 call.2 back hback before hbefore)
          exact ⟨after, by rw [addAllProps_concat, hbefore]; exact hadd⟩
    obtain ⟨before, hbefore⟩ := hdone done _ hsplit
    obtain ⟨after, hadd⟩ := (addRegProps_ok valueid).mpr
      (hnear done propid valueid rest hsplit before hbefore)
    obtain ⟨hown, hothers⟩ := addRegProps_sets hadd
    exact ⟨before, after, hbefore, hadd, fun w _ => hown w, hothers⟩

/-- The first call is for a property 50 behind the end: it is written behind the vector. -/
theorem far_prop_outside : ¬ NodePropsKept [(150, 0)] := by
  intro hkept
  obtain ⟨before, after, hbefore, hadd, -⟩ := hkept [] 150 0 [] rfl
  cases hbefore
  have hnear := (addRegProps_ok 0).mp ⟨after, hadd⟩
  simp [freshProps] at hnear

end PlanSched
