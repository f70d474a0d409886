/-
# The attributes of a cluster

Models `store_cluster_attr` and `retrieve_cluster_attr` (`legacy/site_pbs_cache_common.c`), which
keep the attributes of a cluster in one text `name=value;name=value`.

An attribute is looked for by its name and the equals sign, wherever they stand, so it may be
found at the end of a longer name.  What stays of that name in front of it stays in the text.

* `retrieve_metricOf`: what is retrieved after any stores, in terms of a list of attributes;
* `cluster_attrs_iff`: the stores and the names for which that is the value stored last.
-/
import PlanSched.TextWords

namespace PlanSched

open TextSearch

/-! ## The code -/

/-- What is looked for in the text. -/
def attrPattern (name : List Char) : List Char := name ++ ['=']

/-- `store_cluster_attr`; `none` is the metric that was never set. -/
def storeClusterAttr (metric : Option (List Char)) (name value : List Char) : List Char :=
  let newMetric :=
    match metric with
    | none => none
    | some text =>
        match strstr (attrPattern name) text with
        | none => some text
        | some (front, pos) =>
            match strchr ';' pos with
            | none => some front
            | some (_, rest) => some (front ++ rest)
  match newMetric with
  | none => attrPattern name ++ value
  | some text => text ++ ';' :: (attrPattern name ++ value)

/-- The characters at which `strcspn` stops. -/
def isAttrEnd (c : Char) : Bool := c == ';' || c == ':' || c == '\n'

/-- `retrieve_cluster_attr`. -/
def retrieveClusterAttr (metric : Option (List Char)) (name : List Char) : Option (List Char) :=
  match metric with
  | none => none
  | some text =>
      match strstr (attrPattern name) text with
      | none => none
      | some (_, pos) =>
          let length := (pos.takeWhile (fun c => !isAttrEnd c)).length
          some ((pos.drop (name.length + 1)).take (length - name.length - 1))

/-! ## What was stored -/

/-- A name with its value. -/
structure ClusterAttr where
  name : List Char
  value : List Char
  deriving DecidableEq, Repr

/-- A text without `;`, `:`, `=` and newlines. -/
def PlainAttr (text : List Char) : Prop := ∀ c ∈ text, isAttrEnd c = false ∧ c ≠ '='

instance (text : List Char) : Decidable (PlainAttr text) := List.decidableBAll _ _

/-- Both texts of an attribute are plain. -/
def ClusterAttr.Plain (attr : ClusterAttr) : Prop := PlainAttr attr.name ∧ PlainAttr attr.value

instance (attr : ClusterAttr) : Decidable attr.Plain := inferInstanceAs (Decidable (_ ∧ _))

/-- The metric after these stores, starting from none. -/
def metricOf (stores : List ClusterAttr) : Option (List Char) :=
  stores.foldl (fun metric attr => some (storeClusterAttr metric attr.name attr.value)) none

/-- The value stored last under the name. -/
def lastStored (stores : List ClusterAttr) (name : List Char) : Option (List Char) :=
  (stores.reverse.find? (fun attr => attr.name = name)).map ClusterAttr.value

/-! ## The pieces of the text -/

/-- What stands between two semicolons: an attribute, or what is left of a name. -/
inductive Piece where
  | stored (attr : ClusterAttr)
  | left (text : List Char)

/-- The text of a piece. -/
def Piece.text : Piece → List Char
  | .stored attr => attr.name ++ '=' :: attr.value
  | .left text => text

/-- A piece of plain texts. -/
def Piece.Plain : Piece → Prop
  | .stored attr => attr.Plain
  | .left text => PlainAttr text

/-- The text of the pieces. -/
def joinPieces : List Piece → List Char
  | [] => []
  | piece :: pieces => piece.text ++ pieces.flatMap (fun piece => ';' :: piece.text)

/-- The attributes among the pieces. -/
def attrsOf (pieces : List Piece) : List ClusterAttr :=
  pieces.filterMap (fun piece =>
    match piece with
    | .stored attr => some attr
    | .left _ => none)

/-- Pieces in front of a piece and behind it. -/
theorem joinPieces_append (before : List Piece) (piece : Piece) (after : List Piece) :
    joinPieces (before ++ piece :: after) =
      before.flatMap (fun piece => piece.text ++ [';']) ++
        (piece.text ++ after.flatMap (fun piece => ';' :: piece.text)) := by
  induction before with
  | nil => rfl
  | cons first before ih =>
      rw [List.cons_append, joinPieces, List.flatMap_cons, List.append_assoc, ← ih]
      cases before with
      | nil => simp [joinPieces]
      | cons second before => simp [joinPieces]

/-- One more piece. -/
theorem joinPieces_concat {pieces : List Piece} (hne : pieces ≠ []) (piece : Piece) :
    joinPieces (pieces ++ [piece]) = joinPieces pieces ++ ';' :: piece.text := by
  cases pieces with
  | nil => exact absurd rfl hne
  | cons first pieces => simp [joinPieces]

/-! ## Searching a piece -/

/-- A plain text has no equals sign. -/
theorem PlainAttr.no_equals {text : List Char} (h : PlainAttr text) : '=' ∉ text :=
  fun hmem => (h '=' hmem).2 rfl

/-- A plain text has no semicolon. -/
theorem PlainAttr.no_semicolon {text : List Char} (h : PlainAttr text) : ';' ∉ text := by
  intro hmem
  have hend := (h ';' hmem).1
  cases hend

/-- A pattern has no semicolon. -/
theorem semicolon_notMem_pattern {name : List Char} (h : PlainAttr name) :
    ';' ∉ attrPattern name := by
  intro hmem
  rcases List.mem_append.mp hmem with hmem | hmem
  · exact h.no_semicolon hmem
  · rw [List.mem_singleton] at hmem
    cases hmem

/-- The equals sign of an attribute is the only one. -/
theorem equals_split {name value front behind : List Char} (hname : '=' ∉ name)
    (hvalue : '=' ∉ value) (h : name ++ '=' :: value = front ++ '=' :: behind) :
    name = front := by
  rcases List.append_eq_append_iff.mp h with ⟨rest, rfl, hrest⟩ | ⟨rest, rfl, hrest⟩
  · cases rest with
    | nil => simp
    | cons c rest =>
        rw [List.cons_append, List.cons.injEq] at hrest
        exact absurd (hrest.2 ▸ by simp) hvalue
  · cases rest with
    | nil => simp
    | cons c rest =>
        rw [List.cons_append, List.cons.injEq] at hrest
        exact absurd (hrest.1 ▸ by simp) hname

/-- In an attribute whose name ends with the one looked for. -/
theorem strstr_attr_some {name front value : List Char} (hfront : '=' ∉ front)
    (hname : '=' ∉ name) :
    strstr (attrPattern name) (front ++ name ++ '=' :: value) =
      some (front, name ++ '=' :: value) := by
  rw [List.append_assoc]
  refine strstr_append front ⟨value, by simp [attrPattern]⟩ ?_
  rintro skipped c rest rfl hpre
  -- the sign would stand within the name
  have hlong : attrPattern name <+: c :: rest ++ name := by
    refine List.prefix_of_prefix_length_le hpre ⟨'=' :: value, by simp⟩ ?_
    simp [attrPattern]
  have hmem : '=' ∈ c :: rest ++ name := hlong.subset (by simp [attrPattern])
  rcases List.mem_append.mp hmem with hmem | hmem
  · exact hfront (List.mem_append_right _ hmem)
  · exact hname hmem

/-- In an attribute with another name. -/
theorem strstr_attr_none {name : List Char} {attr : ClusterAttr} (hattr : attr.Plain)
    (h : ¬ name <:+ attr.name) :
    strstr (attrPattern name) (attr.name ++ '=' :: attr.value) = none := by
  rw [strstr_none_iff]
  rintro ⟨front, behind, hsplit⟩
  have hsame := equals_split hattr.1.no_equals hattr.2.no_equals
    (show attr.name ++ '=' :: attr.value = (front ++ name) ++ '=' :: behind by
      rw [← hsplit]
      simp [attrPattern])
  exact h ⟨front, hsame.symm⟩

/-- The attribute of a piece whose name ends with the one looked for. -/
def Piece.EndsWith (name : List Char) : Piece → Prop
  | .stored attr => name <:+ attr.name
  | .left _ => False

/-- A piece that is passed by a search. -/
theorem strstr_piece_none {name : List Char} {piece : Piece} (hplain : piece.Plain)
    (h : ¬ piece.EndsWith name) : strstr (attrPattern name) piece.text = none := by
  cases piece with
  | stored attr => exact strstr_attr_none hplain h
  | left text =>
      rw [strstr_none_iff]
      intro hin
      exact PlainAttr.no_equals hplain (hin.subset (by simp [attrPattern]))

/-- The search goes past the pieces of other names. -/
theorem strstr_past {name : List Char} (hname : PlainAttr name) (pieces : List Piece)
    (hplain : ∀ piece ∈ pieces, piece.Plain) (h : ∀ piece ∈ pieces, ¬ piece.EndsWith name)
    (s : List Char) :
    strstr (attrPattern name) (pieces.flatMap (fun piece => piece.text ++ [';']) ++ s) =
      (strstr (attrPattern name) s).map
        (fun r => (pieces.flatMap (fun piece => piece.text ++ [';']) ++ r.1, r.2)) := by
  induction pieces with
  | nil => simp
  | cons piece pieces ih =>
      have hpiece :=
        strstr_piece_none (hplain piece List.mem_cons_self) (h piece List.mem_cons_self)
      have hrest := ih (fun q hq => hplain q (List.mem_cons_of_mem piece hq))
        (fun q hq => h q (List.mem_cons_of_mem piece hq))
      rw [List.flatMap_cons, List.append_assoc, List.append_assoc, List.singleton_append,
        strstr_word_none (semicolon_notMem_pattern hname) ((strstr_none_iff _).mp hpiece), hrest,
        Option.map_map]
      refine congrArg (fun f => (strstr (attrPattern name) s).map f) ?_
      funext r
      simp

/-- Without a piece of such a name nothing is found. -/
theorem strstr_join_none {name : List Char} (hname : PlainAttr name) {pieces : List Piece}
    (hplain : ∀ piece ∈ pieces, piece.Plain) (h : ∀ piece ∈ pieces, ¬ piece.EndsWith name) :
    strstr (attrPattern name) (joinPieces pieces) = none := by
  rcases List.eq_nil_or_concat pieces with rfl | ⟨pieces, last, rfl⟩
  · rw [joinPieces, strstr, if_neg (by simp [attrPattern])]
  · rw [List.concat_eq_append] at hplain h ⊢
    rw [joinPieces_append, strstr_past hname pieces
      (fun q hq => hplain q (List.mem_append_left _ hq))
      (fun q hq => h q (List.mem_append_left _ hq)), List.flatMap_nil, List.append_nil,
      strstr_piece_none (hplain last (by simp)) (h last (by simp))]
    rfl

/-- The first piece of such a name is found, at the end of its name. -/
theorem strstr_join_some {name front : List Char} {attr : ClusterAttr} (hname : PlainAttr name)
    {before after : List Piece} (hplain : ∀ piece ∈ before, piece.Plain)
    (h : ∀ piece ∈ before, ¬ piece.EndsWith name) (hattr : attr.Plain)
    (hends : attr.name = front ++ name) :
    strstr (attrPattern name) (joinPieces (before ++ .stored attr :: after)) =
      some (before.flatMap (fun piece => piece.text ++ [';']) ++ front,
        name ++ '=' :: attr.value ++ after.flatMap (fun piece => ';' :: piece.text)) := by
  have hfront : '=' ∉ front := by
    intro hmem
    exact hattr.1.no_equals (by rw [hends]; exact List.mem_append_left _ hmem)
  have hhere : strstr (attrPattern name) (Piece.stored attr).text =
      some (front, name ++ '=' :: attr.value) := by
    rw [Piece.text, hends]
    exact strstr_attr_some hfront hname.no_equals
  rw [joinPieces_append, strstr_past hname before hplain h, strstr_some_append _ _ hhere]
  rfl

/-! ## The two operations -/

/-- The rest of the text behind an attribute. -/
theorem strchr_behind {text : List Char} (htext : ';' ∉ text) (after : List Piece) :
    (match strchr ';' (text ++ after.flatMap (fun piece => ';' :: piece.text)) with
      | none => []
      | some (_, rest) => rest) = after.flatMap (fun piece => ';' :: piece.text) := by
  cases after with
  | nil =>
      rw [List.flatMap_nil, List.append_nil, strchr_none_iff.mpr htext]
  | cons piece after =>
      rw [List.flatMap_cons, List.cons_append, strchr_append htext]

/-- The text of the first attribute of such a name, cut out of its piece. -/
theorem store_join_some {name value front : List Char} {attr : ClusterAttr}
    (hname : PlainAttr name) {before after : List Piece} (hplain : ∀ piece ∈ before, piece.Plain)
    (h : ∀ piece ∈ before, ¬ piece.EndsWith name) (hattr : attr.Plain)
    (hends : attr.name = front ++ name) :
    storeClusterAttr (some (joinPieces (before ++ .stored attr :: after))) name value =
      joinPieces (before ++ .left front :: after ++ [.stored ⟨name, value⟩]) := by
  have hnosep : ';' ∉ name ++ '=' :: attr.value := by
    intro hmem
    rcases List.mem_append.mp hmem with hmem | hmem
    · exact hname.no_semicolon hmem
    · rcases List.mem_cons.mp hmem with hmem | hmem
      · cases hmem
      · exact hattr.2.no_semicolon hmem
  have hbehind := strchr_behind hnosep after
  have hright : joinPieces (before ++ .left front :: after ++ [.stored ⟨name, value⟩]) =
      before.flatMap (fun piece => piece.text ++ [';']) ++
        (front ++ after.flatMap (fun piece => ';' :: piece.text)) ++
          ';' :: (name ++ '=' :: value) := by
    rw [joinPieces_concat (by simp), joinPieces_append]
    rfl
  rw [hright]
  unfold storeClusterAttr
  simp only [strstr_join_some hname hplain h hattr hends]
  cases hfind : strchr ';' (name ++ '=' :: attr.value ++
      after.flatMap (fun piece => ';' :: piece.text)) with
  | none =>
      rw [hfind] at hbehind
      simp only at hbehind
      simp [← hbehind, attrPattern]
  | some r =>
      obtain ⟨skipped, rest⟩ := r
      rw [hfind] at hbehind
      simp only at hbehind
      simp [hbehind, attrPattern]

/-- A new name is put behind the others. -/
theorem store_join_none {name value : List Char} (hname : PlainAttr name) {pieces : List Piece}
    (hne : pieces ≠ []) (hplain : ∀ piece ∈ pieces, piece.Plain)
    (h : ∀ piece ∈ pieces, ¬ piece.EndsWith name) :
    storeClusterAttr (some (joinPieces pieces)) name value =
      joinPieces (pieces ++ [.stored ⟨name, value⟩]) := by
  rw [joinPieces_concat hne]
  unfold storeClusterAttr
  simp only [strstr_join_none hname hplain h]
  simp [Piece.text, attrPattern]

/-- What is retrieved from the first attribute of such a name. -/
theorem retrieve_join_some {name front : List Char} {attr : ClusterAttr}
    (hname : PlainAttr name) {before after : List Piece} (hplain : ∀ piece ∈ before, piece.Plain)
    (h : ∀ piece ∈ before, ¬ piece.EndsWith name) (hattr : attr.Plain)
    (hends : attr.name = front ++ name) :
    retrieveClusterAttr (some (joinPieces (before ++ .stored attr :: after))) name =
      some attr.value := by
  unfold retrieveClusterAttr
  simp only [strstr_join_some hname hplain h hattr hends]
  have hall : ∀ c ∈ name ++ '=' :: attr.value, (!isAttrEnd c) = true := by
    intro c hc
    rcases List.mem_append.mp hc with hc | hc
    · simp [(hname c hc).1]
    · rcases List.mem_cons.mp hc with rfl | hc
      · rfl
      · simp [(hattr.2 c hc).1]
  have hstop : (after.flatMap (fun piece => ';' :: piece.text)).takeWhile
      (fun c => !isAttrEnd c) = [] := by
    cases after with
    | nil => rfl
    | cons piece after =>
        rw [List.flatMap_cons, List.cons_append, List.takeWhile_cons, if_neg (by decide)]
  rw [List.takeWhile_append_of_pos hall, hstop, List.append_nil]
  simp

/-- Without such a name nothing is retrieved. -/
theorem retrieve_join_none {name : List Char} (hname : PlainAttr name) {pieces : List Piece}
    (hplain : ∀ piece ∈ pieces, piece.Plain) (h : ∀ piece ∈ pieces, ¬ piece.EndsWith name) :
    retrieveClusterAttr (some (joinPieces pieces)) name = none := by
  unfold retrieveClusterAttr
  simp only [strstr_join_none hname hplain h]

/-! ## The attributes held -/

/-- What a store does to the attributes: the first one whose name ends with the name stored is
taken out, and the new one is put at the end. -/
def storeAttr (attrs : List ClusterAttr) (attr : ClusterAttr) : List ClusterAttr :=
  attrs.eraseP (fun other => attr.name <:+ other.name) ++ [attr]

/-- The attributes held after these stores. -/
def heldAttrs (stores : List ClusterAttr) : List ClusterAttr := stores.foldl storeAttr []

/-- The metric is the text of pieces with these attributes. -/
structure Holds (metric : Option (List Char)) (pieces : List Piece) (attrs : List ClusterAttr) :
    Prop where
  metric : metric = if pieces = [] then none else some (joinPieces pieces)
  plain : ∀ piece ∈ pieces, piece.Plain
  attrs : attrsOf pieces = attrs

/-- A piece of such a name, or none. -/
theorem exists_first_piece (name : List Char) (pieces : List Piece) :
    (∀ piece ∈ pieces, ¬ piece.EndsWith name) ∨
    ∃ before attr front after, pieces = before ++ .stored attr :: after ∧
      (∀ piece ∈ before, ¬ piece.EndsWith name) ∧ attr.name = front ++ name := by
  induction pieces with
  | nil =>
      left
      intro piece hpiece
      cases hpiece
  | cons piece pieces ih =>
      by_cases hends : piece.EndsWith name
      · right
        cases piece with
        | stored attr =>
            obtain ⟨front, hfront⟩ := hends
            exact ⟨[], attr, front, pieces, rfl, by simp, hfront.symm⟩
        | left text => cases hends
      · rcases ih with hnone | ⟨before, attr, front, after, rfl, hbefore, hname⟩
        · left
          intro other hother
          rcases List.mem_cons.mp hother with rfl | hother
          · exact hends
          · exact hnone other hother
        · right
          refine ⟨piece :: before, attr, front, after, rfl, ?_, hname⟩
          intro other hother
          rcases List.mem_cons.mp hother with rfl | hother
          · exact hends
          · exact hbefore other hother

/-- The attributes of pieces without such a name do not have it either. -/
theorem attrsOf_not_endsWith {name : List Char} {pieces : List Piece}
    (h : ∀ piece ∈ pieces, ¬ piece.EndsWith name) :
    ∀ attr ∈ attrsOf pieces, ¬ decide (name <:+ attr.name) = true := by
  intro attr hattr
  obtain ⟨piece, hpiece, heq⟩ := List.mem_filterMap.mp hattr
  cases piece with
  | stored other =>
      cases heq
      simpa [Piece.EndsWith] using h _ hpiece
  | left text => cases heq

/-- The attributes in front of a piece and behind it. -/
theorem attrsOf_append (before after : List Piece) :
    attrsOf (before ++ after) = attrsOf before ++ attrsOf after := List.filterMap_append

section Operations

variable {metric : Option (List Char)} {pieces : List Piece} {attrs : List ClusterAttr}

/-- A store keeps the metric a text of the attributes held. -/
theorem Holds.store (h : Holds metric pieces attrs) {attr : ClusterAttr} (hattr : attr.Plain) :
    ∃ pieces', Holds (some (storeClusterAttr metric attr.name attr.value)) pieces'
      (storeAttr attrs attr) := by
  have hnew : (Piece.stored attr).Plain := hattr
  obtain ⟨hmetric, hplain, rfl⟩ := h
  rcases exists_first_piece attr.name pieces with
    hnone | ⟨before, other, front, after, rfl, hbefore, hname⟩
  · -- nothing is taken out
    have herase : (attrsOf pieces).eraseP (fun other => attr.name <:+ other.name) =
        attrsOf pieces := List.eraseP_of_forall_not (attrsOf_not_endsWith hnone)
    refine ⟨pieces ++ [.stored attr], ?_, ?_, ?_⟩
    · rw [if_neg (by simp)]
      by_cases hnil : pieces = []
      · subst hnil
        rw [hmetric, if_pos rfl]
        simp [storeClusterAttr, joinPieces, Piece.text, attrPattern]
      · rw [hmetric, if_neg hnil, store_join_none hattr.1 hnil hplain hnone]
    · intro piece hpiece
      rcases List.mem_append.mp hpiece with hpiece | hpiece
      · exact hplain piece hpiece
      · rw [List.mem_singleton.mp hpiece]
        exact hnew
    · rw [storeAttr, herase, attrsOf_append]
      rfl
  · have hother : other.Plain := hplain (.stored other) (by simp)
    have herase : (attrsOf (before ++ .stored other :: after)).eraseP
        (fun other => attr.name <:+ other.name) = attrsOf before ++ attrsOf after := by
      rw [attrsOf_append, List.eraseP_append_right _ (attrsOf_not_endsWith hbefore)]
      congr 1
      exact List.eraseP_cons_of_pos (by simp [hname])
    refine ⟨before ++ .left front :: after ++ [.stored attr], ?_, ?_, ?_⟩
    · rw [if_neg (by simp), hmetric, if_neg (by simp),
        store_join_some hattr.1 (fun q hq => hplain q (List.mem_append_left _ hq)) hbefore hother
          hname]
    · intro piece hpiece
      simp only [List.mem_append, List.mem_cons, List.not_mem_nil, or_false] at hpiece
      rcases hpiece with (hpiece | rfl | hpiece) | rfl
      · exact hplain piece (by simp [hpiece])
      · intro c hc
        exact hother.1 c (by rw [hname]; exact List.mem_append_left _ hc)
      · exact hplain piece (by simp [hpiece])
      · exact hnew
    · rw [storeAttr, herase, attrsOf_append, attrsOf_append]
      rfl

/-- What is retrieved is the value of the first attribute whose name ends with the one asked. -/
theorem Holds.retrieve (h : Holds metric pieces attrs) {name : List Char}
    (hname : PlainAttr name) :
    retrieveClusterAttr metric name =
      (attrs.find? (fun attr => name <:+ attr.name)).map ClusterAttr.value := by
  obtain ⟨hmetric, hplain, rfl⟩ := h
  rcases exists_first_piece name pieces with
    hnone | ⟨before, other, front, after, rfl, hbefore, hother⟩
  · rw [List.find?_eq_none.mpr (attrsOf_not_endsWith hnone), hmetric]
    by_cases hnil : pieces = []
    · rw [if_pos hnil]
      rfl
    · rw [if_neg hnil, retrieve_join_none hname hplain hnone]
      rfl
  · rw [hmetric, if_neg (by simp),
      retrieve_join_some hname (fun q hq => hplain q (List.mem_append_left _ hq)) hbefore
        (hplain (.stored other) (by simp)) hother, attrsOf_append, List.find?_append,
      List.find?_eq_none.mpr (attrsOf_not_endsWith hbefore)]
    simp [attrsOf, hother]

end Operations

/-- One more store. -/
theorem metricOf_concat (stores : List ClusterAttr) (attr : ClusterAttr) :
    metricOf (stores ++ [attr]) =
      some (storeClusterAttr (metricOf stores) attr.name attr.value) := by
  rw [metricOf, List.foldl_append]
  rfl

/-- The metric holds the attributes held. -/
theorem metricOf_holds {stores : List ClusterAttr} (hplain : ∀ attr ∈ stores, attr.Plain) :
    ∃ pieces, Holds (metricOf stores) pieces (heldAttrs stores) := by
  induction stores using List.reverseRecOn with
  | nil => exact ⟨[], rfl, by simp, rfl⟩
  | append_singleton stores attr ih =>
      obtain ⟨pieces, hholds⟩ :=
        ih (fun other hother => hplain other (List.mem_append_left _ hother))
      rw [metricOf_concat, heldAttrs, List.foldl_append]
      exact hholds.store (hplain attr (by simp))

/-- What is retrieved after any stores of plain texts. -/
theorem retrieve_metricOf {stores : List ClusterAttr} (hplain : ∀ attr ∈ stores, attr.Plain)
    {name : List Char} (hname : PlainAttr name) :
    retrieveClusterAttr (metricOf stores) name =
      ((heldAttrs stores).find? (fun attr => name <:+ attr.name)).map ClusterAttr.value := by
  obtain ⟨pieces, hholds⟩ := metricOf_holds hplain
  exact hholds.retrieve hname

/-! ## The attributes as a map -/

/-- The attributes as they should be: the last one stored under each name, in the order in which
they were stored last. -/
def latestAttrs (stores : List ClusterAttr) : List ClusterAttr :=
  stores.foldl (fun attrs attr => attrs.filter (fun other => other.name ≠ attr.name) ++ [attr]) []

/-- Of the names that end with this one, the one stored last the longest ago is the name
itself. -/
def NameFits (stores : List ClusterAttr) (name : List Char) : Prop :=
  ∀ attr, (latestAttrs stores).find? (fun attr => name <:+ attr.name) = some attr →
    attr.name = name

/-- Every store is under a name that fits the stores before. -/
def StoresFit (stores : List ClusterAttr) : Prop :=
  ∀ done attr rest, stores = done ++ attr :: rest → NameFits done attr.name

/-- One more store. -/
theorem latestAttrs_concat (stores : List ClusterAttr) (attr : ClusterAttr) :
    latestAttrs (stores ++ [attr]) =
      (latestAttrs stores).filter (fun other => other.name ≠ attr.name) ++ [attr] := by
  rw [latestAttrs, List.foldl_append]
  rfl

/-- Each name is there once. -/
theorem latestAttrs_nodup (stores : List ClusterAttr) :
    ((latestAttrs stores).map ClusterAttr.name).Nodup := by
  induction stores using List.reverseRecOn with
  | nil => exact List.nodup_nil
  | append_singleton stores attr ih =>
      rw [latestAttrs_concat, List.map_append, List.map_singleton]
      refine List.Nodup.append (ih.sublist (List.filter_sublist.map _))
        (List.nodup_singleton _) ?_
      intro name hname hattr
      rw [List.mem_singleton] at hattr
      obtain ⟨other, hother, rfl⟩ := List.mem_map.mp hname
      simp [hattr] at hother

/-- The attribute of a name is the last one stored. -/
theorem find?_latestAttrs (stores : List ClusterAttr) (name : List Char) :
    ((latestAttrs stores).find? (fun attr => attr.name = name)).map ClusterAttr.value =
      lastStored stores name := by
  induction stores using List.reverseRecOn with
  | nil => rfl
  | append_singleton stores attr ih =>
      rw [latestAttrs_concat, List.find?_append, lastStored, List.reverse_append,
        List.reverse_singleton, List.singleton_append]
      by_cases hattr : attr.name = name
      · have hnone : ((latestAttrs stores).filter (fun other => other.name ≠ attr.name)).find?
            (fun attr => attr.name = name) = none := by
          rw [List.find?_eq_none]
          intro other hother
          have hne := (List.mem_filter.mp hother).2
          rw [hattr] at hne
          simpa using hne
        rw [hnone]
        simp [hattr]
      · have hkept : ((latestAttrs stores).filter (fun other => other.name ≠ attr.name)).find?
            (fun attr => attr.name = name) =
            (latestAttrs stores).find? (fun attr => attr.name = name) := by
          rw [List.find?_filter]
          congr 1
          funext other
          by_cases hother : other.name = name
          · have hne : other.name ≠ attr.name := fun h => hattr (h.symm.trans hother)
            simp [hother, Ne.symm hattr]
          · simp [hother]
        have hskip : ∀ attrs : List ClusterAttr,
            (attr :: attrs).find? (fun attr => attr.name = name) =
              attrs.find? (fun attr => attr.name = name) :=
          fun attrs => List.find?_cons_of_neg (by simpa using hattr)
        rw [hkept, hskip [], hskip stores.reverse, List.find?_nil, Option.or_none, ih]
        rfl

/-- The stores that fit leave the attributes as they should be. -/
theorem heldAttrs_eq {stores : List ClusterAttr} (hfit : StoresFit stores) :
    heldAttrs stores = latestAttrs stores := by
  induction stores using List.reverseRecOn with
  | nil => rfl
  | append_singleton stores attr ih =>
      have hbefore : StoresFit stores := by
        intro done other rest hsplit
        exact hfit done other (rest ++ [attr]) (by rw [hsplit]; simp)
      have hname := hfit stores attr [] rfl
      have hnodup := latestAttrs_nodup stores
      rw [latestAttrs_concat, heldAttrs, List.foldl_append]
      show storeAttr (heldAttrs stores) attr = _
      rw [ih hbefore, storeAttr]
      congr 1
      cases hfind : (latestAttrs stores).find? (fun other => attr.name <:+ other.name) with
      | none =>
          -- no name is like it
          have hnone := List.find?_eq_none.mp hfind
          rw [List.eraseP_of_forall_not hnone, eq_comm, List.filter_eq_self]
          intro other hother
          have hno := hnone other hother
          simp only [decide_eq_true_eq] at hno ⊢
          intro heq
          exact hno (by rw [heq])
      | some other =>
          have hsame := hname other hfind
          obtain ⟨before, after, hsplit, hnot⟩ := List.find?_eq_some_iff_append.mp hfind |>.2
          rw [hsplit] at hnodup ⊢
          simp only [List.map_append, List.map_cons] at hnodup
          obtain ⟨-, hafter, hdisjoint⟩ := List.nodup_append.mp hnodup
          have hkeep : ∀ l : List ClusterAttr, (∀ a ∈ l, a.name ≠ attr.name) →
              l.filter (fun a => a.name ≠ attr.name) = l := by
            intro l hl
            rw [List.filter_eq_self]
            intro a ha
            simpa using hl a ha
          rw [List.eraseP_append_right _ (by simpa using hnot),
            List.eraseP_cons_of_pos (by simp [hsame]), List.filter_append, hkeep before,
            List.filter_cons_of_neg (by simp [hsame]), hkeep after]
          · intro a ha heq
            refine (List.nodup_cons.mp hafter).1 ?_
            rw [hsame, ← heq]
            exact List.mem_map_of_mem ha
          · intro a ha heq
            refine hdisjoint a.name (List.mem_map_of_mem ha) other.name List.mem_cons_self ?_
            rw [heq, hsame]

/-- After stores that all fit, the value retrieved for a name is the one stored last under it if
and only if the first of the names that end with it is the name itself, or has the same value. -/
theorem cluster_attrs_iff {stores : List ClusterAttr} (hplain : ∀ attr ∈ stores, attr.Plain)
    (hfit : StoresFit stores) {name : List Char} (hname : PlainAttr name) :
    retrieveClusterAttr (metricOf stores) name = lastStored stores name ↔
      ∀ attr, (latestAttrs stores).find? (fun attr => name <:+ attr.name) = some attr →
        attr.name = name ∨ lastStored stores name = some attr.value := by
  rw [retrieve_metricOf hplain hname, heldAttrs_eq hfit]
  cases hfind : (latestAttrs stores).find? (fun attr => name <:+ attr.name) with
  | none =>
      have hnone : (latestAttrs stores).find? (fun attr => attr.name = name) = none := by
        rw [List.find?_eq_none] at hfind ⊢
        intro attr hattr heq
        have hno := hfind attr hattr
        simp only [decide_eq_true_eq] at hno heq
        exact hno (by rw [heq])
      rw [← find?_latestAttrs, hnone]
      simp
  | some attr =>
      simp only [Option.map_some, Option.some.injEq, forall_eq']
      constructor
      · intro heq
        exact Or.inr heq.symm
      · rintro (heq | heq)
        · -- the first one that ends with the name is the first one of that name
          obtain ⟨before, after, hsplit, hnot⟩ := (List.find?_eq_some_iff_append.mp hfind).2
          have hfirst : (latestAttrs stores).find? (fun attr => attr.name = name) = some attr := by
            rw [List.find?_eq_some_iff_append]
            refine ⟨by simpa using heq, before, after, hsplit, ?_⟩
            intro other hother
            have hno := hnot other hother
            simp only [Bool.not_eq_eq_eq_not, Bool.not_true, decide_eq_false_iff_not] at hno ⊢
            intro hsame
            exact hno (by rw [hsame])
          rw [← find?_latestAttrs, hfirst]
          rfl
        · exact heq.symm

/-- An owner and a group, each of them stored again. -/
def ownerAndGroup : List ClusterAttr :=
  [⟨"owner".toList, "alice".toList⟩, ⟨"group".toList, "a".toList⟩,
    ⟨"owner".toList, "bob".toList⟩, ⟨"group".toList, "b".toList⟩]

/-- None of the four stores meets the end of another name, and the owner is the last one. -/
theorem cluster_attrs_owner :
    retrieveClusterAttr (metricOf ownerAndGroup) "owner".toList =
      lastStored ownerAndGroup "owner".toList := by
  have hplain : ∀ attr ∈ ownerAndGroup, attr.Plain := by decide
  have hfit : StoresFit ownerAndGroup := by
    intro done attr rest hsplit
    match done with
    | [] =>
        cases hsplit
        unfold NameFits
        decide
    | [_] =>
        cases hsplit
        unfold NameFits
        intro attr hattr
        cases hattr
    | [_, _] =>
        cases hsplit
        intro attr hattr
        cases hattr
        rfl
    | [_, _, _] =>
        cases hsplit
        intro attr hattr
        cases hattr
        rfl
    | _ :: _ :: _ :: _ :: _ => simp [ownerAndGroup] at hsplit
  refine (cluster_attrs_iff hplain hfit ?_).mpr ?_
  · decide
  · intro attr hattr
    cases hattr
    exact Or.inl rfl

/-- Storing `group` takes `admin_group` out of the text. -/
theorem stored_attr_lost :
    ¬ retrieveClusterAttr
        (metricOf [⟨"admin_group".toList, "a".toList⟩, ⟨"group".toList, "b".toList⟩])
        "admin_group".toList =
      lastStored [⟨"admin_group".toList, "a".toList⟩, ⟨"group".toList, "b".toList⟩]
        "admin_group".toList := by
  decide +kernel

end PlanSched
