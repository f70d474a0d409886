/-
# Limit lines, read whole or in part

`parse_limit` (`parse.cpp`) makes the entry of a cluster and a number of CPUs before it reads the
first triple, appends to the three vectors one value at a time while it is still reading, and
takes nothing back when the text turns out to be wrong.  It follows what `strchr` returns without
looking whether the text has a colon.

* `LimitText` says what a limit line is: the name of a cluster, a number of CPUs, and triples;
* `ReadsTriples` is how the loop cuts any text, well-formed or not, and where it stops;
  `parseLimitLoop_reads` says that the loop appends what it cuts, `LimitText.reads` that it cuts a
  limit line into its triples;
* `parsesAtomically_iff`: when a call takes a line whole or leaves the limits alone;
* `parseConfig_limits`: a configuration file changes the limits by its limit lines only, and
  `equalLengths_parseConfig_iff` says after which files the three vectors of every entry have the
  same length;
* `limit_lines_iff` is both.
-/
import PlanSched.ConfigLines

namespace PlanSched

open CheckedRun CText

/-! ## Entries -/

/-- The entry of a cluster and a number of CPUs. -/
def limitEntry (limits : LimitsForClusters) (cluster : String) (numCpus : ℤ) :
    Option ClusterLimitsArrays :=
  (limits.lookup cluster).bind (fun m => m.entries.lookup numCpus)

/-- The limits with other arrays at an entry, which is made if it is not there. -/
def setLimits (limits : LimitsForClusters) (cluster : String) (numCpus : ℤ)
    (arrays : ClusterLimitsArrays) : LimitsForClusters :=
  updateCluster limits cluster (fun m => m.modify numCpus ⟨[], [], []⟩ (fun _ => arrays))

variable {limits limits' : LimitsForClusters} {cluster : String} {numCpus : ℤ}
  {arrays : ClusterLimitsArrays}

/-- Updating a cluster, seen from any name. -/
theorem lookup_updateCluster (limits : LimitsForClusters) (cluster cluster' : String)
    (f : OrderedMap ClusterLimitsArrays → OrderedMap ClusterLimitsArrays) :
    (updateCluster limits cluster f).lookup cluster'
      = if cluster' = cluster then some (f ((limits.lookup cluster).getD OrderedMap.empty))
        else limits.lookup cluster' := by
  have hcons : ∀ (name : String) (m : OrderedMap ClusterLimitsArrays) (rest : LimitsForClusters)
      (key : String), List.lookup key ((name, m) :: rest)
        = if key = name then some m else rest.lookup key := by
    intro name m rest key
    by_cases h : key = name
    · rw [if_pos h, List.lookup_cons, h, beq_self_eq_true]
    · rw [if_neg h, List.lookup_cons, beq_false_of_ne h]
  induction limits with
  | nil =>
      rw [updateCluster, hcons]
      rfl
  | cons entry limits ih =>
      obtain ⟨name, m⟩ := entry
      rw [updateCluster]
      by_cases hname : name = cluster
      · rw [if_pos hname, hname, hcons, hcons, hcons, if_pos rfl, Option.getD_some]
        by_cases h : cluster' = cluster
        · rw [if_pos h, if_pos h]
        · rw [if_neg h, if_neg h, if_neg h]
      · rw [if_neg hname, hcons, ih, hcons, hcons, if_neg (Ne.symm hname)]
        by_cases h : cluster' = cluster
        · rw [if_neg (by rw [h]; exact Ne.symm hname), if_pos h, if_pos h]
        · rw [if_neg h, if_neg h]

/-- Setting an entry, seen from any cluster and number of CPUs. -/
theorem limitEntry_setLimits (limits : LimitsForClusters) (cluster cluster' : String)
    (numCpus numCpus' : ℤ) (arrays : ClusterLimitsArrays) :
    limitEntry (setLimits limits cluster numCpus arrays) cluster' numCpus'
      = if cluster' = cluster ∧ numCpus' = numCpus then some arrays
        else limitEntry limits cluster' numCpus' := by
  unfold limitEntry setLimits
  rw [lookup_updateCluster]
  by_cases hcluster : cluster' = cluster
  · rw [if_pos hcluster, Option.bind_some, OrderedMap.lookup_modify]
    by_cases hcpus : numCpus' = numCpus
    · rw [if_pos hcpus, if_pos ⟨hcluster, hcpus⟩]
    · rw [if_neg hcpus, if_neg (fun h => hcpus h.2), hcluster]
      cases limits.lookup cluster with
      | none => rfl
      | some m => rfl
  · rw [if_neg hcluster, if_neg (fun h => hcluster h.1)]

/-- Updating a cluster to what it is changes nothing. -/
theorem updateCluster_eq_self {m : OrderedMap ClusterLimitsArrays}
    {f : OrderedMap ClusterLimitsArrays → OrderedMap ClusterLimitsArrays}
    (h : limits.lookup cluster = some m) (hf : f m = m) :
    updateCluster limits cluster f = limits := by
  induction limits with
  | nil => cases h
  | cons entry limits ih =>
      obtain ⟨name, m'⟩ := entry
      rw [updateCluster]
      by_cases hname : name = cluster
      · rw [hname, List.lookup_cons, beq_self_eq_true] at h
        rw [if_pos hname, Option.some.inj h, hf]
      · have hname' : cluster ≠ name := Ne.symm hname
        rw [List.lookup_cons, beq_false_of_ne hname'] at h
        rw [if_neg hname, ih h]

/-- Setting an entry changes nothing exactly if it is there with these arrays. -/
theorem setLimits_eq_self_iff :
    setLimits limits cluster numCpus arrays = limits
      ↔ limitEntry limits cluster numCpus = some arrays := by
  constructor
  · intro h
    have hentry := limitEntry_setLimits limits cluster cluster numCpus numCpus arrays
    rw [h, if_pos ⟨rfl, rfl⟩] at hentry
    exact hentry
  · intro h
    unfold limitEntry at h
    cases hcluster : limits.lookup cluster with
    | none =>
        rw [hcluster] at h
        cases h
    | some m =>
        rw [hcluster, Option.bind_some] at h
        exact updateCluster_eq_self hcluster (OrderedMap.modify_eq_self h rfl)

/-! ## The triples of a text -/

/-- A threshold with its two percentages. -/
structure LimitTriple where
  treshold : ℤ
  percentage : CFloat
  percentageGlobal : CFloat
  deriving DecidableEq, Repr

/-- The word is a whole number, perhaps with blanks in front. -/
def LongWord (word : List Char) (n : ℤ) : Prop := word ≠ [] ∧ strtol word = (n, [])

/-- The word is a whole floating-point number, perhaps with blanks in front. -/
def FloatWord (word : List Char) (x : CFloat) : Prop := word ≠ [] ∧ strtof word = (x, [])

/-- A threshold and two percentages, with commas between them. -/
def TripleText (text : List Char) (triple : LimitTriple) : Prop :=
  ∃ treshold percentage percentageGlobal,
    text = treshold ++ ',' :: (percentage ++ ',' :: percentageGlobal) ∧
      LongWord treshold triple.treshold ∧ FloatWord percentage triple.percentage ∧
      FloatWord percentageGlobal triple.percentageGlobal

/-- The number of CPUs, which is 0 where it is left out. -/
def CpusText (text : List Char) (numCpus : ℤ) : Prop :=
  (text = [] ∧ numCpus = 0) ∨ ∃ n, LongWord text n ∧ numCpus = toInt n

/-- **The text of a limit line**: the name of the cluster, a colon, the number of CPUs, and the
triples, each behind a semicolon; a last semicolon may follow. -/
def LimitText (value cluster : String) (numCpus : ℤ) (triples : List LimitTriple) : Prop :=
  ∃ cpus texts theEnd,
    value.toList = cluster.toList ++ ':' :: (cpus ++ (texts.flatMap (';' :: ·) ++ theEnd)) ∧
      ':' ∉ cluster.toList ∧ CpusText cpus numCpus ∧ List.Forall₂ TripleText texts triples ∧
      (theEnd = [] ∨ theEnd = [';'])

example : LimitText "main:8;3600,0.5,0.75;" "main" 8
    [⟨3600, .finite (1 / 2), .finite (3 / 4)⟩] :=
  ⟨"8".toList, ["3600,0.5,0.75".toList], [';'], rfl, by decide,
    Or.inr ⟨8, ⟨by decide, by decide +kernel⟩, rfl⟩,
    .cons ⟨"3600".toList, "0.5".toList, "0.75".toList, rfl, ⟨by decide, by decide +kernel⟩,
      ⟨by decide, by decide +kernel⟩, by decide, by decide +kernel⟩ .nil, Or.inr rfl⟩

/-- How the loop stops: with nothing that announces another triple, before a threshold that
nothing follows, or with such a threshold and a percentage that nothing follows. -/
inductive LimitEnd : Type where
  | complete
  | atTreshold
  | atPercentage (treshold : ℤ)
  deriving DecidableEq, Repr

/-- Another triple is announced. -/
def MoreTriples (text : List Char) : Prop := text.head? = some ';' ∧ text.tail ≠ []

/-- How the loop cuts a text: the triples it takes, each announced by a semicolon, and where it
stops.  Between two numbers it skips one character, whichever it is. -/
inductive ReadsTriples : List Char → List LimitTriple → LimitEnd → Prop
  | complete {text : List Char} (h : ¬ MoreTriples text) : ReadsTriples text [] .complete
  | atTreshold {text : List Char} (h : MoreTriples text) (hend : (strtol text.tail).2.tail = []) :
      ReadsTriples text [] .atTreshold
  | atPercentage {text : List Char} (h : MoreTriples text)
      (hmore : (strtol text.tail).2.tail ≠ [])
      (hend : (strtof (strtol text.tail).2.tail).2.tail = []) :
      ReadsTriples text [] (.atPercentage (strtol text.tail).1)
  | triple {text : List Char} {triples : List LimitTriple} {theEnd : LimitEnd}
      (h : MoreTriples text) (hmore : (strtol text.tail).2.tail ≠ [])
      (hmore' : (strtof (strtol text.tail).2.tail).2.tail ≠ [])
      (rest : ReadsTriples (strtof (strtof (strtol text.tail).2.tail).2.tail).2 triples theEnd) :
      ReadsTriples text
        (⟨(strtol text.tail).1, (strtof (strtol text.tail).2.tail).1,
          (strtof (strtof (strtol text.tail).2.tail).2.tail).1⟩ :: triples) theEnd

/-- A text is cut in one way. -/
theorem ReadsTriples.unique {text : List Char} {triples triples' : List LimitTriple}
    {theEnd theEnd' : LimitEnd} (h : ReadsTriples text triples theEnd)
    (h' : ReadsTriples text triples' theEnd') : triples = triples' ∧ theEnd = theEnd' := by
  induction h generalizing triples' theEnd' with
  | complete h =>
      cases h' with
      | complete _ => exact ⟨rfl, rfl⟩
      | atTreshold hmore _ => exact absurd hmore h
      | atPercentage hmore _ _ => exact absurd hmore h
      | triple hmore _ _ _ => exact absurd hmore h
  | atTreshold h hend =>
      cases h' with
      | complete hnone => exact absurd h hnone
      | atTreshold _ _ => exact ⟨rfl, rfl⟩
      | atPercentage _ hmore _ => exact absurd hend hmore
      | triple _ hmore _ _ => exact absurd hend hmore
  | atPercentage h hmore hend =>
      cases h' with
      | complete hnone => exact absurd h hnone
      | atTreshold _ hend' => exact absurd hend' hmore
      | atPercentage _ _ _ => exact ⟨rfl, rfl⟩
      | triple _ _ hmore' _ => exact absurd hend hmore'
  | triple h hmore hmore' rest ih =>
      cases h' with
      | complete hnone => exact absurd h hnone
      | atTreshold _ hend => exact absurd hend hmore
      | atPercentage _ _ hend => exact absurd hend hmore'
      | triple _ _ _ rest' =>
          obtain ⟨htriples, hend⟩ := ih rest'
          exact ⟨by rw [htriples], hend⟩

/-- The arrays with more triples. -/
def ClusterLimitsArrays.append (arrays : ClusterLimitsArrays) (triples : List LimitTriple) :
    ClusterLimitsArrays where
  percentages := arrays.percentages ++ triples.map LimitTriple.percentage
  percentagesGlobal := arrays.percentagesGlobal ++ triples.map LimitTriple.percentageGlobal
  tresholds := arrays.tresholds ++ triples.map LimitTriple.treshold

/-- The arrays with what has been pushed at the end. -/
def ClusterLimitsArrays.push (arrays : ClusterLimitsArrays) : LimitEnd → ClusterLimitsArrays
  | .complete => arrays
  | .atTreshold => arrays
  | .atPercentage treshold => { arrays with tresholds := arrays.tresholds ++ [treshold] }

/-- What `parse_limit` returns at the end. -/
def LimitEnd.code : LimitEnd → ℤ
  | complete => 0
  | atTreshold => 1
  | atPercentage _ => 1

/-- The loop appends the triples it takes. -/
theorem parseLimitLoop_reads (fuel : ℕ) : ∀ {text : List Char} (arrays : ClusterLimitsArrays),
    text.length < fuel → ∃ triples theEnd, ReadsTriples text triples theEnd ∧
      parseLimitLoop fuel text arrays = .ok (theEnd.code, (arrays.append triples).push theEnd) := by
  induction fuel with
  | zero => exact fun _ h => absurd h (Nat.not_lt_zero _)
  | succ fuel ih =>
      intro text arrays hlen
      have hnil : arrays.append [] = arrays := by simp [ClusterLimitsArrays.append]
      rw [parseLimitLoop]
      by_cases h : MoreTriples text
      · rw [if_pos (show text.head? = some ';' ∧ text.tail ≠ [] from h)]
        dsimp only
        by_cases hmore : (strtol text.tail).2.tail = []
        · rw [if_pos hmore]
          exact ⟨[], .atTreshold, .atTreshold h hmore, by rw [hnil]; rfl⟩
        · rw [if_neg hmore]
          by_cases hmore' : (strtof (strtol text.tail).2.tail).2.tail = []
          · rw [if_pos hmore']
            exact ⟨[], _, .atPercentage h hmore hmore', by rw [hnil]; rfl⟩
          · rw [if_neg hmore']
            have hshort : (strtof (strtof (strtol text.tail).2.tail).2.tail).2.length < fuel := by
              have h₁ := (strtol_suffix text.tail).length_le
              have h₂ := (strtof_suffix (strtol text.tail).2.tail).length_le
              have h₃ := (strtof_suffix (strtof (strtol text.tail).2.tail).2.tail).length_le
              have hpos := List.length_pos_of_ne_nil h.2
              rw [List.length_tail] at h₁ h₂ h₃ hpos
              omega
            obtain ⟨triples, theEnd, hreads, hloop⟩ := ih
              ⟨arrays.percentages ++ [(strtof (strtol text.tail).2.tail).1],
                arrays.percentagesGlobal
                  ++ [(strtof (strtof (strtol text.tail).2.tail).2.tail).1],
                arrays.tresholds ++ [(strtol text.tail).1]⟩ hshort
            refine ⟨_, theEnd, .triple h hmore hmore' hreads, hloop.trans ?_⟩
            simp [ClusterLimitsArrays.append]
      · rw [if_neg (show ¬ (text.head? = some ';' ∧ text.tail ≠ []) from h)]
        exact ⟨[], .complete, .complete h, by rw [hnil]; rfl⟩

/-! ## A call -/

/-- The name of the cluster, before the first colon. -/
def limitCluster (value : String) : String := String.ofList (value.toList.takeWhile (· ≠ ':'))

/-- The number of CPUs behind the colon. -/
def limitCpus (value : String) : ℤ := toInt (strtol (value.toList.dropWhile (· ≠ ':')).tail).1

/-- The text behind the number of CPUs. -/
def limitRest (value : String) : List Char := (strtol (value.toList.dropWhile (· ≠ ':')).tail).2

/-- The entry a text is for, as the call finds it. -/
def limitArrays (limits : LimitsForClusters) (value : String) : ClusterLimitsArrays :=
  limitStruct limits (limitCluster value) (limitCpus value)

variable {value : String}

/-- Without a colon `NULL` is followed. -/
theorem parseLimit_noColon (h : ':' ∉ value.toList) :
    parseLimit limits value = .error .nullPointer := by
  unfold parseLimit
  have hnil : value.toList.dropWhile (· ≠ ':') = [] := by
    rw [List.dropWhile_eq_nil_iff]
    intro c hc
    refine decide_eq_true ?_
    rintro rfl
    exact h hc
  simp only [if_pos hnil]

/-- A text that has one. -/
theorem dropWhile_colon_ne_nil (h : ':' ∈ value.toList) :
    value.toList.dropWhile (· ≠ ':') ≠ [] := by
  intro hnil
  rw [List.dropWhile_eq_nil_iff] at hnil
  simpa using hnil ':' h

/-- Without a semicolon behind the number of CPUs nothing is read. -/
theorem parseLimit_noSemicolon (h : ':' ∈ value.toList)
    (hrest : (limitRest value).head? ≠ some ';') :
    parseLimit limits value = .ok (1, limits) := by
  unfold limitRest at hrest
  unfold parseLimit
  simp only [if_neg (dropWhile_colon_ne_nil h)]
  rw [if_pos hrest]
  rfl

/-- Otherwise the entry is set to what the loop makes of it. -/
theorem parseLimit_reads (limits : LimitsForClusters) (h : ':' ∈ value.toList)
    (hrest : (limitRest value).head? = some ';') :
    ∃ triples theEnd, ReadsTriples (limitRest value) triples theEnd ∧
      parseLimit limits value = .ok (theEnd.code,
        setLimits limits (limitCluster value) (limitCpus value)
          (((limitArrays limits value).append triples).push theEnd)) := by
  obtain ⟨triples, theEnd, hreads, hloop⟩ := parseLimitLoop_reads ((limitRest value).length + 1)
    (limitArrays limits value) (Nat.lt_succ_self _)
  refine ⟨triples, theEnd, hreads, ?_⟩
  unfold limitRest at hrest
  unfold parseLimit
  simp only [if_neg (dropWhile_colon_ne_nil h)]
  rw [if_neg (not_not.mpr hrest)]
  unfold limitRest limitArrays limitCluster limitCpus at hloop
  rw [hloop]
  rfl

/-! ## Whole or not at all -/

/-- The three vectors of an entry have the same length. -/
def EqualLengths (arrays : ClusterLimitsArrays) : Prop :=
  arrays.percentages.length = arrays.tresholds.length ∧
    arrays.percentagesGlobal.length = arrays.tresholds.length

/-- The call returns; with 0 it has extended the entry of the cluster and the number of CPUs by
the triples of the line, to vectors of one length, and with 1 it has changed nothing. -/
def ParsesAtomically (limits : LimitsForClusters) (value : String) : Prop :=
  ∃ code limits', parseLimit limits value = .ok (code, limits') ∧
    ((code = 0 ∧ ∃ cluster numCpus triples arrays, LimitText value cluster numCpus triples ∧
        arrays = (limitStruct limits cluster numCpus).append triples ∧ EqualLengths arrays ∧
        limits' = setLimits limits cluster numCpus arrays) ∨
      (code = 1 ∧ limits' = limits))

/-- The text stops behind the first threshold, or with one character behind it. -/
def StopsAtTreshold (text : List Char) : Prop :=
  ∃ rest, text = ';' :: rest ∧ rest ≠ [] ∧ (strtol rest).2.tail = []

/-- The loop stops there. -/
theorem StopsAtTreshold.reads {text : List Char} (h : StopsAtTreshold text) :
    ReadsTriples text [] .atTreshold := by
  obtain ⟨rest, rfl, hmore, hend⟩ := h
  exact .atTreshold ⟨rfl, hmore⟩ hend

/-- The loop stops at a threshold before any triple only there. -/
theorem ReadsTriples.stopsAtTreshold {text : List Char}
    (h : ReadsTriples text [] .atTreshold) : StopsAtTreshold text := by
  cases h with
  | atTreshold hmore hend =>
      obtain ⟨hhead, hne⟩ := hmore
      cases text with
      | nil => cases hhead
      | cons c rest =>
          cases hhead
          exact ⟨rest, rfl, hne, hend⟩

/-- A triple whose three conversions are known. -/
theorem ReadsTriples.triple_of {text behindLong behindFirst behind : List Char} {a b : Char}
    {t : ℤ} {p g : CFloat} {triples : List LimitTriple} {theEnd : LimitEnd}
    (h : MoreTriples text) (hlong : strtol text.tail = (t, a :: behindLong))
    (hmore : behindLong ≠ []) (hfirst : strtof behindLong = (p, b :: behindFirst))
    (hmore' : behindFirst ≠ []) (hsecond : strtof behindFirst = (g, behind))
    (rest : ReadsTriples behind triples theEnd) :
    ReadsTriples text (⟨t, p, g⟩ :: triples) theEnd := by
  have hbehind : (strtol text.tail).2.tail = behindLong := by rw [hlong]; rfl
  have hbehind' : (strtof behindLong).2.tail = behindFirst := by rw [hfirst]; rfl
  have hreads : ReadsTriples text (⟨(strtol text.tail).1, (strtof (strtol text.tail).2.tail).1,
      (strtof (strtof (strtol text.tail).2.tail).2.tail).1⟩ :: triples) theEnd := by
    refine .triple h ?_ ?_ ?_
    · rw [hbehind]
      exact hmore
    · rw [hbehind, hbehind']
      exact hmore'
    · rw [hbehind, hbehind', hsecond]
      exact rest
  rw [hbehind, hbehind', hlong, hfirst, hsecond] at hreads
  exact hreads

/-- What the loop makes of the triples of a line. -/
theorem readsTriples_of_texts {texts : List (List Char)} {triples : List LimitTriple}
    {theEnd : List Char} (h : List.Forall₂ TripleText texts triples)
    (hend : theEnd = [] ∨ theEnd = [';']) :
    ReadsTriples (texts.flatMap (';' :: ·) ++ theEnd) triples .complete := by
  induction h with
  | nil =>
      refine .complete ?_
      rintro ⟨-, hmore⟩
      rcases hend with rfl | rfl
      · exact hmore rfl
      · exact hmore rfl
  | @cons text triple texts triples htriple _ ih =>
      obtain ⟨treshold, percentage, percentageGlobal, rfl, ⟨hne, ht⟩, ⟨hne', hp⟩, hne'', hg⟩ :=
        htriple
      obtain ⟨t, p, g⟩ := triple
      dsimp only at ht hp hg
      generalize hbehind : texts.flatMap (';' :: ·) ++ theEnd = behind at ih
      have hhead : behind = [] ∨ ∃ rest, behind = ';' :: rest := by
        rw [← hbehind]
        cases texts with
        | nil =>
            rcases hend with rfl | rfl
            · exact Or.inl rfl
            · exact Or.inr ⟨[], rfl⟩
        | cons text texts => exact Or.inr ⟨_, rfl⟩
      have hlong : strtol (treshold ++ ',' :: (percentage ++ ',' :: (percentageGlobal ++ behind)))
          = (t, ',' :: (percentage ++ ',' :: (percentageGlobal ++ behind))) := by
        rw [strtol_append separator_comma, ht]
        rfl
      have hfirst : strtof (percentage ++ ',' :: (percentageGlobal ++ behind))
          = (p, ',' :: (percentageGlobal ++ behind)) := by
        rw [strtof_append separator_comma, hp]
        rfl
      have hsecond : strtof (percentageGlobal ++ behind) = (g, behind) := by
        rcases hhead with rfl | ⟨rest, rfl⟩
        · rw [List.append_nil, hg]
        · rw [strtof_append separator_semicolon, hg]
          rfl
      have htext : ((treshold ++ ',' :: (percentage ++ ',' :: percentageGlobal)) :: texts).flatMap
            (';' :: ·) ++ theEnd
          = ';' :: (treshold ++ ',' :: (percentage ++ ',' :: (percentageGlobal ++ behind))) := by
        rw [← hbehind, List.flatMap_cons]
        simp only [List.cons_append, List.append_assoc]
      rw [htext]
      refine ReadsTriples.triple_of ⟨rfl, ?_⟩ hlong ?_ hfirst ?_ hsecond ih
      · exact List.append_ne_nil_of_left_ne_nil hne _
      · exact List.append_ne_nil_of_left_ne_nil hne' _
      · exact List.append_ne_nil_of_left_ne_nil hne'' _

/-- **The loop cuts a limit line into its triples.** -/
theorem LimitText.reads {cluster : String} {triples : List LimitTriple}
    (h : LimitText value cluster numCpus triples) (hrest : (limitRest value).head? = some ';') :
    limitCluster value = cluster ∧ limitCpus value = numCpus ∧
      ReadsTriples (limitRest value) triples .complete := by
  obtain ⟨cpus, texts, theEnd, hvalue, hcolon, hcpus, htexts, hend⟩ := h
  have hname : ∀ c ∈ cluster.toList, decide (c ≠ ':') = true := fun c hc => by
    refine decide_eq_true ?_
    rintro rfl
    exact hcolon hc
  have htake : value.toList.takeWhile (· ≠ ':') = cluster.toList := by
    rw [hvalue, List.takeWhile_append_of_pos hname, List.takeWhile_cons_of_neg (by decide),
      List.append_nil]
  have hdrop : (value.toList.dropWhile (· ≠ ':')).tail
      = cpus ++ (texts.flatMap (';' :: ·) ++ theEnd) := by
    rw [hvalue, List.dropWhile_append_of_pos hname, List.dropWhile_cons_of_neg (by decide)]
    rfl
  have hreads := readsTriples_of_texts htexts hend
  unfold limitRest at hrest ⊢
  unfold limitCluster limitCpus
  rw [htake, String.ofList_toList, hdrop]
  rw [hdrop] at hrest
  refine ⟨rfl, ?_⟩
  -- what follows the number of CPUs is empty or begins with a semicolon
  have hbehind : texts.flatMap (';' :: ·) ++ theEnd = []
      ∨ ∃ rest, texts.flatMap (';' :: ·) ++ theEnd = ';' :: rest := by
    cases texts with
    | nil =>
        rcases hend with rfl | rfl
        · exact Or.inl rfl
        · exact Or.inr ⟨[], rfl⟩
    | cons text texts => exact Or.inr ⟨_, rfl⟩
  generalize texts.flatMap (';' :: ·) ++ theEnd = behind at hreads hbehind hrest ⊢
  rcases hbehind with rfl | ⟨rest, rfl⟩
  · -- then the whole number has been read
    rw [List.append_nil] at hrest
    rcases hcpus with ⟨rfl, -⟩ | ⟨n, ⟨-, hlong⟩, -⟩
    · cases hrest
    · rw [hlong] at hrest
      cases hrest
  · rw [strtol_append separator_semicolon]
    rcases hcpus with ⟨rfl, rfl⟩ | ⟨n, ⟨-, hlong⟩, rfl⟩
    · exact ⟨rfl, hreads⟩
    · rw [hlong]
      exact ⟨rfl, hreads⟩

/-- The arrays after triples have vectors of the same length if they had before. -/
theorem equalLengths_append {triples : List LimitTriple} :
    EqualLengths (arrays.append triples) ↔ EqualLengths arrays := by
  unfold EqualLengths ClusterLimitsArrays.append
  simp only [List.length_append, List.length_map]
  omega

/-- How many thresholds without percentages the end of a text leaves. -/
def LimitEnd.dangling : LimitEnd → ℕ
  | complete => 0
  | atTreshold => 0
  | atPercentage _ => 1

/-- The lengths after triples and an end. -/
theorem append_push_lengths (arrays : ClusterLimitsArrays) (triples : List LimitTriple)
    (theEnd : LimitEnd) :
    ((arrays.append triples).push theEnd).percentages.length
        = arrays.percentages.length + triples.length ∧
      ((arrays.append triples).push theEnd).percentagesGlobal.length
        = arrays.percentagesGlobal.length + triples.length ∧
      ((arrays.append triples).push theEnd).tresholds.length
        = arrays.tresholds.length + triples.length + theEnd.dangling := by
  cases theEnd with
  | complete => simp [ClusterLimitsArrays.push, ClusterLimitsArrays.append, LimitEnd.dangling]
  | atTreshold => simp [ClusterLimitsArrays.push, ClusterLimitsArrays.append, LimitEnd.dangling]
  | atPercentage treshold =>
      simp [ClusterLimitsArrays.push, ClusterLimitsArrays.append, LimitEnd.dangling, Nat.add_assoc]

/-- What the call sets the entry to is what was there only if nothing has been appended. -/
theorem append_push_eq_self {triples : List LimitTriple} {theEnd : LimitEnd}
    (h : (arrays.append triples).push theEnd = arrays) : triples = [] ∧ theEnd.dangling = 0 := by
  obtain ⟨_, _, hlength⟩ := append_push_lengths arrays triples theEnd
  rw [h] at hlength
  exact ⟨List.length_eq_zero_iff.mp (by omega), by omega⟩

/-- A call takes its text whole or leaves the limits alone exactly if the text has a colon and
nothing announces a triple, or it is the text of a limit line and the entry was in order, or it
stops behind the first threshold of an entry that is there. -/
theorem parsesAtomically_iff (limits : LimitsForClusters) (value : String) :
    ParsesAtomically limits value ↔ ':' ∈ value.toList ∧
      ((limitRest value).head? ≠ some ';' ∨
        (∃ cluster numCpus triples, LimitText value cluster numCpus triples ∧
          EqualLengths (limitStruct limits cluster numCpus)) ∨
        (StopsAtTreshold (limitRest value) ∧
          (limitEntry limits (limitCluster value) (limitCpus value)).isSome)) := by
  constructor
  · rintro ⟨code, limits', hparse, hcases⟩
    by_cases hcolon : ':' ∈ value.toList
    · refine ⟨hcolon, ?_⟩
      by_cases hrest : (limitRest value).head? = some ';'
      · obtain ⟨triples, theEnd, hreads, hret⟩ := parseLimit_reads limits hcolon hrest
        rw [hret] at hparse
        obtain ⟨hcode, hlimits⟩ := Prod.mk.inj (Except.ok.inj hparse)
        rcases hcases with ⟨_, cluster, numCpus, triples', arrays, htext, harrays, hequal, _⟩
          | ⟨h1, hsame⟩
        · rw [harrays, equalLengths_append] at hequal
          exact Or.inr (Or.inl ⟨cluster, numCpus, triples', htext, hequal⟩)
        · rw [hsame, setLimits_eq_self_iff] at hlimits
          have hself : limitArrays limits value
              = ((limitArrays limits value).append triples).push theEnd :=
            congrArg (fun entry => entry.getD ⟨[], [], []⟩) hlimits
          obtain ⟨rfl, hend⟩ := append_push_eq_self hself.symm
          have hsome : (limitEntry limits (limitCluster value) (limitCpus value)).isSome := by
            rw [hlimits]
            rfl
          cases theEnd with
          | complete =>
              rw [h1] at hcode
              cases hcode
          | atTreshold => exact Or.inr (Or.inr ⟨hreads.stopsAtTreshold, hsome⟩)
          | atPercentage treshold => cases hend
      · exact Or.inl hrest
    · rw [parseLimit_noColon hcolon] at hparse
      cases hparse
  · rintro ⟨hcolon, hcases⟩
    by_cases hrest : (limitRest value).head? = some ';'
    · obtain ⟨triples, theEnd, hreads, hret⟩ := parseLimit_reads limits hcolon hrest
      refine ⟨_, _, hret, ?_⟩
      rcases hcases with hnone | ⟨cluster, numCpus, triples', htext, hequal⟩ | ⟨hstops, hsome⟩
      · exact absurd hrest hnone
      · obtain ⟨rfl, rfl, hreads'⟩ := htext.reads hrest
        obtain ⟨rfl, rfl⟩ := hreads.unique hreads'
        exact Or.inl ⟨rfl, _, _, triples, _, htext, rfl, equalLengths_append.mpr hequal, rfl⟩
      · obtain ⟨rfl, rfl⟩ := hreads.unique hstops.reads
        refine Or.inr ⟨rfl, ?_⟩
        obtain ⟨arrays, harrays⟩ := Option.isSome_iff_exists.mp hsome
        have hself : limitArrays limits value = arrays :=
          congrArg (fun entry => entry.getD ⟨[], [], []⟩) harrays
        rw [setLimits_eq_self_iff, harrays, hself]
        simp [ClusterLimitsArrays.append, ClusterLimitsArrays.push]
    · exact ⟨1, limits, parseLimit_noSemicolon hcolon hrest, Or.inr ⟨rfl, rfl⟩⟩

/-! ## Files -/

/-- The text of a `limit` line. -/
def limitValue (s : SettingLine) : Option String :=
  if s.name = "limit" then some (String.ofList s.valueOn) else none

/-- The texts of the `limit` lines of a file, in file order. -/
def limitValues (text : List Char) : List String := (settingLines text).filterMap limitValue

/-- One more `limit` line. -/
def readLimit (limits : LimitsForClusters) (value : String) : Run LimitsForClusters :=
  parseLimit limits value >>= fun r => pure r.2

/-- A setting that is no limit leaves the limits alone. -/
theorem parseSetting_sameLimits (st : ParseState) {name : String} (value valueOn : List Char)
    (period : PrimeTime) (hlimit : name ≠ "limit") : ∃ st',
      parseSetting st name value valueOn period = .ok st' ∧
        st'.conf.limitsForClusters = st.conf.limitsForClusters := by
  by_cases hkey : name = "key"
  · subst hkey
    refine ⟨_, parseSetting_key st value valueOn period, ?_⟩
    cases sortNamed value with
    | none => rfl
    | some i =>
        dsimp only
        unfold parseKey
        split
        · split
          · rfl
          · rfl
        · rfl
  · by_cases hsortBy : name = "sort_by"
    · subst hsortBy
      refine ⟨_, parseSetting_sortBy st value valueOn period, ?_⟩
      cases sortNamed value with
      | none => rfl
      | some i => rfl
    · obtain ⟨conf, hset, hsame⟩ := parseSetting_other st value valueOn period hlimit hkey hsortBy
      exact ⟨st.setConf conf, hset, hsame.limits⟩

/-- Settings change the limits as their `limit` lines do. -/
theorem foldlM_parseSetting_limits (settings : List SettingLine) (st : ParseState) :
    (settings.foldlM (fun st s => parseSetting st s.name s.value s.valueOn s.period) st).map
        (fun st => st.conf.limitsForClusters)
      = (settings.filterMap limitValue).foldlM readLimit st.conf.limitsForClusters := by
  induction settings generalizing st with
  | nil => rfl
  | cons s settings ih =>
      obtain ⟨name, value, valueOn, period⟩ := s
      rw [List.foldlM_cons]
      dsimp only
      by_cases hlimit : name = "limit"
      · subst hlimit
        rw [List.filterMap_cons_some (show limitValue ⟨"limit", value, valueOn, period⟩
            = some (String.ofList valueOn) from rfl), List.foldlM_cons, parseSetting_limit]
        unfold readLimit
        cases parseLimit st.conf.limitsForClusters (String.ofList valueOn) with
        | error e => rfl
        | ok r => exact ih _
      · rw [List.filterMap_cons_none (show limitValue ⟨name, value, valueOn, period⟩ = none from
          if_neg hlimit)]
        obtain ⟨st', hset, hsame⟩ := parseSetting_sameLimits st value valueOn period hlimit
        rw [hset, ← hsame]
        exact ih st'

/-- A configuration file changes the limits by its `limit` lines only. -/
theorem parseConfig_limits (text : List Char) (conf : Settings) :
    (parseConfig (some text) conf).map Settings.limitsForClusters
      = (limitValues text).foldlM readLimit conf.limitsForClusters := by
  have hrun := foldlM_parseSetting_limits (settingLines text) ⟨conf, 1, 1⟩
  unfold limitValues
  rw [← hrun, parseConfig_eq]
  cases (settingLines text).foldlM
      (fun st s => parseSetting st s.name s.value s.valueOn s.period) ⟨conf, 1, 1⟩ with
  | error e => rfl
  | ok st => rfl

/-- The text of a `limit` line stops behind the first percentage of a triple. -/
def EndsAtPercentage (value : String) : Prop :=
  ∃ triples treshold, ReadsTriples (limitRest value) triples (.atPercentage treshold)

/-- An end known to be the end of the text. -/
theorem endsAtPercentage_iff {triples : List LimitTriple} {theEnd : LimitEnd}
    (hreads : ReadsTriples (limitRest value) triples theEnd) :
    EndsAtPercentage value ↔ theEnd.dangling = 1 := by
  constructor
  · rintro ⟨triples', treshold, hreads'⟩
    rw [(hreads.unique hreads').2]
    rfl
  · intro h
    cases theEnd with
    | complete => cases h
    | atTreshold => cases h
    | atPercentage treshold => exact ⟨triples, treshold, hreads⟩

/-- The vectors of every entry have the same length. -/
def AllEqualLengths (limits : LimitsForClusters) : Prop :=
  ∀ cluster numCpus, EqualLengths (limitStruct limits cluster numCpus)

/-- In every entry no vector is longer than that of the thresholds, and the percentages are
paired: what reading lines keeps. -/
def TresholdsAhead (limits : LimitsForClusters) : Prop :=
  ∀ cluster numCpus,
    (limitStruct limits cluster numCpus).percentages.length
        = (limitStruct limits cluster numCpus).percentagesGlobal.length ∧
      (limitStruct limits cluster numCpus).percentages.length
        ≤ (limitStruct limits cluster numCpus).tresholds.length

/-- Setting an entry, seen by the next call. -/
theorem limitStruct_setLimits (limits : LimitsForClusters) (cluster cluster' : String)
    (numCpus numCpus' : ℤ) (arrays : ClusterLimitsArrays) :
    limitStruct (setLimits limits cluster numCpus arrays) cluster' numCpus'
      = if cluster' = cluster ∧ numCpus' = numCpus then arrays
        else limitStruct limits cluster' numCpus' := by
  have hentry := congrArg (fun entry => entry.getD ⟨[], [], []⟩)
    (limitEntry_setLimits limits cluster cluster' numCpus numCpus' arrays)
  refine Eq.trans hentry ?_
  by_cases h : cluster' = cluster ∧ numCpus' = numCpus
  · rw [if_pos h, if_pos h]
    rfl
  · rw [if_neg h, if_neg h]
    rfl

/-- What one `limit` line does to the lengths: a text that stops behind a percentage puts the
entry out of order, and no text puts it in order again. -/
theorem readLimit_lengths {value : String} (h : TresholdsAhead limits)
    (hcolon : ':' ∈ value.toList) : ∃ limits', readLimit limits value = .ok limits' ∧
      TresholdsAhead limits' ∧
      (AllEqualLengths limits' ↔ AllEqualLengths limits ∧ ¬ EndsAtPercentage value) := by
  unfold readLimit
  by_cases hrest : (limitRest value).head? = some ';'
  · obtain ⟨triples, theEnd, hreads, hret⟩ := parseLimit_reads limits hcolon hrest
    rw [hret]
    obtain ⟨hp, hg, ht⟩ := append_push_lengths (limitArrays limits value) triples theEnd
    obtain ⟨hpaired, hle⟩ := h (limitCluster value) (limitCpus value)
    rw [← limitArrays] at hpaired hle
    -- only a text that stops behind a percentage leaves one array longer
    have hdangling : theEnd.dangling ≤ 1 := by
      cases theEnd with
      | complete => exact Nat.zero_le 1
      | atTreshold => exact Nat.zero_le 1
      | atPercentage _ => exact le_refl 1
    refine ⟨_, rfl, ?_, ?_⟩
    · intro cluster numCpus
      rw [limitStruct_setLimits]
      by_cases hkey : cluster = limitCluster value ∧ numCpus = limitCpus value
      · rw [if_pos hkey]
        omega
      · rw [if_neg hkey]
        exact h cluster numCpus
    · rw [endsAtPercentage_iff hreads]
      constructor
      · intro hequal
        have hentry := hequal (limitCluster value) (limitCpus value)
        rw [limitStruct_setLimits, if_pos ⟨rfl, rfl⟩] at hentry
        obtain ⟨hentry, _⟩ := hentry
        refine ⟨?_, by omega⟩
        intro cluster numCpus
        by_cases hkey : cluster = limitCluster value ∧ numCpus = limitCpus value
        · rw [hkey.1, hkey.2, ← limitArrays]
          exact ⟨by omega, by omega⟩
        · have hother := hequal cluster numCpus
          rw [limitStruct_setLimits, if_neg hkey] at hother
          exact hother
      · rintro ⟨hequal, hend⟩ cluster numCpus
        rw [limitStruct_setLimits]
        by_cases hkey : cluster = limitCluster value ∧ numCpus = limitCpus value
        · obtain ⟨hentry, _⟩ := hequal (limitCluster value) (limitCpus value)
          rw [← limitArrays] at hentry
          rw [if_pos hkey]
          exact ⟨by omega, by omega⟩
        · rw [if_neg hkey]
          exact hequal cluster numCpus
  · rw [parseLimit_noSemicolon hcolon hrest]
    refine ⟨limits, rfl, h, ⟨fun hequal => ⟨hequal, ?_⟩, And.left⟩⟩
    rintro ⟨triples, treshold, hreads⟩
    cases hreads with
    | atPercentage hmore _ _ => exact hrest hmore.1
    | triple hmore _ _ _ => exact hrest hmore.1

/-- All the lines are read to vectors of one length exactly if each has its colon and stops behind
no percentage. -/
theorem foldlM_readLimit_lengths {limits : LimitsForClusters} (values : List String)
    (h : TresholdsAhead limits) :
    (∃ limits', values.foldlM readLimit limits = .ok limits' ∧ AllEqualLengths limits')
      ↔ AllEqualLengths limits ∧
        ∀ value ∈ values, ':' ∈ value.toList ∧ ¬ EndsAtPercentage value := by
  induction values generalizing limits with
  | nil =>
      constructor
      · rintro ⟨limits', hrun, hequal⟩
        cases hrun
        exact ⟨hequal, fun _ hmem => absurd hmem List.not_mem_nil⟩
      · exact fun hequal => ⟨limits, rfl, hequal.1⟩
  | cons value values ih =>
      rw [List.foldlM_cons, List.forall_mem_cons]
      by_cases hcolon : ':' ∈ value.toList
      · obtain ⟨limits', hread, hahead, hequal⟩ := readLimit_lengths h hcolon
        rw [hread]
        refine (ih hahead).trans ?_
        rw [hequal, and_assoc, and_iff_right hcolon]
      · constructor
        · rintro ⟨limits', hrun, _⟩
          rw [readLimit, parseLimit_noColon hcolon] at hrun
          cases hrun
        · exact fun hall => absurd hall.2.1.1 hcolon

/-- After a configuration file the vectors of every entry have the same length exactly if each of
its `limit` lines has a colon and stops behind no percentage. -/
theorem equalLengths_parseConfig_iff (text : List Char) :
    (∃ conf, parseConfig (some text) Settings.init = .ok conf ∧
        AllEqualLengths conf.limitsForClusters)
      ↔ ∀ value ∈ limitValues text, ':' ∈ value.toList ∧ ¬ EndsAtPercentage value := by
  have hnothing : ∀ cluster numCpus,
      limitStruct Settings.init.limitsForClusters cluster numCpus = ⟨[], [], []⟩ := by
    intro cluster numCpus
    unfold limitStruct Settings.init initLimits
    dsimp only
    rw [List.lookup_cons]
    cases cluster == "" with
    | true => rfl
    | false => rfl
  have hahead : TresholdsAhead Settings.init.limitsForClusters := by
    intro cluster numCpus
    rw [hnothing]
    exact ⟨rfl, le_refl 0⟩
  have hequal : AllEqualLengths Settings.init.limitsForClusters := by
    intro cluster numCpus
    rw [hnothing]
    exact ⟨rfl, rfl⟩
  have hrun := foldlM_readLimit_lengths (limitValues text) hahead
  rw [and_iff_right hequal, ← parseConfig_limits] at hrun
  rw [← hrun]
  constructor
  · rintro ⟨conf, hparse, hconf⟩
    exact ⟨conf.limitsForClusters, map_ok.mpr ⟨conf, hparse, rfl⟩, hconf⟩
  · rintro ⟨limits', hparse, hlimits⟩
    obtain ⟨conf, hconf, rfl⟩ := map_ok.mp hparse
    exact ⟨conf, hconf, hlimits⟩

/-- A call takes its text whole or leaves the limits alone, and a file leaves vectors of one
length, exactly under these conditions on the text and on the entry it is for. -/
theorem limit_lines_iff (limits : LimitsForClusters) (value : String) (text : List Char) :
    (ParsesAtomically limits value ↔ ':' ∈ value.toList ∧
      ((limitRest value).head? ≠ some ';' ∨
        (∃ cluster numCpus triples, LimitText value cluster numCpus triples ∧
          EqualLengths (limitStruct limits cluster numCpus)) ∨
        (StopsAtTreshold (limitRest value) ∧
          (limitEntry limits (limitCluster value) (limitCpus value)).isSome))) ∧
    ((∃ conf, parseConfig (some text) Settings.init = .ok conf ∧
        AllEqualLengths conf.limitsForClusters)
      ↔ ∀ value ∈ limitValues text, ':' ∈ value.toList ∧ ¬ EndsAtPercentage value) :=
  ⟨parsesAtomically_iff limits value, equalLengths_parseConfig_iff text⟩

/-- A line that stops behind the percentage of the cluster is reported, its threshold stays without
percentages, and so after the file; a line without a colon follows `NULL`. -/
theorem limit_line_stops_early :
    ¬ ParsesAtomically initLimits "main:8;3600,0.5" ∧
    (∃ conf, parseConfig (some "limit: main:8;3600,0.5\n".toList) Settings.init = .ok conf ∧
      ¬ AllEqualLengths conf.limitsForClusters) ∧
    ¬ ParsesAtomically initLimits "main" := by
  refine ⟨?_, ?_, ?_⟩
  · rintro ⟨code, limits', hparse, hcases⟩
    have hret : (parseLimit initLimits "main:8;3600,0.5").map
        (fun r => (r.1, limitEntry r.2 "main" 8)) = .ok (1, some ⟨[], [], [3600]⟩) := by
      decide +kernel
    rw [hparse] at hret
    obtain ⟨hcode, hentry⟩ := Prod.mk.inj (Except.ok.inj hret)
    rcases hcases with ⟨hzero, _⟩ | ⟨_, hsame⟩
    · rw [show code = 1 from hcode] at hzero
      cases hzero
    · rw [hsame] at hentry
      have hnone : limitEntry initLimits "main" 8 = none := by decide
      have hsome := hnone.symm.trans hentry
      cases hsome
  · have hret : (parseConfig (some "limit: main:8;3600,0.5\n".toList) Settings.init).map
        (fun conf => limitStruct conf.limitsForClusters "main" 8) = .ok ⟨[], [], [3600]⟩ := by
      decide +kernel
    obtain ⟨conf, hparse, hstruct⟩ := map_ok.mp hret
    refine ⟨conf, hparse, fun hequal => ?_⟩
    have hentry := (hequal "main" 8).1
    rw [hstruct] at hentry
    cases hentry
  · rintro ⟨code, limits', hparse, _⟩
    rw [parseLimit_noColon (by decide)] at hparse
    cases hparse

end PlanSched
