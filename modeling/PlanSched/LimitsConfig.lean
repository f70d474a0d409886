/-
# Per-cluster limits: configuration, selection, class of a walltime

Models `parse_limit` (`parse.cpp`) and `find_limits_for_cluster`,
`walltime_suits_to_limit` and `update_limits_values` (`plan_limits.cpp`).

The configuration maps a cluster name to a map from a number of CPUs to three
parallel vectors; `""` is the default cluster.  The class of a walltime is the
position of the first threshold it does not exceed, and one past the last
threshold when it exceeds them all.  `limits_values` and `limits_values_global`
are global vectors that `update_limits_values` resizes and fills.

A product `num_running_cpus * percentage` is taken exactly before it is truncated
to an `int`; nothing below depends on the rounding of a `float`.
-/
import PlanSched.CheckedRun
import PlanSched.CText
import PlanSched.OrderedMap
import PlanSched.DataTypes

namespace PlanSched

open CheckedRun CText

/-! ## The configured limits -/

/-- `cluster_limits_arrays`. -/
structure ClusterLimitsArrays where
  percentages : List CFloat
  percentagesGlobal : List CFloat
  tresholds : List ℤ
  deriving DecidableEq, Repr, Inhabited

/-- `conf.limits_for_clusters`, by cluster name and then by number of CPUs. -/
abbrev LimitsForClusters : Type := List (String × OrderedMap ClusterLimitsArrays)

/-- What `init_config` leaves: the default cluster, without limits. -/
def initLimits : LimitsForClusters := [("", OrderedMap.empty)]

/-! ## Reading a limit line -/

/-- The loop of `parse_limit` from the text at `delim_pos` on, with a budget of
passes: the return code and the arrays it appended to.  What a failing pass has
pushed already stays. -/
def parseLimitLoop : ℕ → List Char → ClusterLimitsArrays → Run (ℤ × ClusterLimitsArrays)
  | 0, _, _ => .error .outOfSteps
  | fuel + 1, text, limitStruct =>
      if text.head? = some ';' ∧ text.tail ≠ [] then
        let (threshold, text) := strtol text.tail
        if text.tail = [] then .ok (1, limitStruct)
        else
          let limitStruct :=
            { limitStruct with tresholds := limitStruct.tresholds ++ [threshold] }
          let (limit, text) := strtof text.tail
          if text.tail = [] then .ok (1, limitStruct)
          else
            let limitStruct :=
              { limitStruct with percentages := limitStruct.percentages ++ [limit] }
            let (limit, text) := strtof text.tail
            let limitStruct :=
              { limitStruct with percentagesGlobal := limitStruct.percentagesGlobal ++ [limit] }
            parseLimitLoop fuel text limitStruct
      else .ok (0, limitStruct)

/-- Replace the map of a cluster, entering the cluster first when it is new. -/
def updateCluster (limits : LimitsForClusters) (cluster : String)
    (f : OrderedMap ClusterLimitsArrays → OrderedMap ClusterLimitsArrays) : LimitsForClusters :=
  match limits with
  | [] => [(cluster, f OrderedMap.empty)]
  | (name, m) :: rest =>
      if name = cluster then (name, f m) :: rest
      else (name, m) :: updateCluster rest cluster f

/-- The arrays `parse_limit` appends to. -/
def limitStruct (limits : LimitsForClusters) (cluster : String) (numCpus : ℤ) :
    ClusterLimitsArrays :=
  (((limits.lookup cluster).bind (fun m => m.entries.lookup numCpus))).getD ⟨[], [], []⟩

/-- `parse_limit`: the return code and the new configuration.  A text without a
colon makes `strchr` return `NULL`, which is followed at once. -/
def parseLimit (limits : LimitsForClusters) (parsedValue : String) :
    Run (ℤ × LimitsForClusters) := do
  let text := parsedValue.toList
  let cluster := String.ofList (text.takeWhile (· ≠ ':'))
  if text.dropWhile (· ≠ ':') = [] then .error .nullPointer
  else
    let (num, rest) := strtol (text.dropWhile (· ≠ ':')).tail
    let numCpus := toInt num
    if rest.head? ≠ some ';' then return (1, limits)
    else do
      let (code, arrays) ← parseLimitLoop (rest.length + 1) rest
        (limitStruct limits cluster numCpus)
      return (code, updateCluster limits cluster
        (fun m => m.modify numCpus ⟨[], [], []⟩ (fun _ => arrays)))

/-- The limits after `parse_config` read its limit lines, in file order; a line
that is reported as wrong is not taken back. -/
def parseLimits (lines : List String) : Run LimitsForClusters :=
  lines.foldlM (fun limits line => do
    let r ← parseLimit limits line
    return r.2) initLimits

/-! ## Selecting the limits of a cluster -/

/-- The map `find_limits_for_cluster` searches: the cluster's own one, or the
default one for a name that is not configured. -/
def limitArray (limits : LimitsForClusters) (cluster : String) :
    Option (OrderedMap ClusterLimitsArrays) :=
  match limits.lookup cluster with
  | some m => some m
  | none => limits.lookup ""

/-- `find_limits_for_cluster`.  When no key is low enough the C++ variable
`limits` is returned without ever having been set. -/
def findLimitsForCluster (limits : LimitsForClusters) (cluster : String) (runningCpus : ℤ) :
    Run ClusterLimitsArrays := do
  let limitArray ← deref (limitArray limits cluster)
  let entry ← deref (limitArray.floor? runningCpus)
  return entry.2

/-- `walltime_suits_to_limit`; its argument is an `int`. -/
def walltimeSuitsToLimit (limits : LimitsForClusters) (walltime : ℤ) (cluster : PlanCluster) :
    Run ℕ := do
  let limits ← findLimitsForCluster limits cluster.clusterName cluster.numRunningCpus
  return limits.tresholds.findIdx (fun treshold => decide (toInt walltime ≤ treshold))

/-! ## The values in force -/

/-- The global vectors `limits_values` and `limits_values_global`. -/
structure LimitsValues where
  limitsValues : List ℤ
  limitsValuesGlobal : List ℤ
  deriving DecidableEq, Repr, Inhabited

/-- `std::vector::resize`. -/
def resize (xs : List ℤ) (n : ℕ) (v : ℤ) : List ℤ :=
  xs.take n ++ List.replicate (n - xs.length) v

@[simp] theorem length_resize (xs : List ℤ) (n : ℕ) (v : ℤ) : (resize xs n v).length = n := by
  unfold resize
  rw [List.length_append, List.length_take, List.length_replicate]
  omega

/-- The `int` a product of a CPU count and a percentage is stored as; a value that
no `int` holds becomes the smallest one. -/
def scaleCpus (numRunningCpus : ℤ) : CFloat → ℤ
  | .finite percentage =>
      let product := (numRunningCpus : ℚ) * percentage
      let value := product.num.tdiv product.den
      if -(2 ^ 31) ≤ value ∧ value < 2 ^ 31 then value else -(2 ^ 31)
  | .infinite _ => -(2 ^ 31)
  | .nan => -(2 ^ 31)

/-- One pass of the loop of `update_limits_values`. -/
def updateLimitsValue (numRunningCpus : ℤ) (limits : ClusterLimitsArrays)
    (values : LimitsValues) (i : ℕ) : Run LimitsValues := do
  let n := limits.tresholds.length
  let percentage ← getAt limits.percentages i
  let percentageGlobal ← getAt limits.percentagesGlobal i
  return {
    limitsValues := (resize values.limitsValues n 2).set i (scaleCpus numRunningCpus percentage)
    limitsValuesGlobal :=
      (resize values.limitsValuesGlobal n 2).set i (scaleCpus numRunningCpus percentageGlobal) }

/-- `update_limits_values`. -/
def updateLimitsValues (limits : LimitsForClusters) (cluster : PlanCluster)
    (values : LimitsValues) : Run LimitsValues := do
  let limits ← findLimitsForCluster limits cluster.clusterName cluster.numRunningCpus
  (List.range limits.tresholds.length).foldlM
    (updateLimitsValue cluster.numRunningCpus limits) values

/-- The loop over the classes `is` leaves both vectors with one cell per
threshold, whatever length they had. -/
theorem updateLimitsValue_length {numRunningCpus : ℤ} {limits : ClusterLimitsArrays}
    {values values' : LimitsValues} {i : ℕ}
    (h : updateLimitsValue numRunningCpus limits values i = .ok values') :
    values'.limitsValues.length = limits.tresholds.length ∧
      values'.limitsValuesGlobal.length = limits.tresholds.length := by
  unfold updateLimitsValue at h
  rw [bind_ok] at h
  obtain ⟨p, _, h⟩ := h
  rw [bind_ok] at h
  obtain ⟨pg, _, h⟩ := h
  rw [pure_ok] at h
  rw [← h]
  simp

end PlanSched
