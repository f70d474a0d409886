/-
# Writing the node specification of a planned job

Models `job_create_nodespec` (`plan_jobs.cpp`) on the texts themselves: it cuts the
properties and resources out of the specification the job came with, takes the negative
properties out of them, writes a chunk for every run of one node in the plan, and makes
the nodes of the plan distinct in place.  Under the texts alone,
`PlanSched.NodeAssignment` has what is parsed back from the result.

A search that fails gives `NULL`, and using it is a fault.  Each text is written with the
bytes it needs and the bytes its buffer was given, so that overflows can be told.  Texts are
written behind others by a `sprintf` into the buffer it reads, which the C standard does not
define: what it leaves is a parameter (`PrintOver`), and `keepFront` is what a copy from left
to right leaves.
-/
import PlanSched.CheckedRun
import PlanSched.CText
import PlanSched.TextSearch
import PlanSched.RunLengths

namespace PlanSched.NodespecText

open CheckedRun CText TextSearch

/-! ## The properties and resources -/

/-- Where the text at `tmp_ns_start` begins: what stands in front of it, and whether a final
`#excl` was cut off. -/
structure NodespecStart where
  front : List Char
  start : List Char
  isExcl : Bool
  deriving DecidableEq, Repr

/-- `strchr(s, ':') + 1`, split there. -/
def behindColon (s : List Char) : Run (List Char × List Char) := do
  let (before, found) ← deref (strchr ':' s)
  pure (before ++ [':'], found.tail)

/-- `tmp_ns_start`: behind the number of nodes, and behind `ppn=` when there is one. -/
def tmpNsStart (nodespec : List Char) : Run NodespecStart := do
  let (front, start) ← behindColon nodespec
  let (front, start) ←
    if (strstr "ppn=".toList start).isSome then do
      let (passed, start') ← behindColon start.tail
      pure (front ++ start.take 1 ++ passed, start')
    else pure (front, start)
  if "#excl".toList <:+ start then pure ⟨front, start.take (start.length - 5), true⟩
  else pure ⟨front, start, false⟩

/-- The nearer of two places, if there are any. -/
def nearer (chmin ch : Option ℕ) : Option ℕ :=
  match chmin, ch with
  | none, ch => ch
  | some m, none => some m
  | some m, some c => if c < m then some c else some m

/-- `chmin`: the place of the first delimiter behind `pch`. -/
def chmin (pch : List Char) : Option ℕ :=
  nearer (nearer (pch.findIdx? (· == ',')) (pch.findIdx? (· == ':'))) (pch.findIdx? (· == ' '))

/-- `to_remove`: up to the delimiter, or with the character in front when there is none.  In
front of `tmp_ns_start` stands the colon it was found by. -/
def toRemove (before pch : List Char) : List Char :=
  match chmin pch with
  | some c => pch.take (c + 1)
  | none => before.getLast?.getD ':' :: pch

/-- The loop that removes the negative properties. -/
def removalLoop : ℕ → List Char → Run (List Char)
  | fuel, s =>
      match strchr '^' s with
      | none => .ok s
      | some (before, pch) =>
          match fuel with
          | 0 => .error .outOfSteps
          | fuel + 1 => removalLoop fuel (removeAll (toRemove before pch) s)

/-! ## The chunks -/

/-- `%d` and `%lld`. -/
def printInt (n : ℤ) : List Char :=
  if n < 0 then '-' :: Nat.toDigits 10 n.natAbs else Nat.toDigits 10 n.natAbs

/-- A `long long`. -/
def toLong (x : ℤ) : ℤ := Int.bmod x (2 ^ 64)

/-- A text written: the bytes it needs with its terminator, and those of its buffer. -/
structure BufferWrite where
  needed : ℕ
  allocated : ℕ
  deriving DecidableEq, Repr

/-- The text fits its buffer. -/
def BufferWrite.Fits (write : BufferWrite) : Prop := write.needed ≤ write.allocated

/-- `sprintf(s, "%s…", s, …)`: what is left at `s`, by the text there and what is to follow it. -/
abbrev PrintOver : Type := List Char → List Char → List Char

/-- The text there stays in front. -/
def keepFront : PrintOver := fun front behind => front ++ behind

/-- `multip_numbers`: the number behind the first `mem=` is replaced by its product. -/
def multipNumbers (printOver : PrintOver) (a : ℕ) (b : List Char) : Run (List Char) := do
  let (before, s) ← deref (strstr "mem=".toList b)
  let newNum := toLong ((strtol (s.drop 4)).1 * a)
  let p := (s.drop 4).dropWhile Char.isDigit
  pure (printOver (before ++ "mem=".toList) (printInt newNum ++ p))

section compose

variable (printOver : PrintOver) (names : ℕ → List Char) (reqPpn : ℕ) (ns : List Char)

/-- `host=name:ppn=k:multi`. -/
def chunkText (node numPpn : ℕ) (multi : List Char) : List Char :=
  "host=".toList ++ names node ++ ":ppn=".toList ++ printInt (numPpn * reqPpn : ℕ) ++ ":".toList
    ++ multi

/-- A chunk more: the specification with it, and what was written for it. -/
def writeChunk (schNodespec : Option (List Char)) (node numPpn : ℕ) :
    Run (List Char × List BufferWrite) := do
  let multi ← multipNumbers printOver numPpn ns
  let chunk := chunkText names reqPpn node numPpn multi
  let copied : BufferWrite := ⟨multi.length + 1, ns.length + 3⟩
  match schNodespec with
  | none => pure (chunk, [copied, ⟨chunk.length + 1, ns.length + 50⟩])
  | some sch =>
      let text := printOver sch ("+".toList ++ chunk)
      pure (text, [copied, ⟨text.length + 1, sch.length + ns.length + 50⟩])

/-- The state of the loop over the nodes of the plan. -/
structure Composition where
  schNodespec : Option (List Char)
  plannedNode : Option ℕ
  numPpn : ℕ
  writes : List BufferWrite

/-- One round: a run that ends is written. -/
def composeStep (st : Composition) (entry : Option ℕ) : Run Composition :=
  let numPpn := if st.plannedNode = entry then st.numPpn + 1 else st.numPpn
  match st.plannedNode with
  | none => .ok { st with plannedNode := entry, numPpn := numPpn }
  | some node =>
      if entry = some node then .ok { st with numPpn := numPpn }
      else do
        let (text, writes) ← writeChunk printOver names reqPpn ns st.schNodespec node numPpn
        pure ⟨some text, entry, 1, st.writes ++ writes⟩

/-- The loop over `ninfo_arr`. -/
def composeLoop (ninfoArr : List (Option ℕ)) : Run Composition :=
  ninfoArr.foldlM (composeStep printOver names reqPpn ns) ⟨none, none, 1, []⟩

end compose

/-! ## The distinct nodes -/

/-- One round of the loop that makes the nodes distinct, in place. -/
def distinctStep (st : List (Option ℕ) × ℕ) (i : ℕ) : List (Option ℕ) × ℕ :=
  let entry := st.1.getD i none
  if (List.range st.2).any (fun j => st.1.getD j none == entry) then (st.1.set i none, st.2)
  else
    let moved := st.1.set st.2 entry
    (if st.2 ≠ i then moved.set i none else moved, st.2 + 1)

/-- The loop: the array, and `distinct_num_nodes`. -/
def distinctLoop (ninfoArr : List (Option ℕ)) : List (Option ℕ) × ℕ :=
  (List.range ninfoArr.length).foldl distinctStep (ninfoArr, 0)

/-! ## The whole function -/

/-- What `job_create_nodespec` returns and leaves. -/
structure CreatedText where
  distinctNumNodes : ℕ
  nodespec : List Char
  ninfoArr : List (Option ℕ)
  writes : List BufferWrite

/-- `job_create_nodespec`, with so many rounds of the removal loop at most.  The length of
`ninfoArr` is `req_num_nodes`. -/
def jobCreateNodespec (printOver : PrintOver) (fuel : ℕ) (names : ℕ → List Char) (reqPpn : ℕ)
    (isExclusive : Bool) (nodespec : List Char) (ninfoArr : List (Option ℕ)) :
    Run CreatedText := do
  let opening ← tmpNsStart nodespec
  let ns ← removalLoop fuel opening.start
  let st ← composeLoop printOver names reqPpn ns ninfoArr
  match st.plannedNode with
  | none => pure ⟨0, opening.front ++ ns, ninfoArr, st.writes⟩
  | some node => do
      let (text, writes) ← writeChunk printOver names reqPpn ns st.schNodespec node st.numPpn
      let distinct := distinctLoop ninfoArr
      if opening.isExcl || isExclusive then
        let marked := printOver text "#excl".toList
        pure ⟨distinct.2, marked, distinct.1,
          st.writes ++ writes ++ [⟨marked.length + 1, text.length + 10⟩]⟩
      else pure ⟨distinct.2, text, distinct.1, st.writes ++ writes⟩

end PlanSched.NodespecText
