/-
# The users of a group

Models `is_users_in_group` (`legacy/site_pbs_cache_common.c`) over the lines of the group file.
What reads the file is not part of the sources; a line is given by its key and the rest of it.

On each line of the group only the first occurrence of the name is looked at.  When it is a
part of another name the line is left, whatever follows.

* `fullName_iff`: the lines on which the name is found;
* `group_users_iff`: the files and names for which the answer is that of the lists.
-/
import PlanSched.TextWords

namespace PlanSched

open TextSearch

/-! ## The code -/

/-- A line of the group file: its key, the rest of it, and whether its newline is kept. -/
structure ConfigLine where
  key : List Char
  rest : List Char
  ended : Bool
  rest_line : '\n' ∉ rest

/-- The field `first` of a line. -/
def ConfigLine.first (line : ConfigLine) : List Char :=
  line.rest ++ if line.ended then ['\n'] else []

/-- The separators of the users of a line. -/
def isUserSep (c : Char) : Bool := c == ' ' || c == ',' || c == '\t'

/-- The characters at which a name ends. -/
def isUserEnd (c : Char) : Bool := isUserSep c || c == '\n'

/-- The test of a line: the first occurrence of the name starts and ends like a name. -/
def fullName (first user : List Char) : Bool :=
  match strstr user first with
  | none => false
  | some (before, found) =>
      before.getLast?.all isUserSep && (found.drop user.length).head?.all isUserEnd

/-- `is_users_in_group`; `none` when the file cannot be read. -/
def isUsersInGroup (lines : Option (List ConfigLine)) (group user : List Char) : Bool :=
  match lines with
  | none => false
  | some lines => lines.any (fun line => line.key = group && fullName line.first user)

/-! ## The lists of the file -/

/-- The users of a line. -/
def ConfigLine.users (line : ConfigLine) : List (List Char) := line.rest.splitOnP isUserSep

/-- The user is in the list of a line of the group. -/
def InGroup (lines : List ConfigLine) (group user : List Char) : Prop :=
  ∃ line ∈ lines, line.key = group ∧ user ∈ line.users

/-- The user is in the list, and no user before has the name as a part. -/
def FirstWithin (users : List (List Char)) (user : List Char) : Prop :=
  ∃ before after, users = before ++ user :: after ∧ ∀ other ∈ before, ¬ user <:+: other

/-- The first user of a list is the one, or does not have the name as a part. -/
theorem firstWithin_cons {user first : List Char} {users : List (List Char)} :
    FirstWithin (first :: users) user ↔
      first = user ∨ (¬ user <:+: first ∧ FirstWithin users user) := by
  constructor
  · rintro ⟨before, after, hsplit, hbefore⟩
    cases before with
    | nil =>
        rw [List.nil_append, List.cons.injEq] at hsplit
        exact Or.inl hsplit.1
    | cons other before =>
        rw [List.cons_append, List.cons.injEq] at hsplit
        obtain ⟨rfl, rfl⟩ := hsplit
        exact Or.inr ⟨hbefore first List.mem_cons_self, before, after, rfl,
          fun other hother => hbefore other (List.mem_cons_of_mem first hother)⟩
  · rintro (rfl | ⟨hnot, before, after, rfl, hbefore⟩)
    · exact ⟨[], users, rfl, by simp⟩
    · refine ⟨first :: before, after, rfl, ?_⟩
      intro other hother
      rcases List.mem_cons.mp hother with rfl | hother
      · exact hnot
      · exact hbefore other hother

/-! ## A line -/

section Line

variable {user : List Char}

/-- A name without separators and newlines. -/
def PlainUser (user : List Char) : Prop := ∀ c ∈ user, isUserEnd c = false

instance (user : List Char) : Decidable (PlainUser user) := List.decidableBAll _ _

/-- A word in which the name occurs decides the line: it must be the name. -/
theorem fullName_within {word more : List Char} (hword : ∀ c ∈ word, isUserEnd c = false)
    (hmore : more.head?.all isUserEnd = true) (hin : user <:+: word) :
    fullName (word ++ more) user = true ↔ word = user := by
  cases hfind : strstr user word with
  | none => exact absurd hin ((strstr_none_iff word).mp hfind)
  | some r =>
      obtain ⟨before, found⟩ := r
      obtain ⟨rfl, after, rfl⟩ := strstr_some word hfind
      unfold fullName
      rw [strstr_some_append _ more hfind]
      simp only [List.append_assoc, List.drop_left, Bool.and_eq_true]
      constructor
      · rintro ⟨hstart, hend⟩
        have hbefore : before = [] := by
          by_contra hne
          obtain ⟨c, hc⟩ := Option.isSome_iff_exists.mp (List.getLast?_isSome.mpr hne)
          have hplain := hword c (by simp [List.mem_of_getLast? hc])
          rw [hc, Option.all_some] at hstart
          simp [isUserEnd, hstart] at hplain
        have hafter : after = [] := by
          cases after with
          | nil => rfl
          | cons c after =>
              have hplain := hword c (by simp)
              rw [List.cons_append, List.head?_cons, Option.all_some, hplain] at hend
              cases hend
        rw [hbefore, hafter]
        simp
      · intro hsame
        have hlen := congrArg List.length hsame
        simp only [List.length_append] at hlen
        have hbefore : before = [] := List.eq_nil_of_length_eq_zero (by omega)
        have hafter : after = [] := List.eq_nil_of_length_eq_zero (by omega)
        subst hbefore hafter
        exact ⟨rfl, by rwa [List.nil_append]⟩

/-- A word in which the name does not occur is passed. -/
theorem fullName_past {word s : List Char} {c : Char} (hc : isUserSep c = true)
    (hplain : PlainUser user) (hnot : ¬ user <:+: word) :
    fullName (word ++ c :: s) user = fullName s user := by
  have hmem : c ∉ user := by
    intro hmem
    have hfalse := hplain c hmem
    simp [isUserEnd, hc] at hfalse
  unfold fullName
  rw [strstr_word_none hmem hnot]
  cases strstr user s with
  | none => rfl
  | some r =>
      obtain ⟨before, found⟩ := r
      simp only [Option.map_some]
      cases before with
      | nil => simp [hc]
      | cons d before =>
          rw [List.getLast?_append_of_ne_nil _ (List.cons_ne_nil c (d :: before)),
            List.getLast?_cons_cons]

/-- The name is found on a line exactly if it is in its list with no name before that has it as
a part. -/
theorem fullName_iff (hne : user ≠ []) (hplain : PlainUser user) {behind : List Char}
    (hbehind : behind = [] ∨ behind = ['\n']) (rest : List Char) (hrest : '\n' ∉ rest) :
    fullName (rest ++ behind) user = true ↔ FirstWithin (rest.splitOnP isUserSep) user := by
  have hends : behind.head?.all isUserEnd = true := by
    rcases hbehind with rfl | rfl
    · rfl
    · decide
  have hword : ∀ word : List Char, IsWord isUserSep word → '\n' ∉ word →
      ∀ c ∈ word, isUserEnd c = false := by
    intro word hword hnewline c hc
    have hnot : c ≠ '\n' := fun h => hnewline (h ▸ hc)
    simp [isUserEnd, hword c hc, hnot]
  induction rest using words_induction (p := isUserSep) with
  | last word hsep =>
      rw [splitOnP_word hsep, firstWithin_cons]
      have hnone : ¬ FirstWithin [] user := by
        rintro ⟨before, after, hsplit, -⟩
        simp at hsplit
      -- the search stops at the first word that has the name as a part
      by_cases hin : user <:+: word
      · rw [fullName_within (hword word hsep hrest) hends hin]
        simp [hnone]
      · have hdiffer : word ≠ user := by
          rintro rfl
          exact hin List.infix_rfl
        have hfind : strstr user (word ++ behind) = none := by
          rw [strstr_none_iff]
          rcases hbehind with rfl | rfl
          · rwa [List.append_nil]
          · intro hcontra
            refine hin (infix_of_infix_concat ?_ hcontra)
            intro hmem
            have hfalse := hplain '\n' hmem
            cases hfalse
        simp [fullName, hfind, hnone, hdiffer]
  | more word c s hsep hc ih =>
      rw [splitOnP_word_cons hsep hc, firstWithin_cons, List.append_assoc, List.cons_append]
      have hline : '\n' ∉ word := fun h => hrest (List.mem_append_left _ h)
      have hnext : '\n' ∉ s :=
        fun h => hrest (List.mem_append_right _ (List.mem_cons_of_mem c h))
      by_cases hin : user <:+: word
      · rw [fullName_within (hword word hsep hline) (by simp [isUserEnd, hc]) hin]
        simp [hin]
      · have hdiffer : word ≠ user := by
          rintro rfl
          exact hin List.infix_rfl
        have hrec : fullName (s ++ behind) user = true ↔
            FirstWithin (s.splitOnP isUserSep) user := ih hnext
        rw [fullName_past hc hplain hin, hrec]
        simp [hin, hdiffer]

end Line

/-! ## The file -/

/-- Where the answer comes from. -/
theorem isUsersInGroup_iff {user : List Char} (hne : user ≠ []) (hplain : PlainUser user)
    (lines : List ConfigLine) (group : List Char) :
    isUsersInGroup (some lines) group user = true ↔
      ∃ line ∈ lines, line.key = group ∧ FirstWithin line.users user := by
  unfold isUsersInGroup
  simp only [List.any_eq_true, Bool.and_eq_true, decide_eq_true_eq]
  refine exists_congr (fun line => and_congr_right (fun _ => and_congr_right (fun _ => ?_)))
  refine fullName_iff hne hplain ?_ line.rest line.rest_line
  split
  · exact Or.inr rfl
  · exact Or.inl rfl

/-- Membership is decided by whole names exactly if a user of the group is on some line of it
with no name before that has the user's name as a part. -/
theorem group_users_iff (lines : List ConfigLine) (group : List Char) {user : List Char}
    (hne : user ≠ []) (hplain : PlainUser user) :
    (isUsersInGroup (some lines) group user = true ↔ InGroup lines group user) ↔
      (InGroup lines group user →
        ∃ line ∈ lines, line.key = group ∧ FirstWithin line.users user) := by
  rw [isUsersInGroup_iff hne hplain]
  have hmember : (∃ line ∈ lines, line.key = group ∧ FirstWithin line.users user) →
      InGroup lines group user := by
    rintro ⟨line, hline, hkey, before, after, husers, -⟩
    exact ⟨line, hline, hkey, by rw [husers]; simp⟩
  exact ⟨fun h => h.mpr, fun h => ⟨hmember, h⟩⟩

/-- A line of the group `g`. -/
def lineOfG (rest : String) (h : '\n' ∉ rest.toList) : ConfigLine := ⟨['g'], rest.toList, false, h⟩

/-- A name behind another one that it is not part of. -/
theorem group_users_bob :
    isUsersInGroup (some [lineOfG "alice bob" (by decide)]) ['g'] "bob".toList = true ↔
      InGroup [lineOfG "alice bob" (by decide)] ['g'] "bob".toList := by
  refine (group_users_iff _ _ (by decide) ?_).mpr ?_
  · decide
  · intro _
    refine ⟨_, List.mem_singleton_self _, rfl, ["alice".toList], [], by decide, ?_⟩
    intro other hother
    rw [List.mem_singleton] at hother
    subst hother
    decide

/-- A user whose name starts the name of another user of the line is not found. -/
theorem group_user_lost :
    ¬ (isUsersInGroup (some [lineOfG "alice,al" (by decide)]) ['g'] "al".toList = true ↔
      InGroup [lineOfG "alice,al" (by decide)] ['g'] "al".toList) := by
  have hanswer : isUsersInGroup (some [lineOfG "alice,al" (by decide)]) ['g'] "al".toList =
      false := by decide +kernel
  have hmember : InGroup [lineOfG "alice,al" (by decide)] ['g'] "al".toList :=
    ⟨_, List.mem_singleton_self _, rfl, by decide⟩
  rw [hanswer]
  intro hiff
  cases hiff.mpr hmember

end PlanSched
