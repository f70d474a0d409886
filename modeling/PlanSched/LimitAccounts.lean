/-
# Accounts of a snapshot

`add_limit_to_limit` (`plan_limits.cpp`) keeps the accounts of a snapshot in an array that
`limit_find_account` searches by halving.  A new account is moved up in front of the larger
ones, but the loop stops behind the first cell: the account that came first stays first,
whatever its number.

* `accountTotal_addLimits`: no CPU that is added gets lost, it may only be hard to find;
* `accountsExact_iff`: the accounts are in order, and found with all of their CPUs, exactly
  if none has a smaller number than the first one.
-/
import PlanSched.AccountSearch
import PlanSched.UpdateSched

namespace PlanSched

open CheckedRun Bisection

/-! ## Calls and what they add -/

/-- The arguments of one call of `add_limit_to_limit`. -/
structure AccountCall where
  accountId : ℤ
  walltime : ℤ
  numCpus : ℤ
  deriving DecidableEq, Repr

/-- A sequence of calls of `add_limit_to_limit` on one snapshot. -/
def addLimits (conf : LimitsForClusters) (cluster : PlanCluster) (calls : List AccountCall)
    (limit : PlanLimit) : Run PlanLimit :=
  calls.foldlM (fun limit call =>
    addLimitToLimit conf cluster limit call.accountId call.walltime call.numCpus) limit

/-- The CPUs a call adds for account `id` in class `c`. -/
def AccountCall.cpusFor (conf : LimitsForClusters) (cluster : PlanCluster) (call : AccountCall)
    (id : ℤ) (c : ℕ) : ℤ :=
  if call.accountId = id ∧ walltimeSuitsToLimit conf call.walltime cluster = .ok c then
    call.numCpus
  else 0

/-- The CPUs the calls add for account `id` in class `c`. -/
def addedCpus (conf : LimitsForClusters) (cluster : PlanCluster) (calls : List AccountCall)
    (id : ℤ) (c : ℕ) : ℤ :=
  (calls.map (fun call => call.cpusFor conf cluster id c)).sum

/-- The account numbers of a snapshot, in the order of the array. -/
def PlanLimit.accountIds (limit : PlanLimit) : List ℤ :=
  limit.accounts.map PlanLimitAccount.accountId

/-- The accounts are in order, and every account the calls named is found, with the CPUs
that were added for it; no other one is. -/
structure AccountsExact (conf : LimitsForClusters) (cluster : PlanCluster)
    (calls : List AccountCall) (limit : PlanLimit) : Prop where
  increasing : limit.accountIds.Pairwise (· < ·)
  found : ∀ call ∈ calls, ∃ (i : ℕ) (account : PlanLimitAccount),
    limitFindAccount limit call.accountId = .ok (some i) ∧ limit.accounts[i]? = some account ∧
    ∀ c < NUM_LIMITS, account.numCpus[c]? = some (addedCpus conf cluster calls call.accountId c)
  absent : ∀ id, (∀ call ∈ calls, call.accountId ≠ id) → limitFindAccount limit id = .ok none

/-! ## One call -/

/-- What one call does: it finds the account or enters it, and adds the CPUs to its class. -/
structure CallStep (conf : LimitsForClusters) (cluster : PlanCluster) (limit : PlanLimit)
    (call : AccountCall) (limit' : PlanLimit) (found : Option ℕ) (base : PlanLimit) (pos : ℕ)
    (account : PlanLimitAccount) (foundLimit : ℕ) : Prop where
  find_eq : limitFindAccount limit call.accountId = .ok found
  cell_eq : accountCell limit call.accountId found = (base, pos)
  class_eq : walltimeSuitsToLimit conf call.walltime cluster = .ok foundLimit
  class_lt : foundLimit < NUM_LIMITS
  account_eq : base.accounts[pos]? = some account
  id_eq : account.accountId = call.accountId
  result_eq : limit' = { base with
    accounts := base.accounts.set pos (account.addCpus foundLimit call.numCpus) }

section Calls

variable {conf : LimitsForClusters} {cluster : PlanCluster} {limit limit' : PlanLimit}
  {call : AccountCall} {calls : List AccountCall}

/-- The account a call entered is where `limit_add_account` says. -/
theorem getElem?_entered (limit : PlanLimit) (accountId : ℤ) :
    (limitAddAccount limit accountId).1.accounts[(limitAddAccount limit accountId).2]? =
      some ⟨accountId, List.replicate NUM_LIMITS 0, List.length_replicate⟩ := by
  unfold limitAddAccount
  dsimp only
  rw [List.getElem?_insertIdx_self, if_pos (newPosition_le _ _ _)]

/-- The parts of a call that returns. -/
theorem addLimitToLimit_step
    (h : addLimitToLimit conf cluster limit call.accountId call.walltime call.numCpus
      = .ok limit') :
    ∃ found base pos account foundLimit,
      CallStep conf cluster limit call limit' found base pos account foundLimit := by
  unfold addLimitToLimit at h
  obtain ⟨found, hfound, h⟩ := bind_ok.mp h
  obtain ⟨foundLimit, hclass, h⟩ := bind_ok.mp h
  obtain ⟨account, haccount, h⟩ := bind_ok.mp h
  obtain ⟨cpus, hcpus, h⟩ := bind_ok.mp h
  rw [getAt_ok] at haccount hcpus
  have hlt : foundLimit < NUM_LIMITS := by
    obtain ⟨hlt, -⟩ := List.getElem?_eq_some_iff.mp hcpus
    rw [account.length_numCpus] at hlt
    exact hlt
  refine ⟨found, _, _, account, foundLimit, hfound, rfl, hclass, hlt, haccount, ?_,
    (pure_ok.mp h).symm⟩
  cases found with
  | none =>
      have hentered := getElem?_entered limit call.accountId
      rw [show (limitAddAccount limit call.accountId).1.accounts[
        (limitAddAccount limit call.accountId).2]? = some account from haccount] at hentered
      rw [Option.some.inj hentered]
  | some i =>
      obtain ⟨r, hr, hcell⟩ := limitFindAccount_spec limit call.accountId
      rw [hfound] at hr
      cases hr
      obtain ⟨account', haccount', hid⟩ := hcell i rfl
      rw [show limit.accounts[i]? = some account from haccount] at haccount'
      rw [Option.some.inj haccount', hid]

/-- Adding CPUs to a cell keeps the account numbers. -/
theorem CallStep.accountIds_eq {found : Option ℕ} {base : PlanLimit} {pos foundLimit : ℕ}
    {account : PlanLimitAccount}
    (h : CallStep conf cluster limit call limit' found base pos account foundLimit) :
    limit'.accountIds = base.accountIds := by
  rw [h.result_eq]
  unfold PlanLimit.accountIds
  dsimp only
  apply List.ext_getElem?
  intro i
  rw [List.map_set, List.getElem?_set]
  split
  · next heq =>
      subst heq
      rw [List.getElem?_map, h.account_eq]
      obtain ⟨hlt, -⟩ := List.getElem?_eq_some_iff.mp h.account_eq
      rw [if_pos (by rw [List.length_map]; exact hlt)]
      rfl
  · rfl

/-- The account numbers after an account was entered. -/
theorem accountIds_limitAddAccount (limit : PlanLimit) (accountId : ℤ) :
    (limitAddAccount limit accountId).1.accountIds =
      limit.accountIds.insertIdx (limitAddAccount limit accountId).2 accountId := by
  unfold limitAddAccount PlanLimit.accountIds
  dsimp only
  rw [List.map_insertIdx]

/-! ## No CPU gets lost -/

/-- The CPUs of class `c` in all cells of account `id`. -/
def PlanLimit.accountTotal (limit : PlanLimit) (id : ℤ) (c : ℕ) : ℤ :=
  (limit.accounts.map (fun account =>
    if account.accountId = id then account.numCpus.getD c 0 else 0)).sum

/-- A new account enters with zero CPUs. -/
theorem accountTotal_limitAddAccount (limit : PlanLimit) (accountId id : ℤ) (c : ℕ) :
    (limitAddAccount limit accountId).1.accountTotal id c = limit.accountTotal id c := by
  unfold limitAddAccount PlanLimit.accountTotal
  have hperm := List.perm_insertIdx
    (⟨accountId, List.replicate NUM_LIMITS 0, List.length_replicate⟩ : PlanLimitAccount)
    limit.accounts (newPosition_le limit.accounts accountId limit.accounts.length)
  rw [(hperm.map _).sum_eq, List.map_cons, List.sum_cons]
  have hzero : (List.replicate NUM_LIMITS (0 : ℤ)).getD c 0 = 0 := by
    rw [List.getD_eq_getElem?_getD, List.getElem?_replicate]
    split
    · rfl
    · rfl
  dsimp only
  rw [hzero, ite_self, zero_add]

/-- A call adds its CPUs to the total of its account and class, and to no other. -/
theorem CallStep.accountTotal_eq {found : Option ℕ} {base : PlanLimit} {pos foundLimit : ℕ}
    {account : PlanLimitAccount}
    (h : CallStep conf cluster limit call limit' found base pos account foundLimit) (id : ℤ)
    (c : ℕ) :
    limit'.accountTotal id c = limit.accountTotal id c + call.cpusFor conf cluster id c := by
  -- a new account starts without CPUs
  have hbase : base.accountTotal id c = limit.accountTotal id c := by
    have hcell := h.cell_eq
    cases found with
    | none =>
        obtain rfl : (limitAddAccount limit call.accountId).1 = base := congrArg Prod.fst hcell
        exact accountTotal_limitAddAccount limit call.accountId id c
    | some i =>
        obtain rfl : limit = base := congrArg Prod.fst hcell
        rfl
  obtain ⟨hlt, hget⟩ := List.getElem?_eq_some_iff.mp h.account_eq
  have hcpus : call.cpusFor conf cluster id c =
      if call.accountId = id ∧ c = foundLimit then call.numCpus else 0 := by
    unfold AccountCall.cpusFor
    rw [h.class_eq]
    by_cases hc : c = foundLimit
    · subst hc
      simp only [and_true]
    · have hne : ¬ (Except.ok foundLimit : Run ℕ) = .ok c := fun heq => hc (Except.ok.inj heq).symm
      rw [if_neg (fun hboth => hne hboth.2), if_neg (fun hboth => hc hboth.2)]
  rw [← hbase, hcpus, h.result_eq]
  unfold PlanLimit.accountTotal
  dsimp only
  rw [List.map_set, List.sum_set', dif_pos (by rw [List.length_map]; exact hlt),
    List.getElem_map, hget, getD_addCpus account call.numCpus c h.class_lt]
  have hid : (account.addCpus foundLimit call.numCpus).accountId = call.accountId := h.id_eq
  rw [hid, h.id_eq]
  by_cases heq : call.accountId = id
  · rw [if_pos heq, if_pos heq]
    by_cases hc : c = foundLimit
    · rw [if_pos hc, if_pos ⟨heq, hc⟩]
      ring
    · rw [if_neg hc, if_neg (fun hboth => hc hboth.2)]
      ring
  · rw [if_neg heq, if_neg heq, if_neg (fun hboth => heq hboth.1)]
    ring

/-- No CPU that is added gets lost. -/
theorem accountTotal_addLimits (calls : List AccountCall) (id : ℤ) (c : ℕ) :
    ∀ {limit limit' : PlanLimit}, addLimits conf cluster calls limit = .ok limit' →
      limit'.accountTotal id c = limit.accountTotal id c + addedCpus conf cluster calls id c := by
  induction calls with
  | nil =>
      intro limit limit' h
      cases h
      show _ = _ + (0 : ℤ)
      omega
  | cons call calls ih =>
      intro limit limit' h
      unfold addLimits at h
      rw [List.foldlM_cons] at h
      obtain ⟨next, hnext, h⟩ := bind_ok.mp h
      obtain ⟨found, base, pos, account, foundLimit, hstep⟩ := addLimitToLimit_step hnext
      rw [ih h, hstep.accountTotal_eq id c]
      show _ = _ + ((call.cpusFor conf cluster id c) + addedCpus conf cluster calls id c)
      omega

/-! ## The first account stays first -/

/-- A new account never goes in front of the first one. -/
theorem newPosition_pos (accounts : List PlanLimitAccount) (accountId : ℤ) {p : ℕ} (hp : 0 < p) :
    0 < newPosition accounts accountId p := by
  induction p with
  | zero => omega
  | succ p ih =>
      rw [newPosition]
      split
      · next hmove => exact ih hmove.1
      · omega

/-- After a call its account is in the array, those of before are, and a first account stays
first. -/
theorem CallStep.accountIds_cases {found : Option ℕ} {base : PlanLimit} {pos foundLimit : ℕ}
    {account : PlanLimitAccount}
    (h : CallStep conf cluster limit call limit' found base pos account foundLimit) :
    call.accountId ∈ limit'.accountIds ∧ (∀ id ∈ limit.accountIds, id ∈ limit'.accountIds) ∧
      (∀ id ∈ limit'.accountIds, id = call.accountId ∨ id ∈ limit.accountIds) ∧
      limit'.accountIds.head? = some (limit.accountIds.head?.getD call.accountId) := by
  rw [h.accountIds_eq]
  have hcell := h.cell_eq
  have hmem : call.accountId ∈ base.accountIds := by
    rw [← h.id_eq]
    exact List.mem_map_of_mem (List.mem_of_getElem? h.account_eq)
  cases found with
  | some i =>
      obtain rfl : limit = base := congrArg Prod.fst hcell
      refine ⟨hmem, fun _ hid => hid, fun _ hid => Or.inr hid, ?_⟩
      cases hids : limit.accountIds with
      | nil =>
          rw [hids] at hmem
          cases hmem
      | cons first rest => rfl
  | none =>
      obtain rfl : (limitAddAccount limit call.accountId).1 = base := congrArg Prod.fst hcell
      have hpos : (limitAddAccount limit call.accountId).2 ≤ limit.accountIds.length := by
        unfold PlanLimit.accountIds
        rw [List.length_map]
        exact newPosition_le _ _ _
      rw [accountIds_limitAddAccount] at hmem ⊢
      refine ⟨hmem, ?_, ?_, ?_⟩
      · intro id hid
        exact (List.mem_insertIdx hpos).mpr (Or.inr hid)
      · intro id hid
        exact (List.mem_insertIdx hpos).mp hid
      -- a new account is put behind the first one, if there is one
      · by_cases hempty : limit.accounts = []
        · have hids : limit.accountIds = [] := by
            unfold PlanLimit.accountIds
            rw [hempty]
            rfl
          have hzero : (limitAddAccount limit call.accountId).2 = 0 := by
            rw [hids] at hpos
            exact Nat.le_zero.mp hpos
          rw [hids, hzero]
          rfl
        · have hlength : 0 < limit.accounts.length := List.length_pos_iff.mpr hempty
          have hone : 0 < (limitAddAccount limit call.accountId).2 :=
            newPosition_pos _ _ hlength
          obtain ⟨p, hp⟩ := Nat.exists_eq_succ_of_ne_zero hone.ne'
          have hids : limit.accountIds ≠ [] := by
            intro hnil
            exact hempty (List.map_eq_nil_iff.mp hnil)
          obtain ⟨first, rest, hcons⟩ := List.exists_cons_of_ne_nil hids
          rw [hcons, hp, List.insertIdx_succ_cons]
          rfl

/-- What any sequence of calls leaves: the account of the first call is the first one, and
the accounts are those of the calls. -/
theorem addLimits_accountIds (calls : List AccountCall) :
    ∀ {limit limit' : PlanLimit}, addLimits conf cluster calls limit = .ok limit' →
      (∀ call ∈ calls, call.accountId ∈ limit'.accountIds) ∧
      (∀ id ∈ limit.accountIds, id ∈ limit'.accountIds) ∧
      (∀ id ∈ limit'.accountIds, id ∈ limit.accountIds ∨ ∃ call ∈ calls, call.accountId = id) ∧
      (limit.accountIds ≠ [] → limit'.accountIds.head? = limit.accountIds.head?) := by
  induction calls with
  | nil =>
      intro limit limit' h
      cases h
      refine ⟨by simp, fun _ hid => hid, fun _ hid => Or.inl hid, fun _ => rfl⟩
  | cons call calls ih =>
      intro limit limit' h
      unfold addLimits at h
      rw [List.foldlM_cons] at h
      obtain ⟨next, hnext, h⟩ := bind_ok.mp h
      obtain ⟨found, base, pos, account, foundLimit, hstep⟩ := addLimitToLimit_step hnext
      obtain ⟨hown, hkept, horigin, hhead⟩ := hstep.accountIds_cases
      obtain ⟨hcalls, hkept', horigin', hhead'⟩ := ih h
      refine ⟨?_, ?_, ?_, ?_⟩
      · intro call' hcall'
        rcases List.mem_cons.mp hcall' with rfl | hcall'
        · exact hkept' _ hown
        · exact hcalls call' hcall'
      · intro id hid
        exact hkept' id (hkept id hid)
      · intro id hid
        rcases horigin' id hid with hid | ⟨call', hcall', heq⟩
        · rcases horigin id hid with rfl | hid
          · exact Or.inr ⟨call, List.mem_cons_self, rfl⟩
          · exact Or.inl hid
        · exact Or.inr ⟨call', List.mem_cons_of_mem _ hcall', heq⟩
      · intro hne
        have hnextne : next.accountIds ≠ [] := List.ne_nil_of_mem hown
        rw [hhead' hnextne, hhead]
        obtain ⟨first, rest, hcons⟩ := List.exists_cons_of_ne_nil hne
        rw [hcons]
        rfl

/-! ## Accounts in order -/

/-- In an ordered array the search misses no cell. -/
theorem binSearchAccount_none {accounts : List PlanLimitAccount} {id a b : ℤ}
    (hinc : (accounts.map PlanLimitAccount.accountId).Pairwise (· < ·)) (ha : 0 ≤ a)
    (hb : b < accounts.length) (h : binSearchAccount accounts a b id = .ok none) :
    ∀ (i : ℕ) (account : PlanLimitAccount), a ≤ i → i ≤ b → accounts[i]? = some account →
      account.accountId ≠ id := by
  intro i account hai hib haccount hid
  unfold binSearchAccount at h
  rw [binSearchAccountAux_bisect _ ha hb (by omega) (by omega)] at h
  have hkey := (holdsAccount_iff (Int.natCast_nonneg i) (hib.trans_lt hb)).mp
    ⟨Int.natCast_nonneg i, account, haccount, hid⟩
  rw [(bisect_found_iff ((b - a).toNat + 2) (accountIdAt_strictMonoOn hinc ha hb)
    (by omega)).mpr ⟨⟨hai, hib⟩, hkey⟩] at h
  cases h

/-- In an ordered array every account is found. -/
theorem limitFindAccount_mem (hinc : limit.accountIds.Pairwise (· < ·)) {id : ℤ}
    (hid : id ∈ limit.accountIds) : ∃ (i : ℕ) (account : PlanLimitAccount),
      limitFindAccount limit id = .ok (some i) ∧ limit.accounts[i]? = some account ∧
        account.accountId = id := by
  obtain ⟨r, hr, hcell⟩ := limitFindAccount_spec limit id
  cases r with
  | some i =>
      obtain ⟨account, haccount, heq⟩ := hcell i rfl
      exact ⟨i, account, hr, haccount, heq⟩
  | none =>
      exfalso
      obtain ⟨account, hmem, rfl⟩ := List.mem_map.mp hid
      obtain ⟨i, haccount⟩ := List.mem_iff_getElem?.mp hmem
      obtain ⟨hi, -⟩ := List.getElem?_eq_some_iff.mp haccount
      unfold limitFindAccount at hr
      rw [if_neg (by omega)] at hr
      obtain ⟨first, hfirst, hr⟩ := bind_ok.mp hr
      obtain ⟨last, hlast, hr⟩ := bind_ok.mp hr
      rw [getAt_ok] at hfirst hlast
      -- the account is not below the first one and not above the last one
      have hlow : first.accountId ≤ account.accountId := by
        rcases Nat.eq_zero_or_pos i with rfl | hpos
        · rw [haccount] at hfirst
          cases hfirst
          exact le_rfl
        · exact (accountId_lt hinc hfirst haccount hpos).le
      have hhigh : account.accountId ≤ last.accountId := by
        rcases Nat.lt_or_ge i (limit.accounts.length - 1) with hbefore | hafter
        · exact (accountId_lt hinc haccount hlast hbefore).le
        · have hsame : i = limit.accounts.length - 1 := by omega
          rw [← hsame, haccount] at hlast
          cases hlast
          exact le_rfl
      rw [if_neg (by omega)] at hr
      exact binSearchAccount_none hinc le_rfl (by omega) hr i account (by omega) (by omega) haccount
        rfl

/-- An account that is not in the array is not found. -/
theorem limitFindAccount_notMem {id : ℤ} (hid : id ∉ limit.accountIds) :
    limitFindAccount limit id = .ok none := by
  obtain ⟨r, hr, hcell⟩ := limitFindAccount_spec limit id
  cases r with
  | none => exact hr
  | some i =>
      obtain ⟨account, haccount, heq⟩ := hcell i rfl
      refine absurd ?_ hid
      rw [← heq]
      exact List.mem_map_of_mem (List.mem_of_getElem? haccount)

/-- What the loop of `limit_add_account` leaves behind the new account is larger, and it stops
at an account that is not, or at the first one. -/
theorem newPosition_spec (accounts : List PlanLimitAccount) (accountId : ℤ) (p : ℕ) :
    (∀ (j : ℕ) (account : PlanLimitAccount), newPosition accounts accountId p ≤ j → j < p →
      accounts[j]? = some account → accountId < account.accountId) ∧
    (1 < newPosition accounts accountId p → ∀ account,
      accounts[newPosition accounts accountId p - 1]? = some account →
        account.accountId ≤ accountId) := by
  induction p with
  | zero =>
      refine ⟨?_, ?_⟩
      · intro j account _ hj
        omega
      · intro h
        rw [newPosition] at h
        omega
  | succ p ih =>
      rw [newPosition]
      split
      · next hmove =>
          refine ⟨?_, ih.2⟩
          intro j account hle hj haccount
          rcases Nat.lt_or_ge j p with hjp | hjp
          · exact ih.1 j account hle hjp haccount
          · have heq : j = p := by omega
            subst heq
            rw [haccount] at hmove
            exact hmove.2
      · next hstop =>
          refine ⟨by intro j account hle hj; omega, ?_⟩
          intro hone account haccount
          rw [Nat.add_sub_cancel] at haccount
          rw [haccount] at hstop
          have hp : 0 < p := by omega
          by_contra hgt
          exact hstop ⟨hp, not_le.mp hgt⟩

/-- Entering an item behind the first ones. -/
theorem insertIdx_append_length (id : ℤ) (pre post : List ℤ) :
    (pre ++ post).insertIdx pre.length id = pre ++ id :: post := by
  induction pre with
  | nil => rfl
  | cons a pre ih => rw [List.cons_append, List.length_cons, List.insertIdx_succ_cons, ih]; rfl

/-- A new account that is larger than the first one is entered in order. -/
theorem increasing_limitAddAccount (hinc : limit.accountIds.Pairwise (· < ·)) {id : ℤ}
    (hid : id ∉ limit.accountIds) (hfirst : ∀ first ∈ limit.accountIds.head?, first < id) :
    (limitAddAccount limit id).1.accountIds.Pairwise (· < ·) := by
  set p := (limitAddAccount limit id).2 with hp
  have hle : p ≤ limit.accounts.length := newPosition_le _ _ _
  obtain ⟨hbehind, hbefore⟩ := newPosition_spec limit.accounts id limit.accounts.length
  have hpnew : newPosition limit.accounts id limit.accounts.length = p := rfl
  rw [hpnew] at hbehind hbefore
  -- the array is cut at the position of the new account
  have hcut : limit.accountIds.take p ++ limit.accountIds.drop p = limit.accountIds :=
    List.take_append_drop p _
  have hlength : (limit.accountIds.take p).length = p := by
    rw [List.length_take, PlanLimit.accountIds, List.length_map]
    omega
  have hentered : (limitAddAccount limit id).1.accountIds =
      limit.accountIds.take p ++ id :: limit.accountIds.drop p := by
    rw [accountIds_limitAddAccount, ← hp, ← insertIdx_append_length, hlength, hcut]
  have hpairs : (limit.accountIds.take p ++ limit.accountIds.drop p).Pairwise (· < ·) := by
    rw [hcut]
    exact hinc
  rw [List.pairwise_append] at hpairs
  rw [hentered, List.pairwise_append, List.pairwise_cons]
  have hafter : ∀ x ∈ limit.accountIds.drop p, id < x := by
    intro x hx
    obtain ⟨j, hj⟩ := List.mem_iff_getElem?.mp hx
    rw [List.getElem?_drop, PlanLimit.accountIds, List.getElem?_map,
      Option.map_eq_some_iff] at hj
    obtain ⟨account, haccount, rfl⟩ := hj
    obtain ⟨hlt, -⟩ := List.getElem?_eq_some_iff.mp haccount
    exact hbehind (p + j) account (by omega) hlt haccount
  have hfront : ∀ x ∈ limit.accountIds.take p, x < id := by
    intro x hx
    obtain ⟨j, hj⟩ := List.mem_iff_getElem?.mp hx
    obtain ⟨hjlt, -⟩ := List.getElem?_eq_some_iff.mp hj
    rw [hlength] at hjlt
    rw [List.getElem?_take_of_lt hjlt, PlanLimit.accountIds, List.getElem?_map,
      Option.map_eq_some_iff] at hj
    obtain ⟨account, haccount, rfl⟩ := hj
    rcases Nat.lt_or_ge 1 p with hone | hone
    · -- the account in front of the new one is smaller, and so are those before it
      obtain ⟨previous, hprevious⟩ : ∃ previous, limit.accounts[p - 1]? = some previous :=
        ⟨_, List.getElem?_eq_getElem (by omega)⟩
      have hsmall := hbefore hone previous hprevious
      have hne : previous.accountId ≠ id := by
        intro heq
        exact hid (heq ▸ List.mem_map_of_mem (List.mem_of_getElem? hprevious))
      rcases Nat.lt_or_ge j (p - 1) with hless | hmore
      · have := accountId_lt hinc haccount hprevious hless
        omega
      · have heq : j = p - 1 := by omega
        rw [heq, hprevious] at haccount
        cases haccount
        omega
    · have hzero : j = 0 := by omega
      subst hzero
      refine hfirst _ ?_
      rw [PlanLimit.accountIds, List.head?_eq_getElem?, List.getElem?_map, haccount]
      rfl
  refine ⟨hpairs.1, ⟨hafter, hpairs.2.1⟩, ?_⟩
  intro x hx y hy
  rcases List.mem_cons.mp hy with rfl | hy
  · exact hfront x hx
  · exact hpairs.2.2 x hx y hy

/-- A call for an account that is not smaller than the first one keeps the order. -/
theorem CallStep.increasing {found : Option ℕ} {base : PlanLimit} {pos foundLimit : ℕ}
    {account : PlanLimitAccount}
    (h : CallStep conf cluster limit call limit' found base pos account foundLimit)
    (hinc : limit.accountIds.Pairwise (· < ·))
    (hfirst : ∀ first ∈ limit.accountIds.head?, first ≤ call.accountId) :
    limit'.accountIds.Pairwise (· < ·) := by
  rw [h.accountIds_eq]
  have hcell := h.cell_eq
  cases found with
  | some i =>
      obtain rfl : limit = base := congrArg Prod.fst hcell
      exact hinc
  | none =>
      obtain rfl : (limitAddAccount limit call.accountId).1 = base := congrArg Prod.fst hcell
      have hid : call.accountId ∉ limit.accountIds := by
        intro hmem
        obtain ⟨i, account', hfound, -⟩ := limitFindAccount_mem hinc hmem
        rw [h.find_eq] at hfound
        cases hfound
      refine increasing_limitAddAccount hinc hid ?_
      intro first hmem
      have hle := hfirst first hmem
      have hne : first ≠ call.accountId := by
        rintro rfl
        exact hid (List.mem_of_head? hmem)
      omega

/-- Calls for accounts that are not smaller than the first one keep the order. -/
theorem addLimits_increasing (calls : List AccountCall) {first : ℤ} :
    ∀ {limit limit' : PlanLimit}, addLimits conf cluster calls limit = .ok limit' →
      limit.accountIds.Pairwise (· < ·) → limit.accountIds.head? = some first →
      (∀ call ∈ calls, first ≤ call.accountId) → limit'.accountIds.Pairwise (· < ·) := by
  induction calls with
  | nil =>
      intro limit limit' h hinc _ _
      cases h
      exact hinc
  | cons call calls ih =>
      intro limit limit' h hinc hhead hcalls
      unfold addLimits at h
      rw [List.foldlM_cons] at h
      obtain ⟨next, hnext, h⟩ := bind_ok.mp h
      obtain ⟨found, base, pos, account, foundLimit, hstep⟩ := addLimitToLimit_step hnext
      obtain ⟨-, -, -, hhead'⟩ := hstep.accountIds_cases
      refine ih h ?_ ?_ (fun call' hcall' => hcalls call' (List.mem_cons_of_mem _ hcall'))
      · refine hstep.increasing hinc ?_
        intro first' hfirst'
        rw [hhead] at hfirst'
        cases hfirst'
        exact hcalls call List.mem_cons_self
      · rw [hhead', hhead]
        rfl

/-- In an ordered array the cell of an account has all of its CPUs. -/
theorem accountTotal_eq_cell (hinc : limit.accountIds.Pairwise (· < ·)) {i : ℕ}
    {account : PlanLimitAccount} (haccount : limit.accounts[i]? = some account) (c : ℕ) :
    limit.accountTotal account.accountId c = account.numCpus.getD c 0 := by
  obtain ⟨pre, post, hsplit⟩ := List.append_of_mem (List.mem_of_getElem? haccount)
  have hnodup : (limit.accounts.map PlanLimitAccount.accountId).Nodup := hinc.imp (fun h => h.ne)
  rw [hsplit, List.map_append, List.map_cons, List.nodup_append, List.nodup_cons] at hnodup
  have hothers : ∀ accounts : List PlanLimitAccount,
      (∀ a ∈ accounts, a.accountId ≠ account.accountId) →
      (accounts.map (fun a => if a.accountId = account.accountId then a.numCpus.getD c 0
        else 0)).sum = 0 := by
    intro accounts hne
    apply List.sum_eq_zero
    intro x hx
    obtain ⟨a, ha, rfl⟩ := List.mem_map.mp hx
    rw [if_neg (hne a ha)]
  unfold PlanLimit.accountTotal
  rw [hsplit, List.map_append, List.sum_append, List.map_cons, List.sum_cons, if_pos rfl,
    hothers pre, hothers post]
  · omega
  · intro a ha heq
    exact hnodup.2.1.1 (heq ▸ List.mem_map_of_mem ha)
  · intro a ha heq
    exact hnodup.2.2 _ (List.mem_map_of_mem ha) _ List.mem_cons_self heq

end Calls

/-! ## Exact accounts -/

/-- After any sequence of calls on a new snapshot the accounts are in order, and found with
all of their CPUs, exactly if no account has a smaller number than that of the first call. -/
theorem accountsExact_iff {conf : LimitsForClusters} {cluster : PlanCluster} {timestamp : ℤ}
    {calls : List AccountCall} {limit : PlanLimit}
    (h : addLimits conf cluster calls (limitCreate timestamp) = .ok limit) :
    AccountsExact conf cluster calls limit ↔
      ∀ first ∈ calls.head?, ∀ call ∈ calls, first.accountId ≤ call.accountId := by
  cases calls with
  | nil =>
      cases h
      refine ⟨by simp, fun _ => ⟨List.Pairwise.nil, by simp, fun _ _ => rfl⟩⟩
  | cons first calls =>
      obtain ⟨hcalls, -, horigin, -⟩ := addLimits_accountIds _ h
      have hrest := h
      unfold addLimits at hrest
      rw [List.foldlM_cons] at hrest
      obtain ⟨next, hnext, hrest⟩ := bind_ok.mp hrest
      obtain ⟨found, base, pos, account, foundLimit, hstep⟩ := addLimitToLimit_step hnext
      obtain ⟨hown, -, -, hhead⟩ := hstep.accountIds_cases
      have hheadnext : next.accountIds.head? = some first.accountId := hhead
      obtain ⟨-, -, -, hheadkept⟩ := addLimits_accountIds calls hrest
      have hheadlimit : limit.accountIds.head? = some first.accountId :=
        (hheadkept (List.ne_nil_of_mem hown)).trans hheadnext
      -- the first account stays first, whatever its number
      have hinc_iff : limit.accountIds.Pairwise (· < ·) ↔
          ∀ call ∈ first :: calls, first.accountId ≤ call.accountId := by
        constructor
        · intro hinc call hcall
          obtain ⟨rest, hids⟩ := List.head?_eq_some_iff.mp hheadlimit
          have hmem := hcalls call hcall
          rw [hids] at hinc hmem
          rcases List.mem_cons.mp hmem with heq | hmem
          · exact heq.ge
          · exact ((List.pairwise_cons.mp hinc).1 _ hmem).le
        · intro hall
          refine addLimits_increasing calls hrest ?_ hheadnext
            (fun call hcall => hall call (List.mem_cons_of_mem _ hcall))
          refine hstep.increasing List.Pairwise.nil ?_
          intro id hid
          cases hid
      constructor
      · intro hexact first' hfirst'
        cases hfirst'
        exact hinc_iff.mp hexact.increasing
      · intro hall
        have hinc := hinc_iff.mpr (hall first rfl)
        refine ⟨hinc, ?_, ?_⟩
        · intro call hcall
          obtain ⟨i, cell, hfound, hcell, hid⟩ := limitFindAccount_mem hinc (hcalls call hcall)
          refine ⟨i, cell, hfound, hcell, ?_⟩
          intro c hc
          have hlt : c < cell.numCpus.length := by
            rw [cell.length_numCpus]
            exact hc
          have htotal := accountTotal_addLimits (first :: calls) call.accountId c h
          rw [← hid, accountTotal_eq_cell hinc hcell] at htotal
          rw [List.getElem?_eq_getElem hlt, ← hid]
          rw [List.getD_eq_getElem _ _ hlt] at htotal
          rw [htotal]
          congr 1
          exact zero_add _
        · intro id hnot
          refine limitFindAccount_notMem ?_
          intro hmem
          rcases horigin id hmem with hmem | ⟨call, hcall, heq⟩
          · cases hmem
          · exact hnot call hcall heq

/-- The first account is the smallest one. -/
theorem accountsExact_three :
    ∃ limit, addLimits oneClass ⟨"zubat", [], 0, 0, 0⟩ [⟨3, 600, 2⟩, ⟨5, 600, 1⟩, ⟨4, 600, 7⟩]
        (limitCreate 1000) = .ok limit ∧
      AccountsExact oneClass ⟨"zubat", [], 0, 0, 0⟩ [⟨3, 600, 2⟩, ⟨5, 600, 1⟩, ⟨4, 600, 7⟩]
        limit := by
  have hrun : (addLimits oneClass ⟨"zubat", [], 0, 0, 0⟩
      [⟨3, 600, 2⟩, ⟨5, 600, 1⟩, ⟨4, 600, 7⟩] (limitCreate 1000) >>= fun limit =>
        pure limit.accountIds) = .ok [3, 4, 5] := by
    decide +kernel
  obtain ⟨limit, hlimit, -⟩ := bind_ok.mp hrun
  exact ⟨limit, hlimit, (accountsExact_iff hlimit).mpr (by decide)⟩

/-- A smaller account comes later: it is not found, and entered once more with every call. -/
theorem accounts_split :
    ∃ limit, addLimits oneClass ⟨"zubat", [], 0, 0, 0⟩ [⟨5, 600, 2⟩, ⟨3, 600, 1⟩, ⟨3, 600, 7⟩]
        (limitCreate 1000) = .ok limit ∧ limit.accountIds = [5, 3, 3] ∧
      limitFindAccount limit 3 = .ok none ∧
      ¬ AccountsExact oneClass ⟨"zubat", [], 0, 0, 0⟩ [⟨5, 600, 2⟩, ⟨3, 600, 1⟩, ⟨3, 600, 7⟩]
        limit := by
  have hrun : (do
      let limit ← addLimits oneClass ⟨"zubat", [], 0, 0, 0⟩
        [⟨5, 600, 2⟩, ⟨3, 600, 1⟩, ⟨3, 600, 7⟩] (limitCreate 1000)
      let found ← limitFindAccount limit 3
      return (limit.accountIds, found) : Run _) = .ok ([5, 3, 3], none) := by
    decide +kernel
  obtain ⟨limit, hlimit, hrun⟩ := bind_ok.mp hrun
  obtain ⟨found, hfound, hrun⟩ := bind_ok.mp hrun
  obtain ⟨hids, rfl⟩ := Prod.mk.inj (pure_ok.mp hrun)
  refine ⟨limit, hlimit, hids, hfound, ?_⟩
  intro hexact
  have hinc := hexact.increasing
  rw [hids] at hinc
  exact absurd hinc (by decide)

end PlanSched
