/-
# The search for an account

`bin_search_account` (`plan_limits.cpp`) looks an account up in the ordered array of a snapshot
by halving: the bounds are inclusive, and the middle is the sum of two `int`s divided by two.
The search is that of `Bisection`, with one difference.  From index 2^30 on the sum of the
bounds no longer fits an `int`; it turns negative, and so does the index that is read.

* `binSearchAccountInt_bisect`, `binSearchAccountInt_overflows`: the search follows the
  bisection up to the first middle from 2^30 on, and reads outside the array there;
* `binSearchAccount_bisect`: `binSearchAccount`, which the limit profile is built on, takes the
  sum without overflow; up to index 2^30 it is the same search;
* `bin_search_account_iff`: the search is right for all accounts exactly on ranges that are
  empty or end below index 2^30.
-/
import PlanSched.Bisection
import PlanSched.Limits

namespace PlanSched

open CheckedRun Bisection

/-! ## The search with its reads -/

/-- What a call of `bin_search_account` does: the indices of `accounts` it reads, in order, and
what it returns. -/
structure AccountSearch : Type where
  reads : List ℤ
  result : Run ℤ

/-- The call that reads index `middle` and goes on with another call. -/
def AccountSearch.reading (middle : ℤ) (call : AccountSearch) : AccountSearch :=
  ⟨middle :: call.reads, call.result⟩

/-- `bin_search_account` on the cells `a..b`, with a budget of recursive calls and the sum of
the bounds in an `int`. -/
def binSearchAccountInt (accounts : List PlanLimitAccount) (id : ℤ) : ℕ → ℤ → ℤ → AccountSearch
  | 0, _, _ => ⟨[], .error .outOfSteps⟩
  | fuel + 1, a, b =>
      if b < a ∨ a > b then ⟨[], .ok (-1)⟩
      else
        let middle := (toInt (a + b)).tdiv 2
        -- a negative index is outside the array as well
        match if middle < 0 then .error .badIndex else getAt accounts middle.toNat with
        | .error fault => ⟨[middle], .error fault⟩
        | .ok account =>
            if account.accountId = id then ⟨[middle], .ok middle⟩
            else if a = b then ⟨[middle], .ok (-1)⟩
            else if id > account.accountId then
              (binSearchAccountInt accounts id fuel (middle + 1) b).reading middle
            else if id < account.accountId then
              (binSearchAccountInt accounts id fuel a (middle - 1)).reading middle
            else ⟨[middle], .ok (-1)⟩

/-! ## What the search is for -/

/-- Cell `i` of the array belongs to account `id`. -/
def HoldsAccount (accounts : List PlanLimitAccount) (id i : ℤ) : Prop :=
  0 ≤ i ∧ ∃ account, accounts[i.toNat]? = some account ∧ account.accountId = id

/-- The search for `id` in the cells `a..b` ends, reads these cells only, and returns the one
that belongs to the account, or -1 if there is none. -/
def SearchesFor (accounts : List PlanLimitAccount) (a b id : ℤ) : Prop :=
  ∃ steps, ∀ fuel, steps ≤ fuel →
    (∀ i ∈ (binSearchAccountInt accounts id fuel a b).reads, a ≤ i ∧ i ≤ b) ∧
    ∃ r, (binSearchAccountInt accounts id fuel a b).result = .ok r ∧
      (∀ i, a ≤ i → i ≤ b → HoldsAccount accounts id i → r = i) ∧
      ((∀ i, a ≤ i → i ≤ b → ¬ HoldsAccount accounts id i) → r = -1)

/-! ## One step -/

/-- The account of a cell. -/
def accountIdAt (accounts : List PlanLimitAccount) (i : ℤ) : ℤ :=
  ((accounts[i.toNat]?).map PlanLimitAccount.accountId).getD 0

/-- The indices that the bisection of `a..b` halves at on its way to account `id`. -/
def accountMiddles (accounts : List PlanLimitAccount) (id a b : ℤ) : List ℤ :=
  (bisect (accountIdAt accounts) id ((b - a).toNat + 1) a b).visits

/-- An `int` keeps a sum whose half is below 2^30. -/
theorem toInt_of_middle_lt {a b : ℤ} (ha : 0 ≤ a) (hab : a ≤ b) (h : (a + b) / 2 < 2 ^ 30) :
    (toInt (a + b)).tdiv 2 = (a + b) / 2 := by
  rw [toInt_of_range (by omega) (by omega), Int.tdiv_eq_ediv_of_nonneg (by omega)]

/-- A sum whose half is not turns negative. -/
theorem toInt_of_le_middle {a b : ℤ} (hb : b < 2 ^ 31) (hab : a ≤ b) (h : 2 ^ 30 ≤ (a + b) / 2) :
    (toInt (a + b)).tdiv 2 < 0 := by
  have hwraps : toInt (a + b) = -(2 ^ 32 - (a + b)) := by
    unfold toInt
    rw [Int.bmod_def]
    omega
  rw [hwraps, Int.neg_tdiv, Int.tdiv_eq_ediv_of_nonneg (by omega)]
  omega

variable {accounts : List PlanLimitAccount} {id a b : ℤ}

/-- A cell of the array can be read, and is the cell of one account. -/
theorem exists_account (accounts : List PlanLimitAccount) (i : ℤ) (hi : i < accounts.length)
    (h0 : 0 ≤ i) :
    ∃ account, getAt accounts i.toNat = .ok account ∧ accounts[i.toNat]? = some account ∧
      accountIdAt accounts i = account.accountId := by
  have hlt : i.toNat < accounts.length := by omega
  refine ⟨accounts[i.toNat], getAt_ok.mpr (List.getElem?_eq_getElem hlt),
    List.getElem?_eq_getElem hlt, ?_⟩
  unfold accountIdAt
  rw [List.getElem?_eq_getElem hlt]
  rfl

/-- One call with a middle below 2^30. -/
theorem binSearchAccountInt_step {fuel : ℕ} (ha : 0 ≤ a) (hb : b < accounts.length) (hab : a ≤ b)
    (hmiddle : (a + b) / 2 < 2 ^ 30) :
    binSearchAccountInt accounts id (fuel + 1) a b =
      if accountIdAt accounts ((a + b) / 2) = id then ⟨[(a + b) / 2], .ok ((a + b) / 2)⟩
      else if a = b then ⟨[(a + b) / 2], .ok (-1)⟩
      else if accountIdAt accounts ((a + b) / 2) < id then
        (binSearchAccountInt accounts id fuel ((a + b) / 2 + 1) b).reading ((a + b) / 2)
      else (binSearchAccountInt accounts id fuel a ((a + b) / 2 - 1)).reading ((a + b) / 2) := by
  obtain ⟨account, hget, -, hid⟩ := exists_account accounts ((a + b) / 2) (by omega) (by omega)
  rw [binSearchAccountInt, if_neg (by omega)]
  dsimp only
  rw [toInt_of_middle_lt ha hab hmiddle, if_neg (by omega), hget, hid]
  dsimp only
  split
  · rfl
  · next hne =>
      split
      · rfl
      · split
        · rfl
        · next hless => rw [if_pos (by omega)]

/-- A call whose middle is not below 2^30 reads a negative index. -/
theorem binSearchAccountInt_step_overflows {fuel : ℕ} (hb : b < 2 ^ 31) (hab : a ≤ b)
    (hmiddle : 2 ^ 30 ≤ (a + b) / 2) :
    ∃ i ∈ (binSearchAccountInt accounts id (fuel + 1) a b).reads, i < 0 := by
  have hnegative := toInt_of_le_middle hb hab hmiddle
  rw [binSearchAccountInt, if_neg (by omega)]
  dsimp only
  rw [if_pos hnegative]
  exact ⟨_, List.mem_singleton_self _, hnegative⟩

/-! ## The whole search -/

/-- While the middles are below 2^30, the search is the bisection. -/
theorem binSearchAccountInt_bisect (fuel : ℕ) : ∀ {a b : ℤ}, 0 ≤ a → b < accounts.length →
    b - a < fuel → 0 < fuel →
    (∀ m ∈ (bisect (accountIdAt accounts) id fuel a b).visits, m < 2 ^ 30) →
    binSearchAccountInt accounts id fuel a b =
      ⟨(bisect (accountIdAt accounts) id fuel a b).visits,
        .ok ((bisect (accountIdAt accounts) id fuel a b).found.getD (-1))⟩ := by
  induction fuel with
  | zero =>
      intro a b _ _ _ h0
      exact absurd h0 (lt_irrefl 0)
  | succ fuel ih =>
      intro a b ha hb hfuel _ hvisits
      by_cases hab : b < a
      · rw [bisect_of_lt hab, binSearchAccountInt, if_pos (Or.inl hab)]
        rfl
      · have hmiddle : (a + b) / 2 < 2 ^ 30 := by
          apply hvisits
          rw [bisect, if_neg hab]
          split
          · exact List.mem_singleton_self _
          · split
            · exact List.mem_cons_self
            · exact List.mem_cons_self
        rw [binSearchAccountInt_step ha hb (not_lt.mp hab) hmiddle]
        rw [bisect, if_neg hab] at hvisits ⊢
        split
        · rfl
        · next hne =>
            rw [if_neg hne] at hvisits
            split
            · next heq =>
                -- nothing is left on either side of a single cell
                subst heq
                have hself : (a + a) / 2 = a := by omega
                rw [hself, bisect_of_lt (by omega), bisect_of_lt (by omega)]
                split
                · rfl
                · rfl
            · next hdiffer =>
                split
                · next hless =>
                    rw [if_pos hless] at hvisits
                    rw [ih (by omega) hb (by omega) (by omega)
                      (fun m hm => hvisits m (List.mem_cons_of_mem _ hm))]
                    rfl
                · next hless =>
                    rw [if_neg hless] at hvisits
                    rw [ih ha (by omega) (by omega) (by omega)
                      (fun m hm => hvisits m (List.mem_cons_of_mem _ hm))]
                    rfl

/-- A middle from 2^30 on is where the search leaves the array. -/
theorem binSearchAccountInt_overflows (fuel : ℕ) : ∀ {a b m : ℤ}, 0 ≤ a → b < accounts.length →
    b < 2 ^ 31 → m ∈ (bisect (accountIdAt accounts) id fuel a b).visits → 2 ^ 30 ≤ m →
    ∃ i ∈ (binSearchAccountInt accounts id fuel a b).reads, i < 0 := by
  induction fuel with
  | zero =>
      intro a b m _ _ _ hm
      cases hm
  | succ fuel ih =>
      intro a b m ha hb hint hm hlarge
      by_cases hab : b < a
      · rw [bisect_of_lt hab] at hm
        cases hm
      · by_cases hmiddle : (a + b) / 2 < 2 ^ 30
        · rw [binSearchAccountInt_step ha hb (not_lt.mp hab) hmiddle]
          rw [bisect, if_neg hab] at hm
          split at hm
          · obtain rfl := List.mem_singleton.mp hm
            omega
          · next hne =>
              rw [if_neg hne]
              -- a single cell is its own middle, and that is below 2^30
              have hdiffer : a ≠ b := by
                rintro rfl
                have hself : (a + a) / 2 = a := by omega
                rw [hself, bisect_of_lt (by omega), bisect_of_lt (by omega)] at hm
                split at hm
                · obtain rfl := List.mem_singleton.mp hm
                  omega
                · obtain rfl := List.mem_singleton.mp hm
                  omega
              rw [if_neg hdiffer]
              split at hm
              · next hless =>
                  rw [if_pos hless]
                  rcases List.mem_cons.mp hm with rfl | hm
                  · omega
                  · obtain ⟨i, hi, hnegative⟩ := ih (by omega) hb hint hm hlarge
                    exact ⟨i, List.mem_cons_of_mem _ hi, hnegative⟩
              · next hless =>
                  rw [if_neg hless]
                  rcases List.mem_cons.mp hm with rfl | hm
                  · omega
                  · obtain ⟨i, hi, hnegative⟩ := ih ha (by omega) (by omega) hm hlarge
                    exact ⟨i, List.mem_cons_of_mem _ hi, hnegative⟩
        · exact binSearchAccountInt_step_overflows hint (not_lt.mp hab) (not_lt.mp hmiddle)

/-! ## When it is right -/

/-- In an ordered array, cells further on belong to larger accounts. -/
theorem accountId_lt (hinc : (accounts.map PlanLimitAccount.accountId).Pairwise (· < ·)) {i j : ℕ}
    {x y : PlanLimitAccount} (hx : accounts[i]? = some x) (hy : accounts[j]? = some y)
    (hij : i < j) : x.accountId < y.accountId := by
  obtain ⟨hi, rfl⟩ := List.getElem?_eq_some_iff.mp hx
  obtain ⟨hj, rfl⟩ := List.getElem?_eq_some_iff.mp hy
  have h := List.pairwise_iff_getElem.mp hinc i j (by simpa using hi) (by simpa using hj) hij
  simpa using h

/-- The accounts of an ordered array increase on every range of cells. -/
theorem accountIdAt_strictMonoOn
    (hinc : (accounts.map PlanLimitAccount.accountId).Pairwise (· < ·)) (ha : 0 ≤ a)
    (hb : b < accounts.length) : StrictMonoOn (accountIdAt accounts) (Set.Icc a b) := by
  rintro i ⟨hai, hib⟩ j ⟨haj, hjb⟩ hij
  obtain ⟨x, -, hx, hidx⟩ := exists_account accounts i (by omega) (by omega)
  obtain ⟨y, -, hy, hidy⟩ := exists_account accounts j (by omega) (by omega)
  rw [hidx, hidy]
  exact accountId_lt hinc hx hy (by omega)

/-- The account of a cell is the one it belongs to. -/
theorem holdsAccount_iff {i : ℤ} (h0 : 0 ≤ i) (hi : i < accounts.length) :
    HoldsAccount accounts id i ↔ accountIdAt accounts i = id := by
  obtain ⟨account, -, haccount, hid⟩ := exists_account accounts i hi h0
  rw [hid]
  constructor
  · rintro ⟨-, account', haccount', heq⟩
    rw [haccount] at haccount'
    rwa [Option.some.inj haccount']
  · intro heq
    exact ⟨h0, account, haccount, heq⟩

/-- What the bisection finds is what the search is to return. -/
theorem bisect_returns (hinc : (accounts.map PlanLimitAccount.accountId).Pairwise (· < ·))
    (ha : 0 ≤ a) (hb : b < accounts.length) {fuel : ℕ} (hfuel : b - a < fuel) {r : ℤ}
    (hr : (bisect (accountIdAt accounts) id fuel a b).found.getD (-1) = r) :
    (∀ i, a ≤ i → i ≤ b → HoldsAccount accounts id i → r = i) ∧
      ((∀ i, a ≤ i → i ≤ b → ¬ HoldsAccount accounts id i) → r = -1) := by
  have hmono := accountIdAt_strictMonoOn hinc ha hb
  constructor
  · intro i hai hib hholds
    have hid := (holdsAccount_iff (by omega) (by omega)).mp hholds
    rw [(bisect_found_iff fuel hmono hfuel).mpr ⟨⟨hai, hib⟩, hid⟩] at hr
    exact hr.symm
  · intro hnone
    cases hfound : (bisect (accountIdAt accounts) id fuel a b).found with
    | none =>
        rw [hfound] at hr
        exact hr.symm
    | some i =>
        obtain ⟨⟨hai, hib⟩, hid⟩ := (bisect_found_iff fuel hmono hfuel).mp hfound
        exact absurd ((holdsAccount_iff (by omega) (by omega)).mpr hid) (hnone i hai hib)

/-- The search for one account is right exactly if it halves below index 2^30 only. -/
theorem searchesFor_iff (hinc : (accounts.map PlanLimitAccount.accountId).Pairwise (· < ·))
    (ha : 0 ≤ a) (hb : b < accounts.length) (hint : b < 2 ^ 31) :
    SearchesFor accounts a b id ↔ ∀ m ∈ accountMiddles accounts id a b, m < 2 ^ 30 := by
  constructor
  · rintro ⟨steps, hsteps⟩ m hm
    by_contra hlarge
    have hmiddles : accountMiddles accounts id a b = (bisect (accountIdAt accounts) id
        (max steps ((b - a).toNat + 1)) a b).visits := by
      unfold accountMiddles
      rw [bisect_stable _ (max steps ((b - a).toNat + 1)) (by omega) (by omega)]
    rw [hmiddles] at hm
    obtain ⟨i, hi, hnegative⟩ := binSearchAccountInt_overflows _ ha hb hint hm (not_lt.mp hlarge)
    have hrange := (hsteps _ (le_max_left _ _)).1 i hi
    omega
  · intro hmiddles
    refine ⟨(b - a).toNat + 1, ?_⟩
    intro fuel hfuel
    have hstable : (bisect (accountIdAt accounts) id fuel a b).visits =
        accountMiddles accounts id a b := by
      unfold accountMiddles
      rw [bisect_stable fuel ((b - a).toNat + 1) (by omega) (by omega)]
    rw [binSearchAccountInt_bisect fuel ha hb (by omega) (by omega)
      (fun m hm => hmiddles m (hstable ▸ hm))]
    refine ⟨fun i hi => bisect_visits fuel hi, _, rfl, ?_⟩
    exact bisect_returns hinc ha hb (by omega) rfl

/-- The search for the account of the last cell halves at this cell. -/
theorem last_mem_accountMiddles
    (hinc : (accounts.map PlanLimitAccount.accountId).Pairwise (· < ·)) (ha : 0 ≤ a)
    (hb : b < accounts.length) (hab : a ≤ b) :
    b ∈ accountMiddles accounts (accountIdAt accounts b) a b := by
  have hfound := (bisect_found_iff ((b - a).toNat + 1) (accountIdAt_strictMonoOn hinc ha hb)
    (by omega)).mpr ⟨⟨hab, le_rfl⟩, rfl⟩
  exact (bisect_found _ hfound).1

/-- **The search is right for every account exactly on a range that is empty or ends below
index 2^30**; on a longer one it is right for the accounts that it looks for below that index
only. -/
theorem bin_search_account_iff
    (hinc : (accounts.map PlanLimitAccount.accountId).Pairwise (· < ·)) (ha : 0 ≤ a)
    (hb : b < accounts.length) (hint : b < 2 ^ 31) :
    ((∀ id, SearchesFor accounts a b id) ↔ b < a ∨ b < 2 ^ 30) ∧
      ∀ id, SearchesFor accounts a b id ↔ ∀ m ∈ accountMiddles accounts id a b, m < 2 ^ 30 := by
  refine ⟨?_, fun id => searchesFor_iff hinc ha hb hint⟩
  constructor
  · intro hall
    by_contra hlarge
    obtain ⟨hab, hend⟩ := not_or.mp hlarge
    have hlast := (searchesFor_iff hinc ha hb hint).mp (hall (accountIdAt accounts b)) b
      (last_mem_accountMiddles hinc ha hb (not_lt.mp hab))
    exact hend hlast
  · intro hrange id
    apply (searchesFor_iff hinc ha hb hint).mpr
    intro m hm
    have := bisect_visits _ hm
    omega

/-- One entry for each limit. -/
theorem length_noCpus : (List.replicate NUM_LIMITS (0 : ℤ)).length = NUM_LIMITS :=
  List.length_replicate

/-- An account without CPUs. -/
def unusedAccount (id : ℤ) : PlanLimitAccount := ⟨id, List.replicate NUM_LIMITS 0, length_noCpus⟩

/-- Among three accounts the second one is searched as it should be, and a missing one too. -/
theorem bin_search_account_three :
    SearchesFor [unusedAccount 3, unusedAccount 5, unusedAccount 9] 0 2 5 ∧
      SearchesFor [unusedAccount 3, unusedAccount 5, unusedAccount 9] 0 2 4 := by
  have hall : ∀ id,
      SearchesFor [unusedAccount 3, unusedAccount 5, unusedAccount 9] 0 2 id :=
    (bin_search_account_iff (by decide) (by decide) (by decide) (by decide)).1.mpr
      (Or.inr (by decide))
  exact ⟨hall 5, hall 4⟩

/-- The accounts `0..n-1`. -/
def accountsBelow (n : ℕ) : List PlanLimitAccount :=
  (List.range n).map (fun (i : ℕ) => unusedAccount i)

/-- They are in order. -/
theorem accountsBelow_increasing (n : ℕ) :
    ((accountsBelow n).map PlanLimitAccount.accountId).Pairwise (· < ·) := by
  unfold accountsBelow
  rw [List.map_map, List.pairwise_map]
  exact List.pairwise_lt_range.imp (fun hij => Int.ofNat_lt.mpr hij)

/-- The account of a cell is its index. -/
theorem accountIdAt_accountsBelow {n i : ℕ} (hi : i < n) :
    accountIdAt (accountsBelow n) i = i := by
  unfold accountIdAt accountsBelow
  rw [Int.toNat_natCast, List.getElem?_map, List.getElem?_range hi]
  rfl

/-- Among 2^30 + 1 accounts the last one is not found: the search comes to the range of its
cell alone, where the sum of the bounds is 2^31. -/
theorem last_account_missed :
    ((accountsBelow (2 ^ 30 + 1)).map PlanLimitAccount.accountId).Pairwise (· < ·) ∧
      (2 ^ 30 : ℤ) < (accountsBelow (2 ^ 30 + 1)).length ∧
      HoldsAccount (accountsBelow (2 ^ 30 + 1)) (2 ^ 30) (2 ^ 30) ∧
      ¬ SearchesFor (accountsBelow (2 ^ 30 + 1)) 0 (2 ^ 30) (2 ^ 30) := by
  have hinc := accountsBelow_increasing (2 ^ 30 + 1)
  have hlength : (2 ^ 30 : ℤ) < (accountsBelow (2 ^ 30 + 1)).length := by
    rw [accountsBelow, List.length_map, List.length_range]
    omega
  have hid : accountIdAt (accountsBelow (2 ^ 30 + 1)) (2 ^ 30) = 2 ^ 30 := by
    exact_mod_cast accountIdAt_accountsBelow (n := 2 ^ 30 + 1) (i := 2 ^ 30) (by omega)
  refine ⟨hinc, hlength, (holdsAccount_iff (by omega) hlength).mpr hid, ?_⟩
  intro hsearches
  have hlast := last_mem_accountMiddles hinc le_rfl hlength (by omega)
  rw [hid] at hlast
  exact lt_irrefl _ ((searchesFor_iff hinc le_rfl hlength (by omega)).mp hsearches _ hlast)

/-! ## The search without overflow -/

/-- `binSearchAccount` is the bisection. -/
theorem binSearchAccountAux_bisect (fuel : ℕ) : ∀ {a b : ℤ}, 0 ≤ a → b < accounts.length →
    b - a < fuel → 0 < fuel →
    binSearchAccountAux accounts id fuel a b =
      .ok ((bisect (accountIdAt accounts) id fuel a b).found.map Int.toNat) := by
  induction fuel with
  | zero =>
      intro a b _ _ _ h0
      exact absurd h0 (lt_irrefl 0)
  | succ fuel ih =>
      intro a b ha hb hfuel _
      by_cases hab : b < a
      · rw [bisect_of_lt hab, binSearchAccountAux, if_pos hab]
        rfl
      · obtain ⟨account, hget, -, hid⟩ := exists_account accounts ((a + b) / 2)
          (by omega) (by omega)
        rw [bisect, if_neg hab, binSearchAccountAux, if_neg hab, hid]
        dsimp only
        rw [Int.tdiv_eq_ediv_of_nonneg (by omega), if_neg (by omega), hget]
        show (if account.accountId = id then _ else _ : Run (Option ℕ)) = _
        split
        · rfl
        · split
          · next heq =>
              subst heq
              have hself : (a + a) / 2 = a := by omega
              rw [hself, bisect_of_lt (by omega), bisect_of_lt (by omega)]
              split
              · rfl
              · rfl
          · next hdiffer =>
              split
              · rw [ih (by omega) hb (by omega) (by omega)]
                rfl
              · rw [ih ha (by omega) (by omega) (by omega)]
                rfl

/-- The search of the limit profile returns what the search in `int`s returns, if that one
halves below index 2^30 only. -/
theorem binSearchAccount_bisect (ha : 0 ≤ a) (hb : b < accounts.length)
    (hmiddles : ∀ m ∈ accountMiddles accounts id a b, m < 2 ^ 30) :
    (binSearchAccountInt accounts id ((b - a).toNat + 1) a b).result =
      (binSearchAccount accounts a b id).map
        (fun found => (found.map (fun (i : ℕ) => (i : ℤ))).getD (-1)) := by
  unfold accountMiddles at hmiddles
  rw [binSearchAccountInt_bisect _ ha hb (by omega) (by omega) hmiddles]
  unfold binSearchAccount
  rw [binSearchAccountAux_bisect _ ha hb (by omega) (by omega),
    bisect_stable ((b - a).toNat + 2) ((b - a).toNat + 1) (by omega) (by omega)]
  cases hfound : (bisect (accountIdAt accounts) id ((b - a).toNat + 1) a b).found with
  | none => rfl
  | some i =>
      have hrange := bisect_visits _ (bisect_found _ hfound).1
      show Except.ok i = Except.ok ((i.toNat : ℕ) : ℤ)
      rw [Int.toNat_of_nonneg (by omega)]

end PlanSched
