/-
# The decay of the fairshare trees over the cycles

The loop of `update_fairshare` that decays the trees, once for each half life it finds
passed, and the time it stores afterwards.  The loop compares strictly and the time is
computed with a remainder: the two agree except where a number of half lives greater than
one has passed exactly, and the loop has no end where the half life is not positive, as
when the configuration does not set it.

* `DecayLoop` is the loop with the number of its rounds, `decayLoop_ok_iff` and
  `updateFairshare_decays` say that it is that of `updateFairshare`;
* `decays_once_per_halfLife_iff`: when the rounds make up the time that is stored, and how
  many they are over any sequence of cycles.
-/
import PlanSched.Fairshare

namespace PlanSched.Fairshare

/-! ## The loop -/

/-- `while (t - last_decay > conf.half_life)`, with the number of its rounds. -/
inductive DecayLoop (halfLife lastDecay : ℤ) : ℤ → ℕ → Prop
  | stop {t : ℤ} (h : t - lastDecay ≤ halfLife) : DecayLoop halfLife lastDecay t 0
  | round {t : ℤ} {n : ℕ} (h : halfLife < t - lastDecay)
      (rest : DecayLoop halfLife lastDecay (t - halfLife) n) :
      DecayLoop halfLife lastDecay t (n + 1)

/-- `last_decay` after the loop: written if the trees were decayed. -/
def newLastDecay (halfLife lastDecay now : ℤ) : ℤ :=
  if now - lastDecay > halfLife then now - (now - lastDecay).tmod halfLife else lastDecay

variable {halfLife lastDecay : ℤ}

/-- Without a positive half life there is no round that is followed by the end. -/
theorem DecayLoop.of_nonpos {t : ℤ} {n : ℕ} (hlife : halfLife ≤ 0)
    (h : DecayLoop halfLife lastDecay t n) : n = 0 ∧ t - lastDecay ≤ halfLife := by
  induction h with
  | stop h => exact ⟨rfl, h⟩
  | @round t n h rest ih =>
      -- the time left has not become less
      have hleft : t - lastDecay ≤ t - halfLife - lastDecay :=
        sub_le_sub_right (le_sub_self_iff t |>.mpr hlife) lastDecay
      exact absurd (lt_of_lt_of_le h (hleft.trans ih.2)) (lt_irrefl _)

/-- At most a half life is left, and no round was made too early. -/
theorem DecayLoop.left {t : ℤ} {n : ℕ} (h : DecayLoop halfLife lastDecay t n) :
    t - lastDecay - n * halfLife ≤ halfLife ∧ (n = 0 ∨ n * halfLife < t - lastDecay) := by
  induction h with
  | stop h => exact ⟨by rw [Nat.cast_zero, zero_mul]; omega, Or.inl rfl⟩
  | @round t n h rest ih =>
      have hsucc : ((n + 1 : ℕ) : ℤ) * halfLife = n * halfLife + halfLife := by
        rw [Nat.cast_succ, add_mul, one_mul]
      rw [hsucc]
      refine ⟨by omega, Or.inr ?_⟩
      rcases ih.2 with rfl | hearly
      · rw [Nat.cast_zero, zero_mul, zero_add]
        exact h
      · omega

/-- With one, the loop ends. -/
theorem decayLoop_ends (hlife : 0 < halfLife) (d : ℕ) :
    ∀ t : ℤ, (t - lastDecay).toNat = d → ∃ n, DecayLoop halfLife lastDecay t n := by
  induction d using Nat.strong_induction_on with
  | _ d ih =>
      intro t hd
      by_cases h : halfLife < t - lastDecay
      · obtain ⟨n, hn⟩ := ih (t - halfLife - lastDecay).toNat (by omega) _ rfl
        exact ⟨n + 1, .round h hn⟩
      · exact ⟨0, .stop (not_lt.mp h)⟩

/-- The rounds are no more than the seconds. -/
theorem DecayLoop.le_toNat {t : ℤ} {n : ℕ} (h : DecayLoop halfLife lastDecay t n) :
    n ≤ (t - lastDecay).toNat := by
  by_cases hlife : 0 < halfLife
  · rcases h.left.2 with rfl | hearly
    · exact Nat.zero_le _
    · have : (n : ℤ) * 1 ≤ n * halfLife :=
        mul_le_mul_of_nonneg_left hlife (Int.natCast_nonneg n)
      omega
  · rw [(h.of_nonpos (not_lt.mp hlife)).1]
    exact Nat.zero_le _

/-- The loop of `update_fairshare` returns exactly if it ends, with that many decays. -/
theorem decayLoop_ok_iff {t : ℤ} {world world' : World} :
    decayLoop halfLife lastDecay (t - lastDecay).toNat t world = .ok world' ↔
      ∃ n, DecayLoop halfLife lastDecay t n ∧ world' = World.decayTrees^[n] world := by
  constructor
  · generalize (t - lastDecay).toNat = fuel
    intro h
    induction fuel generalizing t world with
    | zero =>
        rw [decayLoop] at h
        split at h
        · cases h
        · next hstop =>
            cases h
            exact ⟨0, .stop (not_lt.mp hstop), rfl⟩
    | succ fuel ih =>
        rw [decayLoop] at h
        split at h
        · next hround =>
            obtain ⟨n, hn, rfl⟩ := ih h
            exact ⟨n + 1, .round hround hn, rfl⟩
        · next hstop =>
            cases h
            exact ⟨0, .stop (not_lt.mp hstop), rfl⟩
  · rintro ⟨n, hloop, rfl⟩
    have hfuel := hloop.le_toNat
    generalize (t - lastDecay).toNat = fuel at hfuel
    induction hloop generalizing fuel world with
    | stop h => exact decayLoop_of_le h fuel world
    | round h rest ih =>
        obtain ⟨fuel, rfl⟩ : ∃ k, fuel = k + 1 := ⟨fuel - 1, by omega⟩
        rw [decayLoop, if_pos h]
        exact ih fuel (by omega)

/-! ## One cycle -/

/-- What a cycle charges leaves the time of the last decay. -/
theorem setUsageAt_lastDecay {world world' : World} {addr : ℕ} {f : GroupInfo → ℤ × ℤ}
    (h : world.setUsageAt addr f = .ok world') : world'.lastDecay = world.lastDecay := by
  obtain ⟨_, _, _, _, _, hdecay⟩ := setUsageAt_cases h
  exact hdecay

/-- The same for a record. -/
theorem chargeJob_lastDecay {jobs : List CycleJob} {world world' : World}
    {previous : PrevJobInfo} (h : chargeJob jobs world previous = .ok world') :
    world'.lastDecay = world.lastDecay := by
  unfold chargeJob at h
  dsimp only at h
  split at h
  · cases h
    rfl
  · split at h
    · cases h
    · next job _ _ ginfo _ =>
        cases hadded : addedUsage job previous ginfo.usage with
        | error failure =>
            rw [hadded] at h
            cases h
        | ok usage =>
            rw [hadded] at h
            exact setUsageAt_lastDecay h

/-- A fold of such steps. -/
theorem foldlM_lastDecay {f : World → PrevJobInfo → Except Failure World}
    (hstep : ∀ world previous world', f world previous = .ok world' →
      world'.lastDecay = world.lastDecay) (records : List PrevJobInfo) :
    ∀ {world world' : World}, records.foldlM f world = .ok world' →
      world'.lastDecay = world.lastDecay := by
  induction records with
  | nil =>
      intro world world' h
      cases h
      rfl
  | cons previous records ih =>
      intro world world' h
      rw [List.foldlM_cons] at h
      cases hnext : f world previous with
      | error failure =>
          rw [hnext] at h
          cases h
      | ok next =>
          rw [hnext] at h
          exact (ih h).trans (hstep _ _ _ hnext)

/-- So do the decays. -/
theorem decayTrees_lastDecay (n : ℕ) :
    ∀ world : World, (World.decayTrees^[n] world).lastDecay = world.lastDecay := by
  induction n with
  | zero => exact fun world => rfl
  | succ n ih =>
      intro world
      rw [Function.iterate_succ_apply, ih]
      rfl

/-- A cycle charges the records, assigns the temporary usages of their nodes, decays the trees in
each round of the loop and stores the time. -/
theorem updateFairshare_runs {conf : CycleConf} {jobs : List CycleJob} {world world' : World}
    (hfair : conf.fairShare = true) (h : updateFairshare conf jobs world = .ok world') :
    ∃ first charged n, world.lastRunning.foldlM (chargeJob jobs) world = .ok first ∧
      first.lastRunning.foldlM (fun world previous =>
        world.setUsageAt previous.ginfo (fun ginfo => (ginfo.usage, ginfo.usage))) first
          = .ok charged ∧
      DecayLoop conf.halfLife (world.lastDecay.getD 0) conf.now n ∧
      world'.trees = (World.decayTrees^[n] charged).trees ∧
      world'.lastDecay.getD 0
        = newLastDecay conf.halfLife (world.lastDecay.getD 0) conf.now := by
  unfold updateFairshare at h
  rw [if_neg (not_not.mpr hfair)] at h
  -- a failure in one of the three loops is a failure of the cycle
  cases hcharge : world.lastRunning.foldlM (chargeJob jobs) world with
  | error failure =>
      rw [hcharge] at h
      cases h
  | ok first =>
      rw [hcharge] at h
      dsimp only [bind, Except.bind] at h
      have hfirst := foldlM_lastDecay (fun _ _ _ => chargeJob_lastDecay) _ hcharge
      cases hassign : first.lastRunning.foldlM (fun world previous =>
          world.setUsageAt previous.ginfo (fun ginfo => (ginfo.usage, ginfo.usage))) first with
      | error failure =>
          rw [hassign] at h
          cases h
      | ok charged =>
          rw [hassign] at h
          dsimp only [bind, Except.bind] at h
          have hsecond := foldlM_lastDecay (fun _ _ _ => setUsageAt_lastDecay) _ hassign
          rw [hsecond, hfirst] at h
          cases hloop : decayLoop conf.halfLife (world.lastDecay.getD 0)
              (conf.now - world.lastDecay.getD 0).toNat conf.now charged with
          | error failure =>
              rw [hloop] at h
              cases h
          | ok decayed =>
              obtain ⟨n, hn, rfl⟩ := decayLoop_ok_iff.mp hloop
              rw [hloop] at h
              refine ⟨first, charged, n, rfl, hassign, hn, ?_⟩
              have hkept := decayTrees_lastDecay n charged
              rw [hsecond, hfirst] at hkept
              unfold newLastDecay
              dsimp only at h
              by_cases hdue : conf.now - world.lastDecay.getD 0 > conf.halfLife
              · simp only [if_pos hdue] at h ⊢
                split at h <;> cases h <;> exact ⟨rfl, rfl⟩
              · simp only [if_neg hdue] at h ⊢
                rw [← hkept]
                split at h <;> cases h <;> exact ⟨rfl, rfl⟩

/-- What a cycle decays and stores. -/
theorem updateFairshare_decays {conf : CycleConf} {jobs : List CycleJob} {world world' : World}
    (hfair : conf.fairShare = true) (h : updateFairshare conf jobs world = .ok world') :
    ∃ charged n, DecayLoop conf.halfLife (world.lastDecay.getD 0) conf.now n ∧
      world'.trees = (World.decayTrees^[n] charged).trees ∧
      world'.lastDecay.getD 0
        = newLastDecay conf.halfLife (world.lastDecay.getD 0) conf.now := by
  obtain ⟨-, charged, n, -, -, hdecays⟩ := updateFairshare_runs hfair h
  exact ⟨charged, n, hdecays⟩

/-! ## The property and the condition -/

/-- The loop ends, and its rounds make up the time between the stored decays. -/
def DecaysExactly (halfLife lastDecay now : ℤ) : Prop :=
  ∃ n : ℕ, DecayLoop halfLife lastDecay now n ∧
    n * halfLife = newLastDecay halfLife lastDecay now - lastDecay

/-- The half life is positive, and either no more than one has passed or they have not passed
exactly; or it is zero and no time has passed. -/
def DecayMeets (halfLife lastDecay now : ℤ) : Prop :=
  (0 < halfLife ∧ (now - lastDecay ≤ halfLife ∨ ¬ halfLife ∣ now - lastDecay)) ∨
    (halfLife = 0 ∧ now = lastDecay)

/-- Cycles one after the other: the number of all decays, and the stored time at the end. -/
inductive Cycles (halfLife : ℤ) : ℤ → List ℤ → ℕ → ℤ → Prop
  | nil {lastDecay : ℤ} : Cycles halfLife lastDecay [] 0 lastDecay
  | cons {lastDecay now final : ℤ} {nows : List ℤ} {n total : ℕ}
      (h : DecayLoop halfLife lastDecay now n)
      (rest : Cycles halfLife (newLastDecay halfLife lastDecay now) nows total final) :
      Cycles halfLife lastDecay (now :: nows) (n + total) final

/-- The number of rounds is determined. -/
theorem DecayLoop.unique {t : ℤ} {n n' : ℕ} (h : DecayLoop halfLife lastDecay t n)
    (h' : DecayLoop halfLife lastDecay t n') : n = n' := by
  induction h generalizing n' with
  | stop h =>
      cases h' with
      | stop _ => rfl
      | round hround _ => exact absurd h (not_le.mpr hround)
  | round h rest ih =>
      cases h' with
      | stop hstop => exact absurd hstop (not_le.mpr h)
      | round _ rest' => rw [ih rest']

/-- So is what a run of cycles leaves. -/
theorem Cycles.unique {nows : List ℤ} {total total' : ℕ} {final final' : ℤ}
    (h : Cycles halfLife lastDecay nows total final)
    (h' : Cycles halfLife lastDecay nows total' final') : total = total' ∧ final = final' := by
  induction h generalizing total' final' with
  | nil =>
      cases h'
      exact ⟨rfl, rfl⟩
  | cons h rest ih =>
      cases h' with
      | cons h' rest' =>
          obtain ⟨htotal, hfinal⟩ := ih rest'
          exact ⟨by rw [h.unique h', htotal], hfinal⟩

/-- Each cycle meets the condition, with the time that is stored before it. -/
def CyclesMeet (halfLife : ℤ) : ℤ → List ℤ → Prop
  | _, [] => True
  | lastDecay, now :: nows => DecayMeets halfLife lastDecay now ∧
      CyclesMeet halfLife (newLastDecay halfLife lastDecay now) nows

/-! ## Runs -/

/-- The remainder is what the loop leaves, unless that is a whole half life. -/
theorem DecayLoop.emod {t : ℤ} {n : ℕ} (hlife : 0 < halfLife)
    (h : DecayLoop halfLife lastDecay t n) (hdue : halfLife < t - lastDecay) :
    (t - lastDecay - n * halfLife < halfLife ∧
        (t - lastDecay).tmod halfLife = t - lastDecay - n * halfLife ∧
        ¬ halfLife ∣ t - lastDecay) ∨
      (t - lastDecay - n * halfLife = halfLife ∧ (t - lastDecay).tmod halfLife = 0 ∧
        halfLife ∣ t - lastDecay) := by
  obtain ⟨hleft, hearly⟩ := h.left
  have hrest : 0 < t - lastDecay - n * halfLife := by
    rcases hearly with rfl | hearly
    · rw [Nat.cast_zero, zero_mul]
      omega
    · omega
  have hmod : (t - lastDecay).tmod halfLife = (t - lastDecay - n * halfLife) % halfLife := by
    rw [Int.tmod_eq_emod_of_nonneg (by omega), Int.sub_mul_emod_self_right]
  rcases lt_or_eq_of_le hleft with hlt | heq
  · have hemod := Int.emod_eq_of_lt hrest.le hlt
    rw [hmod, hemod]
    refine Or.inl ⟨hlt, rfl, ?_⟩
    intro hdvd
    rw [Int.dvd_iff_emod_eq_zero, ← Int.sub_mul_emod_self_right _ n, hemod] at hdvd
    omega
  · rw [hmod, heq, Int.emod_self]
    refine Or.inr ⟨rfl, rfl, ?_⟩
    have hwhole : t - lastDecay = halfLife * (n + 1) := by linarith
    exact hwhole ▸ dvd_mul_right _ _

/-- When a cycle decays exactly. -/
theorem decaysExactly_iff {now : ℤ} (h : lastDecay ≤ now) :
    DecaysExactly halfLife lastDecay now ↔ DecayMeets halfLife lastDecay now := by
  unfold DecaysExactly DecayMeets newLastDecay
  rcases lt_trichotomy halfLife 0 with hneg | hzero | hpos
  · refine iff_of_false ?_ (by omega)
    rintro ⟨n, hloop, _⟩
    have := (hloop.of_nonpos hneg.le).2
    omega
  · subst hzero
    constructor
    · rintro ⟨n, hloop, _⟩
      have := (hloop.of_nonpos le_rfl).2
      exact Or.inr ⟨rfl, by omega⟩
    · rintro (⟨hpos, _⟩ | ⟨_, rfl⟩)
      · exact absurd hpos (lt_irrefl _)
      · exact ⟨0, .stop (by omega), by simp⟩
  · obtain ⟨n, hloop⟩ := @decayLoop_ends halfLife lastDecay hpos _ now rfl
    by_cases hlong : now - lastDecay > halfLife
    · rw [if_pos hlong]
      rcases hloop.emod hpos hlong with ⟨_, hmod, hnot⟩ | ⟨heq, hmod, hdvd⟩
      · refine iff_of_true ⟨n, hloop, ?_⟩ (Or.inl ⟨hpos, Or.inr hnot⟩)
        rw [hmod]
        omega
      · refine iff_of_false ?_ ?_
        · rintro ⟨m, hm, hsum⟩
          rcases hm.emod hpos hlong with ⟨_, _, hnot⟩ | ⟨heq', _, _⟩
          · exact hnot hdvd
          · rw [hmod] at hsum
            omega
        · rintro (⟨_, hshort | hnot⟩ | ⟨hzero, _⟩)
          · omega
          · exact hnot hdvd
          · omega
    · rw [if_neg hlong]
      exact iff_of_true ⟨0, .stop (not_lt.mp hlong), by simp⟩ (Or.inl ⟨hpos, Or.inl (by omega)⟩)

/-- The number of rounds, from the time alone. -/
theorem DecayLoop.count {t : ℤ} {n : ℕ} (hlife : 0 < halfLife)
    (h : DecayLoop halfLife lastDecay t n) : n = ((t - lastDecay - 1) / halfLife).toNat := by
  obtain ⟨hleft, hearly⟩ := h.left
  have hbelow : (t - lastDecay - 1) / halfLife < n + 1 := by
    rw [Int.ediv_lt_iff_lt_mul hlife, add_mul, one_mul]
    omega
  rcases hearly with rfl | hearly
  · rw [Nat.cast_zero, zero_add] at hbelow
    omega
  · have habove : (n : ℤ) ≤ (t - lastDecay - 1) / halfLife := by
      rw [Int.le_ediv_iff_mul_le hlife]
      omega
    omega

/-- The stored time is not later than the cycle. -/
theorem newLastDecay_le {now : ℤ} (h : lastDecay ≤ now) :
    newLastDecay halfLife lastDecay now ≤ now := by
  unfold newLastDecay
  split
  · have := Int.tmod_nonneg halfLife (sub_nonneg.mpr h)
    omega
  · exact h

/-- Cycles that all meet the condition decay as often as one of them at the end would. -/
theorem cycles_exact (nows : List ℤ) : ∀ {lastDecay : ℤ},
    (lastDecay :: nows).IsChain (· ≤ ·) → CyclesMeet halfLife lastDecay nows →
    ∃ total final, Cycles halfLife lastDecay nows total final ∧
      total * halfLife = final - lastDecay ∧
      ∀ last ∈ nows.getLast?, total = ((last - lastDecay - 1) / halfLife).toNat := by
  induction nows with
  | nil =>
      intro lastDecay _ _
      refine ⟨0, lastDecay, .nil, by simp, ?_⟩
      intro last hlast
      cases hlast
  | cons now nows ih =>
      intro lastDecay hchain hmeet
      rw [List.isChain_cons_cons] at hchain
      obtain ⟨hle, hchain⟩ := hchain
      obtain ⟨n, hloop, hsum⟩ := (decaysExactly_iff hle).mpr hmeet.1
      have hnew := @newLastDecay_le halfLife lastDecay now hle
      have hnext : (newLastDecay halfLife lastDecay now :: nows).IsChain (· ≤ ·) := by
        cases nows with
        | nil => exact List.isChain_singleton _
        | cons next nows =>
            rw [List.isChain_cons_cons] at hchain ⊢
            exact ⟨hnew.trans hchain.1, hchain.2⟩
      obtain ⟨total, final, hcycles, htotal, hcount⟩ := ih hnext hmeet.2
      refine ⟨n + total, final, .cons hloop hcycles, ?_, ?_⟩
      · rw [Nat.cast_add, add_mul, htotal, hsum]
        omega
      · intro last hlast
        rcases hmeet.1 with ⟨hpos, _⟩ | ⟨hzero, _⟩
        · cases nows with
          | nil =>
              cases hlast
              cases hcycles
              rw [Nat.add_zero]
              exact hloop.count hpos
          | cons next nows =>
              rw [List.getLast?_cons_cons] at hlast
              have hlater : now ≤ last := by
                have hpair := List.isChain_iff_pairwise.mp hchain
                exact List.rel_of_pairwise_cons hpair (List.mem_of_getLast? hlast)
              rw [hcount last hlast]
              -- the rounds so far leave as many half lives less
              have hsplit : last - newLastDecay halfLife lastDecay now - 1
                  = last - lastDecay - 1 - n * halfLife := by omega
              rw [hsplit, Int.sub_mul_ediv_right _ _ hpos.ne']
              rcases hloop.left.2 with rfl | hearly
              · rw [Nat.cast_zero, sub_zero, Nat.zero_add]
              · have hpast : (n : ℤ) ≤ (last - lastDecay - 1) / halfLife := by
                  rw [Int.le_ediv_iff_mul_le hpos]
                  omega
                omega
        · subst hzero
          have hnone : n = 0 := (hloop.of_nonpos le_rfl).1
          rw [hnone, Int.ediv_zero]
          cases nows with
          | nil =>
              cases hcycles
              rfl
          | cons next nows =>
              rw [List.getLast?_cons_cons] at hlast
              rw [hcount last hlast, Int.ediv_zero]
              rfl

/-! ## The whole -/

/-- When the decays make up the time that is stored; how many they are over cycles that all meet
the condition, however the time is split; and that a cycle of the scheduler is one of these. -/
theorem decays_once_per_halfLife_iff (halfLife lastDecay : ℤ) :
    (∀ now, lastDecay ≤ now →
      (DecaysExactly halfLife lastDecay now ↔ DecayMeets halfLife lastDecay now)) ∧
    (∀ nows, (lastDecay :: nows).IsChain (· ≤ ·) → CyclesMeet halfLife lastDecay nows →
      (∃ total final, Cycles halfLife lastDecay nows total final) ∧
      ∀ total final, Cycles halfLife lastDecay nows total final →
        total * halfLife = final - lastDecay ∧
        ∀ last ∈ nows.getLast?, total = ((last - lastDecay - 1) / halfLife).toNat) ∧
    (∀ conf jobs world world', conf.fairShare = true → conf.halfLife = halfLife →
      world.lastDecay.getD 0 = lastDecay → updateFairshare conf jobs world = .ok world' →
      ∃ charged n, DecayLoop halfLife lastDecay conf.now n ∧
        world'.trees = (World.decayTrees^[n] charged).trees ∧
        world'.lastDecay.getD 0 = newLastDecay halfLife lastDecay conf.now) := by
  refine ⟨fun _ h => decaysExactly_iff h, ?_, ?_⟩
  swap
  · rintro conf jobs world world' hfair rfl rfl h
    exact updateFairshare_decays hfair h
  intro nows hchain hmeet
  obtain ⟨total, final, hcycles, hexact⟩ := cycles_exact nows hchain hmeet
  refine ⟨⟨total, final, hcycles⟩, ?_⟩
  intro total' final' hcycles'
  obtain ⟨rfl, rfl⟩ := hcycles.unique hcycles'
  exact hexact

/-- Without a line for it the half life is zero, and the loop has no end.  With a half life of ten
and twenty passed, there is one decay, and twenty are stored: at 25 there has been one decay then,
and two if the cycle before was at 15. -/
theorem wholeHalfLives_lose_a_decay :
    (parseConfig (some []) Settings.init = .ok Settings.init ∧ Settings.init.halfLife = 0 ∧
      ¬ DecaysExactly Settings.init.halfLife 0 20) ∧
    ¬ DecaysExactly 10 0 20 ∧ Cycles 10 0 [20, 25] 1 20 ∧ Cycles 10 0 [15, 25] 2 20 := by
  refine ⟨⟨rfl, rfl, ?_⟩, ?_, ?_, ?_⟩
  · rw [decaysExactly_iff (by decide)]
    unfold DecayMeets
    decide
  · rw [decaysExactly_iff (by decide)]
    unfold DecayMeets
    decide
  · have hfirst : DecayLoop 10 0 20 1 := .round (by decide) (.stop (by decide))
    have hsecond : DecayLoop 10 (newLastDecay 10 0 20) 25 0 := .stop (by decide)
    exact .cons hfirst (.cons hsecond .nil)
  · have hfirst : DecayLoop 10 0 15 1 := .round (by decide) (.stop (by decide))
    have hsecond : DecayLoop 10 (newLastDecay 10 0 15) 25 1 :=
      .round (by decide) (.stop (by decide))
    exact .cons hfirst (.cons hsecond .nil)

end PlanSched.Fairshare
