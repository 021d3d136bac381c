import Equium.Program.Runs
import Equium.Schemes.Sum

/-! @src programs/equium/src/round.rs, schedule.rs | name:Emission | scheme:run-invariant

    The program keeps three counters in step by hand: the height, the running reward (shifted at
    each halving boundary) and the cumulative payout. `Schedule` says the running schedule is the
    closed form of the height; `Accounts` adds that the closed heights are exactly those below the
    current one, each closed once, and that the payout is what the mined ones are worth. -/

namespace Equium.Program
open Schemes Equium.Core Finset

variable {rt : Runtime}

/-- What a list of heights is worth. -/
def rewardSum (hs : List UInt64) : ℕ := (hs.map fun h => (rewardAtHeight h).toNat).sum

/-- The running schedule agrees with the closed form. -/
structure Schedule (cfg : EquiumConfig) : Prop where
  reward : cfg.currentEpochReward = rewardAtHeight cfg.blockHeight
  halving : cfg.nextHalvingBlock.toNat = 378000 * (cfg.blockHeight.toNat / 378000 + 1)
  retarget : cfg.nextRetargetBlock.toNat = 60 * (cfg.blockHeight.toNat / 60 + 1)

/-- The books of a run: schedule, payout and closed heights. -/
structure Accounts (tr : Record) (cfg : EquiumConfig) : Prop where
  schedule : Schedule cfg
  cumulative : cfg.cumulativeMined.toNat = rewardSum (minedHeights tr)
  closed : ((minedHeights tr ++ skippedHeights tr).map UInt64.toNat).Perm
    (List.range cfg.blockHeight.toNat)

/-! ### The schedule -/

theorem schedule_genesis (clock : Clock) (a : Initialize) (args : InitializeArgs) :
    Schedule (genesisConfig rt clock a args) where
  reward := by change initialBlockRewardBase = rewardAtHeight 0; decide
  halving := by change halvingIntervalBlocks.toNat = 378000 * (0 / 378000 + 1); decide
  retarget := by change retargetIntervalBlocks.toNat = 60 * (0 / 60 + 1); decide

/-- One round: the shift at a boundary of the new height is one more halving of the closed form. -/
theorem schedule_advance {c : Crates} {cfg cfg' : EquiumConfig} {clock : Clock}
    {sh : Option (List UInt8)} {t : RoundTransition} (h : Schedule cfg)
    (ha : AdvanceOk c cfg clock sh t cfg') : Schedule cfg' := by
  have hh := ha.height
  have hr := congrArg UInt64.toNat h.reward
  rw [rewardAtHeight_toNat] at hr
  refine ⟨?_, ?_, ?_⟩
  · rw [← UInt64.toNat_inj, rewardAtHeight_toNat, hh]
    by_cases hb : (cfg.blockHeight.toNat + 1) % 378000 = 0
    · have hq : (cfg.blockHeight.toNat + 1) / 378000 = cfg.blockHeight.toNat / 378000 + 1 := by
        omega
      rw [(ha.halving hb).1, hr, hq, pow_succ, Nat.div_div_eq_div_mul]
    · have hq : (cfg.blockHeight.toNat + 1) / 378000 = cfg.blockHeight.toNat / 378000 := by
        omega
      rw [(ha.noHalving hb).1, hr, hq]
  · rw [hh]
    by_cases hb : (cfg.blockHeight.toNat + 1) % 378000 = 0
    · rw [(ha.halving hb).2]; omega
    · rw [(ha.noHalving hb).2, h.halving]; omega
  · rw [hh]
    by_cases hb : (cfg.blockHeight.toNat + 1) % 60 = 0
    · rw [(ha.retarget hb).2.2]; omega
    · rw [(ha.noRetarget hb).2.2, h.retarget]; omega

/-! ### The record -/

theorem minedHeights_concat (tr : Record) (t : Taken World Action) :
    minedHeights (tr ++ [t]) = minedHeights tr ++ ((minedAt t).map (·.blockHeight)).toList := by
  simp only [minedHeights, List.filterMap_append, List.map_append]
  cases h : minedAt t <;> simp [h]

theorem skippedHeights_concat (tr : Record) (t : Taken World Action) :
    skippedHeights (tr ++ [t]) =
      skippedHeights tr ++ ((skippedAt t).map (·.blockHeight)).toList := by
  simp only [skippedHeights, List.filterMap_append, List.map_append]
  cases h : skippedAt t <;> simp [h]

theorem rewardSum_concat (hs : List UInt64) (h : UInt64) :
    rewardSum (hs ++ [h]) = rewardSum hs + (rewardAtHeight h).toNat := by
  simp [rewardSum]

/-- A step that closes no round and changes neither schedule nor counters keeps the books. -/
theorem accounts_frame {tr : Record} {t : Taken World Action} {cfg cfg' : EquiumConfig}
    (h : Accounts tr cfg) (hm : minedAt t = none) (hs : skippedAt t = none)
    (hr : cfg'.currentEpochReward = cfg.currentEpochReward)
    (hh : cfg'.nextHalvingBlock = cfg.nextHalvingBlock)
    (ht : cfg'.nextRetargetBlock = cfg.nextRetargetBlock)
    (hb : cfg'.blockHeight = cfg.blockHeight)
    (hc : cfg'.cumulativeMined = cfg.cumulativeMined) : Accounts (tr ++ [t]) cfg' where
  schedule := ⟨by rw [hr, hb, h.schedule.reward], by rw [hh, hb, h.schedule.halving],
    by rw [ht, hb, h.schedule.retarget]⟩
  cumulative := by rw [minedHeights_concat, hm, hc]; simpa using h.cumulative
  closed := by
    rw [minedHeights_concat, skippedHeights_concat, hm, hs, hb]; simpa using h.closed

/-- The heights below `h` and `h` itself are the heights below `h + 1`. -/
theorem closed_succ {m s : List UInt64} {h h' : UInt64} (hh : h'.toNat = h.toNat + 1)
    (hp : ((m ++ s).map UInt64.toNat).Perm (List.range h.toNat)) :
    (((m ++ [h]) ++ s).map UInt64.toNat).Perm (List.range h'.toNat) ∧
      ((m ++ (s ++ [h])).map UInt64.toNat).Perm (List.range h'.toNat) := by
  rw [hh, List.range_succ]
  have hlast : ((m ++ (s ++ [h])).map UInt64.toNat).Perm (List.range h.toNat ++ [h.toNat]) := by
    rw [← List.append_assoc, List.map_append]
    exact hp.append_right _
  refine ⟨List.Perm.trans (List.Perm.map _ ?_) hlast, hlast⟩
  rw [List.append_assoc]
  exact List.Perm.append_left _ List.perm_append_comm

/-- Step lemma: every successful instruction keeps the books. -/
theorem accounts_step {tr : Record} {env : Env} {w : World} {ix : Ix} {evs : List Event}
    {cfg cfg' : EquiumConfig} {w' : World} {L' : Ledger} (h : Accounts tr cfg)
    (hw : w.config = some cfg) (he : Effect rt env w.ledger (some cfg) ix cfg' L') :
    Accounts (tr ++ [⟨w, .ok env ix evs, w'⟩]) cfg' := by
  cases he with
  | fundVault a _ decimals => exact accounts_frame h rfl rfl rfl rfl rfl rfl rfl
  | renounceAdmin a => exact accounts_frame h rfl rfl rfl rfl rfl rfl rfl
  | setTarget a t => exact accounts_frame h rfl rfl rfl rfl rfl rfl rfl
  | mine a nonce soln _ _ decimals cumulative L₁ _ hacc hata hcum hcap htr hadv =>
    have hm : minedAt ⟨w, .ok env (.mine a nonce soln) evs, w'⟩ = some cfg := hw
    have hs : skippedAt ⟨w, .ok env (.mine a nonce soln) evs, w'⟩ = none := rfl
    have hsch : Schedule { cfg with cumulativeMined := cumulative } :=
      ⟨h.schedule.reward, h.schedule.halving, h.schedule.retarget⟩
    refine ⟨schedule_advance hsch hadv, ?_, ?_⟩
    · rw [minedHeights_concat, hm, hadv.cumulativeMined]
      simp only [Option.map_some, Option.toList_some, rewardSum_concat]
      rw [hcum, h.cumulative, h.schedule.reward]
    · rw [minedHeights_concat, skippedHeights_concat, hm, hs]
      simpa using (closed_succ hadv.height h.closed).1
  | advanceEmptyRound a _ _ hopen hel hadv =>
    have hm : minedAt ⟨w, .ok env (.advanceEmptyRound a) evs, w'⟩ = none := rfl
    have hs : skippedAt ⟨w, .ok env (.advanceEmptyRound a) evs, w'⟩ = some cfg := hw
    refine ⟨schedule_advance h.schedule hadv, ?_, ?_⟩
    · rw [minedHeights_concat, hm, hadv.cumulativeMined]
      simpa using h.cumulative
    · rw [minedHeights_concat, skippedHeights_concat, hm, hs]
      simpa using (closed_succ hadv.height h.closed).2

/-- Run lemma: the books are right after every run; before `initialize` nothing is closed. -/
theorem accounts_run {L : Ledger} {tr : Record} {w : World} (h : Run (Step rt) (genesis L) tr w) :
    (w.config = none → minedHeights tr = [] ∧ skippedHeights tr = []) ∧
      ∀ cfg, w.config = some cfg → Accounts tr cfg := by
  refine run_phases (N := fun tr _ => minedHeights tr = [] ∧ skippedHeights tr = [])
    (I := fun tr cfg _ => Accounts tr cfg) ⟨rfl, rfl⟩ ?_ ?_ ?_ ?_ h
  · intro tr l L L' hq hN
    rw [minedHeights_concat, skippedHeights_concat, (hq.closes _ _).1, (hq.closes _ _).2]
    simpa using hN
  · rintro tr env ix evs L cfg' L' he ⟨hm, hs⟩
    cases he with
    | initializeEquium a args =>
      refine ⟨schedule_genesis _ a args, ?_, ?_⟩
      · rw [minedHeights_concat, hm]; simp [minedAt, rewardSum, genesisConfig]
      · rw [minedHeights_concat, skippedHeights_concat, hm, hs]
        simp [minedAt, skippedAt, genesisConfig]
  · intro tr l cfg L L' hq hacc
    exact accounts_frame hacc (hq.closes _ _).1 (hq.closes _ _).2 rfl rfl rfl rfl rfl
  · intro tr env ix evs cfg L cfg' L' _ he hacc
    exact accounts_step hacc rfl he

/-! ### The cap -/

/-- What `25` epochs of `378000` blocks are worth: the reward of epoch 25 is zero. -/
theorem epochs_worth : 378000 * ∑ i ∈ range 25, 25000000 / 2 ^ i =
    mineableBase.toNat - 4536000 := by decide

theorem reward_pos_iff (h : UInt64) :
    0 < (rewardAtHeight h).toNat ↔ h.toNat < 25 * 378000 := by
  rw [rewardAtHeight_toNat, Nat.div_pos_iff]
  have hpow : 2 ^ (h.toNat / 378000) ≤ 25000000 ↔ h.toNat / 378000 < 25 := by
    constructor
    · intro hle
      by_contra hge
      have := Nat.pow_le_pow_right (by omega : 0 < 2) (Nat.le_of_not_lt hge)
      omega
    · intro hlt
      have := Nat.pow_le_pow_right (by omega : 0 < 2) (by omega : h.toNat / 378000 ≤ 24)
      omega
  rw [hpow]
  constructor
  · rintro ⟨-, hlt⟩; omega
  · intro hlt; exact ⟨Nat.two_pow_pos _, by omega⟩

/-- The full schedule below a height, over the naturals. -/
theorem full_schedule {n : ℕ} (hn : n ≤ 2 ^ 64) :
    ∑ h ∈ range n, (rewardAtHeight (UInt64.ofNat h)).toNat =
      ∑ h ∈ range n, 25000000 / 2 ^ (h / 378000) := by
  refine sum_congr rfl fun h hh => ?_
  rw [rewardAtHeight_toNat, UInt64.toNat_ofNat', Nat.mod_eq_of_lt]
  exact lt_of_lt_of_le (mem_range.mp hh) hn

/-- Books in order: everything below the height is either paid or skipped. -/
theorem Accounts.full {tr : Record} {cfg : EquiumConfig} (h : Accounts tr cfg) :
    ∑ i ∈ range cfg.blockHeight.toNat, (rewardAtHeight (UInt64.ofNat i)).toNat =
      cfg.cumulativeMined.toNat + rewardSum (skippedHeights tr) := by
  have hsum := (h.closed.map fun i => (rewardAtHeight (UInt64.ofNat i)).toNat).sum_eq
  rw [List.map_map, List.map_append, List.sum_append] at hsum
  have hcomp : ((fun i => (rewardAtHeight (UInt64.ofNat i)).toNat) ∘ UInt64.toNat) =
      fun h : UInt64 => (rewardAtHeight h).toNat := by
    funext h; simp
  rw [hcomp] at hsum
  rw [h.cumulative, rewardSum, rewardSum, hsum]
  rfl

/-- No part of the schedule is worth more than all the epochs. -/
theorem schedule_le {n : ℕ} (hn : n ≤ 2 ^ 64) :
    ∑ i ∈ range n, (rewardAtHeight (UInt64.ofNat i)).toNat ≤
      378000 * ∑ i ∈ range 25, 25000000 / 2 ^ i := by
  rw [full_schedule hn]
  refine sum_div_le (by omega) (f := fun i => 25000000 / 2 ^ i) (fun i hi => ?_) _
  have := Nat.pow_le_pow_right (by omega : 0 < 2) hi
  exact Nat.div_eq_of_lt (by omega)

/-- The payout never exceeds what all the epochs are worth. -/
theorem Accounts.capped {tr : Record} {cfg : EquiumConfig} (h : Accounts tr cfg) :
    cfg.cumulativeMined.toNat ≤ 378000 * ∑ i ∈ range 25, 25000000 / 2 ^ i :=
  (h.full ▸ Nat.le_add_right _ _).trans (schedule_le cfg.blockHeight.toNat_lt.le)

/-- Nor does it with the reward of the current round. -/
theorem Accounts.next_capped {tr : Record} {cfg : EquiumConfig} (h : Accounts tr cfg) :
    cfg.cumulativeMined.toNat + cfg.currentEpochReward.toNat ≤
      378000 * ∑ i ∈ range 25, 25000000 / 2 ^ i := by
  have hlt := cfg.blockHeight.toNat_lt
  refine le_trans ?_ (schedule_le (n := cfg.blockHeight.toNat + 1) (by omega))
  rw [sum_range_succ, h.full, h.schedule.reward, UInt64.ofNat_toNat]
  omega

/-- EMISSION CAP: in every run the payout is the sum of the rewards of the mined heights, each
    closed once; what is missing from the full schedule is exactly the skipped heights; the payout
    stays under the schedule's total and no block is mined from height `25 * 378000` on. -/
theorem emission_cap (L : Ledger) (tr : Record) (w : World)
    (h : Run (Step rt) (genesis L) tr w) (cfg : EquiumConfig) (hw : w.config = some cfg) :
    cfg.cumulativeMined.toNat = rewardSum (minedHeights tr) ∧
      (minedHeights tr ++ skippedHeights tr).Nodup ∧
      (∀ h, h ∈ minedHeights tr ++ skippedHeights tr ↔ h < cfg.blockHeight) ∧
      ∑ i ∈ range cfg.blockHeight.toNat, (rewardAtHeight (UInt64.ofNat i)).toNat =
        cfg.cumulativeMined.toNat + rewardSum (skippedHeights tr) ∧
      cfg.cumulativeMined.toNat ≤ 378000 * ∑ i ∈ range 25, 25000000 / 2 ^ i ∧
      378000 * ∑ i ∈ range 25, 25000000 / 2 ^ i = mineableBase.toNat - 4536000 ∧
      ∀ t ∈ tr, ∀ c, minedAt t = some c → c.blockHeight.toNat < 25 * 378000 := by
  have hacc := (accounts_run h).2 cfg hw
  have hnodup := (hacc.closed.nodup_iff).mpr List.nodup_range
  refine ⟨hacc.cumulative, List.Nodup.of_map _ hnodup, fun i => ?_, hacc.full, hacc.capped,
    epochs_worth, ?_⟩
  · have hmem := hacc.closed.mem_iff (a := i.toNat)
    rw [List.mem_range, List.mem_map_of_injective fun _ _ => UInt64.toNat_inj.mp] at hmem
    rw [hmem, UInt64.lt_iff_toNat_lt]
  · intro t ht c hc
    obtain ⟨tr₁, tr₂, -, hr, hst⟩ := h.mem t ht
    obtain ⟨env, a, nonce, soln, evs, cfg', L', -, hpre, -, -, he⟩ := minedAt_step hc hst
    have hs := ((accounts_run hr).2 c hpre).schedule
    cases he with
    | mine a nonce soln _ _ decimals cumulative L₁ _ hacc hata hcum hcap htr hadv =>
      exact (reward_pos_iff _).mp (hs.reward ▸ hacc.rewardPos)

/-- The demonstration run mines one block and skips one. -/
theorem emission_cap_demo : ∃ tr cfg, Run (Step Demo.runtime) (genesis Demo.ledger) tr Demo.world ∧
    Demo.world.config = some cfg ∧ cfg.cumulativeMined = 25000000 ∧
    rewardSum (minedHeights tr) = 25000000 ∧ rewardSum (skippedHeights tr) = 25000000 := by
  obtain ⟨tr, hr⟩ := Demo.world_run
  have hcum : Demo.config.cumulativeMined = 25000000 := by rw [Demo.config_eq]
  have hfull : ∑ i ∈ range Demo.config.blockHeight.toNat,
      (rewardAtHeight (UInt64.ofNat i)).toNat = 50000000 := by
    rw [Demo.config_eq]
    decide +kernel
  obtain ⟨h₁, -, -, h₂, -⟩ :=
    @emission_cap Demo.runtime Demo.ledger tr _ hr Demo.config Demo.world_config
  have hc : Demo.config.cumulativeMined.toNat = 25000000 := by rw [hcum]; rfl
  exact ⟨tr, Demo.config, hr, Demo.world_config, hcum, by rw [← h₁, hc],
    by rw [hfull, hc] at h₂; omega⟩

end Equium.Program
