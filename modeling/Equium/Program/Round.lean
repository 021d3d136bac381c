import Equium.Program.Schedule

/-! @src programs/equium/src/pow.rs, round.rs | name:Round transition

    `advance_round` closes the current round and opens the next one: it is shared by `mine` and
    `advance_empty_round`. `AdvanceOk` says once what a successful transition does to every field;
    the invariants of the program are derived from it. -/

namespace Equium.Program
open Schemes Equium.Core

variable (c : Crates)

/-! ### pow.rs -/

/-- The newest entry of the SlotHashes sysvar: `u64 count || (u64 slot || [u8; 32] hash)*`.
    `none` stands for data that is already borrowed. -/
def readRecentSlotHash (data : Option (List UInt8)) : Except Error Bytes32 := do
  let data ← okOr data (.equium .badSlotHashes)
  if h : data.length < 8 + 8 + 32 then throw (.equium .badSlotHashes)
  else
    let count := ofLe (data.take 8)
    if count = 0 then throw (.equium .badSlotHashes)
    else pure ⟨((data.drop 16).take 32).toArray, by simp; omega⟩

/-- It is bytes 16 to 47, where the data holds an entry. -/
theorem readRecentSlotHash_ok {data : Option (List UInt8)} {e : Bytes32} :
    readRecentSlotHash data = .ok e ↔ ∃ bytes, data = some bytes ∧ 48 ≤ bytes.length ∧
      ofLe (bytes.take 8) ≠ 0 ∧ e.toList = (bytes.drop 16).take 32 := by
  cases data with
  | none => simp [readRecentSlotHash, okOr]
  | some bytes =>
    simp only [readRecentSlotHash, okOr, bind_ok, Except.ok.injEq, exists_eq_left',
      Option.some.injEq]
    split_ifs with hlen hcount
    · have hshort : ¬ 48 ≤ bytes.length := by omega
      simp [hshort]
    · simp [hcount]
    · rw [pure_ok, ← Vector.toList_inj]
      simp [Nat.le_of_not_lt hlen, hcount, eq_comm]

/-- Verify a submission against the current round. -/
def verifySubmission (n k : UInt32) (currentChallenge minerPubkey : Bytes32)
    (blockHeight : UInt64) (nonce : Bytes32) (solnIndices : List UInt8) (target : Bytes32) :
    Except Error Bytes32 :=
  let input := buildInput currentChallenge minerPubkey blockHeight
  match verify c n k input nonce solnIndices target with
  | .ok h => .ok h
  | .error .invalidEquihash => .error (.equium .invalidEquihash)
  | .error .aboveTarget => .error (.equium .aboveTarget)

theorem verifySubmission_ok {n k : UInt32} {ch m : Bytes32} {h : UInt64} {nonce t r : Bytes32}
    {soln : List UInt8} :
    verifySubmission c n k ch m h nonce soln t = .ok r ↔
      c.isValidSolution n k (buildInput ch m h).toList nonce soln = true ∧
        r = solutionHash c soln (buildInput ch m h) ∧ hashUnderTarget r t = true := by
  unfold verifySubmission verify
  by_cases hv : c.isValidSolution n k (buildInput ch m h).toList nonce soln = true
  · by_cases hu : hashUnderTarget (solutionHash c soln (buildInput ch m h)) t = true
    · simp only [hv, hu, if_true, true_and, Except.ok.injEq]
      constructor
      · rintro rfl; exact ⟨rfl, hu⟩
      · rintro ⟨rfl, -⟩; rfl
    · simp only [hv, hu, if_true, if_false, true_and, reduceCtorEq, false_iff]
      rintro ⟨rfl, h'⟩; exact hu h'
  · simp [hv]

/-! ### round.rs -/

/-- How a round ends: with a winner, or by timeout. -/
inductive RoundTransition where
  | mined (winner : Pubkey)
  | empty
  deriving DecidableEq

/-- The key mixed into the next challenge. -/
def RoundTransition.winnerPubkey : RoundTransition → Pubkey
  | .mined winner => winner
  | .empty => defaultKey

/-- The last actual winner after the transition. -/
def RoundTransition.lastWinner : RoundTransition → Pubkey → Pubkey
  | .mined winner, _ => winner
  | .empty, old => old

/-- What the transition adds to `empty_rounds`. -/
def RoundTransition.empties : RoundTransition → ℕ
  | .mined _ => 0
  | .empty => 1

/-- Clamped length of the retarget window that ends at this clock reading. -/
def actualSeconds (cfg : EquiumConfig) (clock : Clock) : UInt64 :=
  maxZero (saturatingSub clock.unixTimestamp cfg.lastRetargetUnixTs)

/-- The winner bookkeeping of `advance_round`. -/
def recordTransition (cfg : EquiumConfig) : RoundTransition → Except Error EquiumConfig
  | .mined winner => pure { cfg with lastWinner := winner }
  | .empty => do
    let n ← okOr (checkedAdd cfg.emptyRounds 1) (.equium .scheduleOverflow)
    -- `lastWinner` keeps pointing at the last actual winner
    pure { cfg with emptyRounds := n }

/-- The retarget block of `advance_round`. -/
def retargetIfDue (cfg : EquiumConfig) (clock : Clock) (newHeight : UInt64) :
    Except Error (EquiumConfig × List Event) :=
  if isRetargetBoundary newHeight then do
    let actual := actualSeconds cfg clock
    let target ← okOr (nextTarget cfg.currentTarget actual) .panic
    let next ← okOr (checkedAdd newHeight retargetIntervalBlocks) (.equium .scheduleOverflow)
    pure ({ cfg with
      currentTarget := target
      lastRetargetUnixTs := clock.unixTimestamp
      nextRetargetBlock := next }, [.difficultyRetargeted newHeight actual target])
  else pure (cfg, [])

/-- The halving block of `advance_round`. -/
def halveIfDue (cfg : EquiumConfig) (newHeight : UInt64) :
    Except Error (EquiumConfig × List Event) :=
  if isHalvingBoundary newHeight then do
    let reward := cfg.currentEpochReward >>> 1
    let next ← okOr (checkedAdd newHeight halvingIntervalBlocks) (.equium .scheduleOverflow)
    pure ({ cfg with currentEpochReward := reward, nextHalvingBlock := next },
      [.rewardHalved newHeight reward])
  else pure (cfg, [])

/-- Advance the config to the next round; returns the new height. -/
def advanceRound (cfg : EquiumConfig) (clock : Clock) (slotHashes : Option (List UInt8))
    (transition : RoundTransition) : Except Error (EquiumConfig × UInt64 × List Event) := do
  let entropy ← readRecentSlotHash slotHashes
  let newHeight ← okOr (checkedAdd cfg.blockHeight 1) (.equium .scheduleOverflow)
  let newChallenge := deriveNextChallenge c cfg.currentChallenge transition.winnerPubkey entropy
  let cfg := { cfg with
    blockHeight := newHeight
    currentChallenge := newChallenge
    currentRoundOpenSlot := clock.slot
    currentRoundOpenUnixTs := clock.unixTimestamp }
  let cfg ← recordTransition cfg transition
  let (cfg, evs) ← retargetIfDue cfg clock newHeight
  let (cfg, evs') ← halveIfDue cfg newHeight
  pure (cfg, newHeight, evs ++ evs')

/-! ### What a transition does -/

/-- The effect of a successful `advance_round` on every field. -/
structure AdvanceOk (cfg : EquiumConfig) (clock : Clock) (slotHashes : Option (List UInt8))
    (transition : RoundTransition) (cfg' : EquiumConfig) : Prop where
  entropy : ∃ e, readRecentSlotHash slotHashes = .ok e ∧
    cfg'.currentChallenge = deriveNextChallenge c cfg.currentChallenge transition.winnerPubkey e
  height : cfg'.blockHeight.toNat = cfg.blockHeight.toNat + 1
  openSlot : cfg'.currentRoundOpenSlot = clock.slot
  openTs : cfg'.currentRoundOpenUnixTs = clock.unixTimestamp
  winner : cfg'.lastWinner = transition.lastWinner cfg.lastWinner
  empties : cfg'.emptyRounds.toNat = cfg.emptyRounds.toNat + transition.empties
  retarget : (cfg.blockHeight.toNat + 1) % 60 = 0 →
    nextTarget cfg.currentTarget (actualSeconds cfg clock) = some cfg'.currentTarget ∧
      cfg'.lastRetargetUnixTs = clock.unixTimestamp ∧
      cfg'.nextRetargetBlock.toNat = cfg.blockHeight.toNat + 1 + 60
  noRetarget : (cfg.blockHeight.toNat + 1) % 60 ≠ 0 →
    cfg'.currentTarget = cfg.currentTarget ∧ cfg'.lastRetargetUnixTs = cfg.lastRetargetUnixTs ∧
      cfg'.nextRetargetBlock = cfg.nextRetargetBlock
  halving : (cfg.blockHeight.toNat + 1) % 378000 = 0 →
    cfg'.currentEpochReward.toNat = cfg.currentEpochReward.toNat / 2 ∧
      cfg'.nextHalvingBlock.toNat = cfg.blockHeight.toNat + 1 + 378000
  noHalving : (cfg.blockHeight.toNat + 1) % 378000 ≠ 0 →
    cfg'.currentEpochReward = cfg.currentEpochReward ∧
      cfg'.nextHalvingBlock = cfg.nextHalvingBlock
  mint : cfg'.mint = cfg.mint
  mineableVault : cfg'.mineableVault = cfg.mineableVault
  mineableVaultBump : cfg'.mineableVaultBump = cfg.mineableVaultBump
  configBump : cfg'.configBump = cfg.configBump
  genesisSlot : cfg'.genesisSlot = cfg.genesisSlot
  genesisUnixTs : cfg'.genesisUnixTs = cfg.genesisUnixTs
  equihashN : cfg'.equihashN = cfg.equihashN
  equihashK : cfg'.equihashK = cfg.equihashK
  cumulativeMined : cfg'.cumulativeMined = cfg.cumulativeMined
  miningOpen : cfg'.miningOpen = cfg.miningOpen
  admin : cfg'.admin = cfg.admin
  adminRenounced : cfg'.adminRenounced = cfg.adminRenounced

theorem recordTransition_ok {cfg cfg' : EquiumConfig} {t : RoundTransition}
    (h : recordTransition cfg t = .ok cfg') : ∃ n : UInt64,
    n.toNat = cfg.emptyRounds.toNat + t.empties ∧
      cfg' = { cfg with emptyRounds := n, lastWinner := t.lastWinner cfg.lastWinner } := by
  cases t with
  | mined winner =>
    simp only [recordTransition, pure_ok] at h
    exact ⟨cfg.emptyRounds, rfl, h.symm⟩
  | empty =>
    simp only [recordTransition, bind_ok, okOr_ok, pure_ok] at h
    obtain ⟨n, hn, rfl⟩ := h
    exact ⟨n, checkedAdd_some.mp hn, rfl⟩

theorem retargetIfDue_ok {cfg cfg' : EquiumConfig} {clock : Clock} {h : UInt64} {evs : List Event}
    (hr : retargetIfDue cfg clock h = .ok (cfg', evs)) (hpos : 0 < h.toNat) :
    ∃ (target : Bytes32) (ts : Int64) (next : UInt64),
      cfg' = { cfg with
        currentTarget := target, lastRetargetUnixTs := ts, nextRetargetBlock := next } ∧
      (h.toNat % 60 = 0 → nextTarget cfg.currentTarget (actualSeconds cfg clock) = some target ∧
        ts = clock.unixTimestamp ∧ next.toNat = h.toNat + 60) ∧
      (h.toNat % 60 ≠ 0 → target = cfg.currentTarget ∧ ts = cfg.lastRetargetUnixTs ∧
        next = cfg.nextRetargetBlock) := by
  unfold retargetIfDue at hr
  split at hr
  · rename_i hb
    have hm := (isRetargetBoundary_iff h).mp hb
    simp only [bind_ok, okOr_ok, pure_ok, Prod.mk.injEq] at hr
    obtain ⟨target, ht, next, hn, rfl, -⟩ := hr
    exact ⟨target, _, next, rfl, fun _ => ⟨ht, rfl, checkedAdd_some.mp hn⟩,
      fun hne => absurd hm.2 hne⟩
  · rename_i hb
    have hm : h.toNat % 60 ≠ 0 := fun h0 => hb ((isRetargetBoundary_iff h).mpr ⟨hpos, h0⟩)
    simp only [pure_ok, Prod.mk.injEq] at hr
    obtain ⟨rfl, -⟩ := hr
    exact ⟨_, _, _, rfl, fun h0 => absurd h0 hm, fun _ => ⟨rfl, rfl, rfl⟩⟩

theorem halveIfDue_ok {cfg cfg' : EquiumConfig} {h : UInt64} {evs : List Event}
    (hr : halveIfDue cfg h = .ok (cfg', evs)) (hpos : 0 < h.toNat) :
    ∃ reward next : UInt64,
      cfg' = { cfg with currentEpochReward := reward, nextHalvingBlock := next } ∧
      (h.toNat % 378000 = 0 → reward.toNat = cfg.currentEpochReward.toNat / 2 ∧
        next.toNat = h.toNat + 378000) ∧
      (h.toNat % 378000 ≠ 0 → reward = cfg.currentEpochReward ∧
        next = cfg.nextHalvingBlock) := by
  unfold halveIfDue at hr
  split at hr
  · rename_i hb
    have hm := (isHalvingBoundary_iff h).mp hb
    simp only [bind_ok, okOr_ok, pure_ok, Prod.mk.injEq] at hr
    obtain ⟨next, hn, rfl, -⟩ := hr
    refine ⟨_, next, rfl, fun _ => ⟨?_, checkedAdd_some.mp hn⟩, fun hne => absurd hm.2 hne⟩
    rw [UInt64.toNat_shiftRight, Nat.shiftRight_eq_div_pow]; rfl
  · rename_i hb
    have hm : h.toNat % 378000 ≠ 0 := fun h0 => hb ((isHalvingBoundary_iff h).mpr ⟨hpos, h0⟩)
    simp only [pure_ok, Prod.mk.injEq] at hr
    obtain ⟨rfl, -⟩ := hr
    exact ⟨_, _, rfl, fun h0 => absurd h0 hm, fun _ => ⟨rfl, rfl⟩⟩

/-- Step lemma of the round: a successful transition has exactly the effect of `AdvanceOk`. -/
theorem advanceRound_ok {cfg cfg' : EquiumConfig} {clock : Clock}
    {slotHashes : Option (List UInt8)} {t : RoundTransition} {h' : UInt64} {evs : List Event}
    (h : advanceRound c cfg clock slotHashes t = .ok (cfg', h', evs)) :
    AdvanceOk c cfg clock slotHashes t cfg' ∧ h' = cfg'.blockHeight := by
  simp only [advanceRound, bind_ok, okOr_ok, pure_ok, Prod.mk.injEq, Prod.exists] at h
  obtain ⟨e, he, newHeight, hnew, cfg₁, h₁, cfg₂, evs₂, h₂, cfg₃, evs₃, h₃, rfl, rfl, -⟩ := h
  have hnew : newHeight.toNat = cfg.blockHeight.toNat + 1 := checkedAdd_some.mp hnew
  have hpos : 0 < newHeight.toNat := by omega
  obtain ⟨n, hn, rfl⟩ := recordTransition_ok h₁
  obtain ⟨target, ts, nextR, rfl, hre, hnre⟩ := retargetIfDue_ok h₂ hpos
  obtain ⟨reward, nextH, rfl, hha, hnha⟩ := halveIfDue_ok h₃ hpos
  simp only [hnew] at hre hnre hha hnha
  exact ⟨{
    entropy := ⟨e, he, rfl⟩
    height := hnew
    openSlot := rfl
    openTs := rfl
    winner := rfl
    empties := hn
    retarget := hre
    noRetarget := hnre
    halving := hha
    noHalving := hnha
    mint := rfl
    mineableVault := rfl
    mineableVaultBump := rfl
    configBump := rfl
    genesisSlot := rfl
    genesisUnixTs := rfl
    equihashN := rfl
    equihashK := rfl
    cumulativeMined := rfl
    miningOpen := rfl
    admin := rfl
    adminRenounced := rfl }, rfl⟩

end Equium.Program
