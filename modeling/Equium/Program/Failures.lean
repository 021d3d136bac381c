import Equium.Program.Vault
import Equium.Program.EmptyRounds

/-! @src programs/equium/src/instructions/mine.rs, advance_empty_round.rs, round.rs, pow.rs |
    name:Failures | scheme:exact-guards

    On reachable states most of the guards of `mine` and `advance_empty_round` cannot fire: the cap
    is above the whole schedule, the vault holds what is left of it, the counters stay below the
    height, and the target arithmetic never panics. What is left is listed here, exactly. -/

namespace Equium.Program
open Schemes Equium.Core

variable {rt : Runtime}

/-- SlotHashes data the program refuses: too short, or no entry. -/
def BadSlotHashes (data : List UInt8) : Prop := data.length < 48 ∨ ofLe (data.take 8) = 0

/-- The accounts `mine` demands. -/
structure MineAccounts (rt : Runtime) (w : World) (cfg : EquiumConfig) (a : Mine) : Prop where
  signature : rt.canSign a.miner = true
  config : a.config = rt.configPda
  configSeeds : rt.createProgramAddress configSeed cfg.configBump = some a.config
  mint : cfg.mint = a.mint
  mintAccount : (w.ledger.mints a.mint).isSome
  vault : cfg.mineableVault = a.mineableVault
  vaultSeeds : rt.createProgramAddress vaultSeed cfg.mineableVaultBump = some a.mineableVault
  ata : a.minerAta = rt.associatedTokenAddress a.miner a.mint a.tokenProgram
  ataAccount : ∀ t, w.ledger.accounts a.minerAta = some t → t.mint = a.mint ∧ t.owner = a.miner
  slotHashes : a.slotHashes = rt.slotHashesId

/-- The accounts `advance_empty_round` demands. -/
structure AdvanceAccounts (rt : Runtime) (cfg : EquiumConfig) (a : AdvanceEmptyRound) :
    Prop where
  signature : rt.canSign a.caller = true
  config : a.config = rt.configPda
  configSeeds : rt.createProgramAddress configSeed cfg.configBump = some a.config
  slotHashes : a.slotHashes = rt.slotHashesId

/-- A transfer in order: signed by the owner of the source, one mint, its decimals, and the two
    accounts together within the `u64` supply. -/
structure Proper (L : Ledger) (t : TransferChecked) (a b : TokenAccount) : Prop where
  source : L.accounts t.source = some a
  destination : L.accounts t.destination = some b
  signed : t.authority ∈ t.signers
  owner : a.owner = t.authority
  sourceMint : a.mint = t.mint
  destinationMint : b.mint = t.mint
  decimals : L.mints t.mint = some t.decimals
  supply : a.amount.toNat + b.amount.toNat < 2 ^ 64

/-- The token program refuses a transfer in order only for lack of funds. -/
def FailsOnlyOnFunds (rt : Runtime) : Prop :=
  ∀ L t a b, Proper L t a b → rt.transferChecked L t = none → a.amount < t.amount

/-- The reference token program does. -/
theorem splTransfer_funds {L : Ledger} {t : TransferChecked} {a b : TokenAccount}
    (hp : Proper L t a b) (h : splTransfer L t = none) : a.amount < t.amount := by
  by_contra hle
  have hle : t.amount ≤ a.amount := UInt64.not_lt.mp hle
  have hfit := UInt64.le_iff_toNat_le.mp hle
  have hsup := hp.supply
  simp only [splTransfer, hp.source, hp.destination, hp.signed, hp.owner, hp.sourceMint,
    hp.destinationMint, hp.decimals, hle, and_self, if_true] at h
  split_ifs at h
  omega

/-! ### The round transition -/

theorem readRecentSlotHash_error {data : List UInt8} {e : Error}
    (h : readRecentSlotHash (some data) = .error e) :
    BadSlotHashes data ∧ e = .equium .badSlotHashes := by
  simp only [readRecentSlotHash, okOr, bind_error, reduceCtorEq, false_or, Except.ok.injEq,
    exists_eq_left'] at h
  split_ifs at h with hlen hcount
  · exact ⟨.inl hlen, (Except.error.inj h).symm⟩
  · exact ⟨.inr hcount, (Except.error.inj h).symm⟩
  · cases h

theorem readRecentSlotHash_good {data : List UInt8} {e : Bytes32}
    (h : readRecentSlotHash (some data) = .ok e) : ¬ BadSlotHashes data := by
  obtain ⟨_, ⟨⟩, hlen, hcount, -⟩ := readRecentSlotHash_ok.mp h
  rintro (hbad | hbad)
  · exact absurd hlen (Nat.not_le_of_lt hbad)
  · exact hcount hbad

theorem checkedAdd_none {a b : UInt64} (h : checkedAdd a b = none) :
    2 ^ 64 ≤ a.toNat + b.toNat := by
  unfold checkedAdd at h
  split_ifs at h
  omega

/-- The target arithmetic never panics. -/
theorem nextTarget_ne_none (t : Bytes32) (a : UInt64) : nextTarget t a ≠ none := by
  have hsome : ∀ num den : UInt64, 0 < den.toNat → scaleTarget t num den ≠ none := by
    intro num den hden
    obtain ⟨r, hr, -⟩ := scaleTarget_eq t num hden
    simp [hr]
  rw [nextTarget_eq]
  split_ifs
  · exact hsome 1 2 (by decide)
  · exact hsome 2 1 (by decide)
  · exact hsome a 3600 (by decide)

/-- Below the end of the height range a transition fails only on the SlotHashes data. -/
theorem advanceRound_error {c : Crates} {cfg : EquiumConfig} {clock : Clock} {data : List UInt8}
    {t : RoundTransition} {e : Error} (hh : cfg.blockHeight.toNat < 2 ^ 64 - 378001)
    (hempty : cfg.emptyRounds.toNat ≤ cfg.blockHeight.toNat)
    (h : advanceRound c cfg clock (some data) t = .error e) :
    BadSlotHashes data ∧ e = .equium .badSlotHashes := by
  simp only [advanceRound, bind_error, okOr_error, okOr_ok] at h
  obtain h | ⟨entropy, -, ⟨hnone, -⟩ | ⟨newHeight, hnew, h⟩⟩ := h
  · exact readRecentSlotHash_error h
  · have hone : (1 : UInt64).toNat = 1 := rfl
    have := checkedAdd_none hnone
    omega
  have hnew := checkedAdd_some.mp hnew
  have hone : (1 : UInt64).toNat = 1 := rfl
  have hempties : ∀ cfg' : EquiumConfig, cfg'.emptyRounds = cfg.emptyRounds →
      recordTransition cfg' t ≠ .error e := by
    intro cfg' hc hr
    cases t with
    | mined winner => cases hr
    | empty =>
      simp only [recordTransition, bind_error, okOr_error, pure, Except.pure, reduceCtorEq,
        and_false, exists_false, or_false, hc] at hr
      have := checkedAdd_none hr.1
      omega
  have hretarget : ∀ cfg', retargetIfDue cfg' clock newHeight ≠ .error e := by
    intro cfg' hr
    unfold retargetIfDue at hr
    split at hr
    · simp only [bind_error, okOr_error, nextTarget_ne_none, false_and, false_or, pure,
        Except.pure, reduceCtorEq, and_false, exists_false, or_false] at hr
      obtain ⟨-, -, hr, -⟩ := hr
      have := checkedAdd_none hr
      have hsixty : retargetIntervalBlocks.toNat = 60 := rfl
      omega
    · cases hr
  have hhalve : ∀ cfg', halveIfDue cfg' newHeight ≠ .error e := by
    intro cfg' hr
    unfold halveIfDue at hr
    split at hr
    · simp only [bind_error, okOr_error, pure, Except.pure, reduceCtorEq, and_false, exists_false,
        or_false] at hr
      have := checkedAdd_none hr.1
      have hinterval : halvingIntervalBlocks.toNat = 378000 := rfl
      omega
    · cases hr
  simp only [hretarget, hhalve, pure, Except.pure, reduceCtorEq, and_false, exists_false,
    or_false] at h
  exact absurd h (hempties _ rfl)

/-! ### What the runs guarantee -/

/-- The vault account did not exist before the run: `initialize` created it. -/
theorem vault_fresh {L : Ledger} {tr : Record} {w : World} {cfg : EquiumConfig}
    (h : Run (Step rt) (genesis L) tr w) (hw : w.config = some cfg) :
    L.accounts rt.vaultPda = none := by
  refine (run_phases
    (N := fun _ L' => L'.accounts rt.vaultPda = none → L.accounts rt.vaultPda = none)
    (I := fun _ _ _ => L.accounts rt.vaultPda = none) id ?_ ?_ (fun _ _ _ _ _ _ hI => hI)
    (fun _ _ _ _ _ _ _ _ _ _ hI => hI) h).2 cfg hw
  · intro tr l L₁ L₂ hq hN hnone
    cases hv : L₁.accounts rt.vaultPda with
    | none => exact hN hv
    | some v =>
      obtain ⟨v', hv', -⟩ := hq.vault.present v hv
      rw [hnone] at hv'
      cases hv'
  · intro tr env ix evs L₁ cfg' L' he hN
    cases he with
    | initializeEquium a args hadmin hvault hfresh => exact hN hfresh

theorem empties_le {L : Ledger} {tr : Record} {w : World} {cfg : EquiumConfig}
    (h : Run (Step rt) (genesis L) tr w) (hw : w.config = some cfg) :
    cfg.emptyRounds.toNat ≤ cfg.blockHeight.toNat := by
  have hclosed := ((accounts_run h).2 cfg hw).closed.length_eq
  rw [List.length_map, List.length_append, List.length_range, ← empties_run h hw] at hclosed
  omega

/-- Run lemma: the vault is an account of the program's mint. -/
theorem vaultMint_run (laws : TokenLaws rt) {L : Ledger} {tr : Record} {w : World}
    {cfg : EquiumConfig} (h : Run (Step rt) (genesis L) tr w) (hw : w.config = some cfg) :
    ∃ v, w.ledger.accounts rt.vaultPda = some v ∧ v.mint = cfg.mint := by
  have hmoved : ∀ {L L' t} {m : Pubkey}, rt.transferChecked L t = some L' →
      (∃ v, L.accounts rt.vaultPda = some v ∧ v.mint = m) →
      ∃ v, L'.accounts rt.vaultPda = some v ∧ v.mint = m := by
    rintro L L' t m ht ⟨v, hv, hm⟩
    have hk := (laws.moved ht).kept rt.vaultPda
    rw [hv] at hk
    obtain ⟨v', hv', heq⟩ := Option.map_eq_some_iff.mp hk
    exact ⟨v', hv', (congrArg Prod.fst heq).trans hm⟩
  refine (run_phases (N := fun _ _ => True) (I := fun _ cfg L =>
    ∃ v, L.accounts rt.vaultPda = some v ∧ v.mint = cfg.mint) trivial (fun _ _ _ _ _ _ => trivial)
    ?_ ?_ ?_ h).2 cfg hw
  · intro tr env ix evs L cfg' L' he _
    cases he with
    | initializeEquium a args => exact ⟨_, Ledger.set_self .., rfl⟩
  · rintro tr l cfg L L' hq ⟨v, hv, hm⟩
    obtain ⟨v', hv', hm', -, -⟩ := hq.vault.present v hv
    exact ⟨v', hv', hm'.trans hm⟩
  · rintro tr env ix evs cfg L cfg' L' _ he ⟨v, hv, hm⟩
    cases he with
    | fundVault _ _ _ _ _ _ _ htr => exact hmoved htr ⟨v, hv, hm⟩
    | mine _ _ _ _ _ _ _ _ _ _ hata _ _ htr hadv =>
      obtain ⟨-, hkeep, -⟩ := initAtaIfNeeded_ok hata
      exact hmoved htr ⟨v, hkeep _ _ hv, hm.trans hadv.mint.symm⟩
    | advanceEmptyRound _ _ _ _ _ hadv => exact ⟨v, hv, hm.trans hadv.mint.symm⟩
    | renounceAdmin => exact ⟨v, hv, hm⟩
    | setTarget => exact ⟨v, hv, hm⟩

/-- Creating the associated account succeeds, and the account is one of the mint. -/
theorem initAtaIfNeeded_some {w : World} {cfg : EquiumConfig} {a : Mine}
    (hacc : MineAccounts rt w cfg a) : ∃ L₁ t, initAtaIfNeeded rt w.ledger a = .ok L₁ ∧
      L₁.accounts a.minerAta = some t ∧ t.mint = a.mint ∧ t.owner = a.miner ∧
      t.amount.toNat = w.ledger.balance a.minerAta ∧ L₁.mints = w.ledger.mints := by
  unfold initAtaIfNeeded
  rw [bind_of_ok (require_of (decide_eq_true hacc.ata))]
  cases hata : w.ledger.accounts a.minerAta with
  | none => exact ⟨_, _, rfl, Ledger.set_self .., rfl, rfl, by simp [Ledger.balance, hata], rfl⟩
  | some t =>
    obtain ⟨hmint, howner⟩ := hacc.ataAccount t hata
    refine ⟨w.ledger, t, ?_, hata, hmint, howner, by simp [Ledger.balance, hata], rfl⟩
    dsimp only
    rw [bind_of_ok (require_of (decide_eq_true hmint)),
      bind_of_ok (require_of (decide_eq_true howner))]
    rfl

/-! ### The two instructions -/

/-- The round a `mine` in order is judged by: what its submission must satisfy. -/
def Submission.valid (c : Crates) (cfg : EquiumConfig) (miner : Pubkey) (nonce : Bytes32)
    (soln : List UInt8) : Bool :=
  c.isValidSolution cfg.equihashN cfg.equihashK
    (buildInput cfg.currentChallenge miner cfg.blockHeight).toList nonce soln

def Submission.under (c : Crates) (cfg : EquiumConfig) (miner : Pubkey) (soln : List UInt8) :
    Bool :=
  hashUnderTarget (solutionHash c soln (buildInput cfg.currentChallenge miner cfg.blockHeight))
    cfg.currentTarget

theorem verifySubmission_error {c : Crates} {cfg : EquiumConfig} {m nonce : Bytes32}
    {soln : List UInt8} {e : Error} (h : verifySubmission c cfg.equihashN cfg.equihashK
      cfg.currentChallenge m cfg.blockHeight nonce soln cfg.currentTarget = .error e) :
    (Submission.valid c cfg m nonce soln = false ∧ e = .equium .invalidEquihash) ∨
      (Submission.under c cfg m soln = false ∧ e = .equium .aboveTarget) := by
  unfold verifySubmission verify at h
  by_cases hv : Submission.valid c cfg m nonce soln = true
  · by_cases hu : Submission.under c cfg m soln = true
    · simp only [show c.isValidSolution _ _ _ _ _ = true from hv,
        show hashUnderTarget _ _ = true from hu, if_true] at h
      cases h
    · have hu : Submission.under c cfg m soln = false := by simpa using hu
      simp only [show c.isValidSolution _ _ _ _ _ = true from hv,
        show hashUnderTarget _ _ = false from hu, if_true, Bool.false_eq_true, if_false] at h
      exact .inr ⟨hu, (Except.error.inj h).symm⟩
  · have hv : Submission.valid c cfg m nonce soln = false := by simpa using hv
    simp only [show c.isValidSolution _ _ _ _ _ = false from hv, Bool.false_eq_true, if_false] at h
    exact .inl ⟨hv, (Except.error.inj h).symm⟩

section errors
variable {L : Ledger} {tr : Record} {w : World} {cfg : EquiumConfig} {env : Env}
  {data : List UInt8}

/-- Why a `mine` with the right accounts can fail on a reachable state. -/
theorem mine_error (laws : TokenLaws rt) (hspl : FailsOnlyOnFunds rt)
    (h : Run (Step rt) (genesis L) tr w) (hw : w.config = some cfg)
    (hh : cfg.blockHeight.toNat < 2 ^ 64 - 378001) (hdata : env.slotHashes = some data)
    {a : Mine} (hacc : MineAccounts rt w cfg a)
    (hsupply : w.ledger.balance rt.vaultPda + w.ledger.balance a.minerAta < 2 ^ 64)
    {nonce : Bytes32} {soln : List UInt8} {e : Error}
    (he : execute rt env w (.mine a nonce soln) = .error e) :
    (cfg.miningOpen = false ∧ e = .equium .miningNotOpen) ∨
      (Submission.valid rt.toCrates cfg a.miner nonce soln = false ∧
        e = .equium .invalidEquihash) ∨
      (Submission.under rt.toCrates cfg a.miner soln = false ∧ e = .equium .aboveTarget) ∨
      (9450000 ≤ cfg.blockHeight.toNat ∧ e = .equium .rewardZeroed) ∨
      (BadSlotHashes data ∧ e = .equium .badSlotHashes) := by
  have hbooks := (accounts_run h).2 cfg hw
  have hvault := (vault_run laws (vault_fresh h hw) h).2 cfg hw
  obtain ⟨v, hv, hvmint⟩ := vaultMint_run laws h hw
  obtain ⟨d, hd⟩ := Option.isSome_iff_exists.mp hacc.mintAccount
  obtain ⟨L₁, t, hata, hta, htmint, htowner, htamt, hmints⟩ := initAtaIfNeeded_some hacc
  have hav : a.mineableVault = rt.vaultPda := hacc.vault.symm.trans hvault.vault
  -- the account constraints hold
  have hsig : rt.canSign (Ix.mine a nonce soln).signer = true := hacc.signature
  rw [execute, bind_of_ok (require_of hsig)] at he
  rw [mine, bind_of_ok (loadConfig_ok.mpr ⟨hacc.config, hw, hacc.configSeeds⟩),
    bind_of_ok (require_of (decide_eq_true hacc.mint)),
    bind_of_ok (require_of (decide_eq_true hacc.vault)),
    bind_of_ok (show loadMint w.ledger a.mint = .ok d from okOr_ok.mpr hd),
    bind_of_ok (show checkVaultSeeds rt cfg a.mineableVault = .ok () from
      require_of (decide_eq_true hacc.vaultSeeds)),
    bind_of_ok (show loadToken w.ledger a.mineableVault = .ok v from okOr_ok.mpr (hav ▸ hv)),
    bind_of_ok hata, bind_of_ok (require_of (decide_eq_true hacc.slotHashes))] at he
  -- the handler's own checks, in order
  rcases bind_error.mp he with he | ⟨_, hopen, he⟩
  · obtain ⟨hclosed, rfl⟩ := require_error.mp he
    exact .inl ⟨hclosed, rfl⟩
  have hopen : cfg.miningOpen = true := require_ok.mp hopen
  rcases bind_error.mp he with he | ⟨hash, -, he⟩
  · rcases verifySubmission_error he with hbad | hbad
    · exact .inr (.inl hbad)
    · exact .inr (.inr (.inl hbad))
  rcases bind_error.mp he with he | ⟨-, -, he⟩
  · obtain ⟨hzero, rfl⟩ := require_error.mp he
    refine .inr (.inr (.inr (.inl ⟨?_, rfl⟩)))
    by_contra hlt
    have hpos := (reward_pos_iff cfg.blockHeight).mpr (by omega)
    rw [← hbooks.schedule.reward] at hpos
    exact of_decide_eq_false hzero (UInt64.lt_iff_toNat_lt.mpr hpos)
  have hcap := hbooks.next_capped
  rw [epochs_worth, mineableBase_toNat] at hcap
  rcases bind_error.mp he with he | ⟨cumulative, hcum, he⟩
  · have := checkedAdd_none (okOr_error.mp he).1
    omega
  have hcum := checkedAdd_some.mp (okOr_ok.mp hcum)
  rcases bind_error.mp he with he | ⟨-, -, he⟩
  · have hover := of_decide_eq_false (require_error.mp he).1
    rw [UInt64.le_iff_toNat_le, mineableBase_toNat] at hover
    omega
  rcases bind_error.mp he with he | ⟨L', -, he⟩
  · -- the vault holds at least what the schedule has left
    obtain ⟨-, hkeep, -⟩ := initAtaIfNeeded_ok hata
    obtain ⟨v', hv', howner⟩ := hvault.owned
    obtain rfl : v = v' := by rwa [hv, Option.some.injEq] at hv'
    have hbal : w.ledger.balance rt.vaultPda = v.amount.toNat := by simp [Ledger.balance, hv]
    have hproper : Proper L₁ (rewardTransfer rt cfg a d) v t := {
      source := by rw [rewardTransfer, hav]; exact hkeep _ _ hv
      destination := hta
      signed := by simp [rewardTransfer, hacc.configSeeds]
      owner := howner.trans hacc.config.symm
      sourceMint := hvmint.trans hacc.mint
      destinationMint := htmint
      decimals := by rw [hmints]; exact hd
      supply := by rw [← hbal, htamt]; exact hsupply }
    have hfunds : v.amount < cfg.currentEpochReward := hspl _ _ _ _ hproper (okOr_error.mp he).1
    have hfunds := UInt64.lt_iff_toNat_lt.mp hfunds
    have hlaw := hvault.isOpen hopen
    rw [hbal, mineableBase_toNat] at hlaw
    omega
  rcases bind_error.mp he with he | ⟨⟨cfg', newHeight, evs⟩, -, he⟩
  · rw [hdata] at he
    -- the transition starts from the config with the new payout: same counters
    have hempty := empties_le h hw
    exact .inr (.inr (.inr (.inr (advanceRound_error (by exact hh) (by exact hempty) he))))
  · cases he

/-- Why an `advance_empty_round` with the right accounts can fail on a reachable state. -/
theorem advanceEmptyRound_error (h : Run (Step rt) (genesis L) tr w) (hw : w.config = some cfg)
    (hh : cfg.blockHeight.toNat < 2 ^ 64 - 378001) (hdata : env.slotHashes = some data)
    {a : AdvanceEmptyRound} (hacc : AdvanceAccounts rt cfg a) {e : Error}
    (he : execute rt env w (.advanceEmptyRound a) = .error e) :
    (cfg.miningOpen = false ∧ e = .equium .miningNotOpen) ∨
      (env.clock.slot.toNat < cfg.currentRoundOpenSlot.toNat + 150 ∧
        e = .equium .roundStillActive) ∨
      (BadSlotHashes data ∧ e = .equium .badSlotHashes) := by
  have hsig : rt.canSign (Ix.advanceEmptyRound a).signer = true := hacc.signature
  rw [execute, bind_of_ok (require_of hsig)] at he
  rw [advanceEmptyRound, bind_of_ok (loadConfig_ok.mpr ⟨hacc.config, hw, hacc.configSeeds⟩),
    bind_of_ok (require_of (decide_eq_true hacc.slotHashes))] at he
  rcases bind_error.mp he with he | ⟨_, hopen, he⟩
  · obtain ⟨hclosed, rfl⟩ := require_error.mp he
    exact .inl ⟨hclosed, rfl⟩
  rcases bind_error.mp he with he | ⟨elapsed, hel, he⟩
  · obtain ⟨hnone, rfl⟩ := okOr_error.mp he
    refine .inr (.inl ⟨?_, rfl⟩)
    unfold checkedSub at hnone
    split_ifs at hnone with hle
    have := UInt64.lt_iff_toNat_lt.mp (UInt64.not_le.mp hle)
    omega
  have hel := checkedSub_some.mp (okOr_ok.mp hel)
  rcases bind_error.mp he with he | ⟨-, -, he⟩
  · obtain ⟨hearly, rfl⟩ := require_error.mp he
    have hearly := UInt64.lt_iff_toNat_lt.mp (UInt64.not_le.mp (of_decide_eq_false hearly))
    have htimeout : roundTimeoutSlots.toNat = 150 := rfl
    exact .inr (.inl ⟨by omega, rfl⟩)
  rcases bind_error.mp he with he | ⟨⟨cfg', newHeight, evs⟩, -, he⟩
  · rw [hdata] at he
    exact .inr (.inr (advanceRound_error hh (empties_le h hw) he))
  · cases he

/-- A `mine` that succeeds has passed every one of the checks. -/
theorem mine_blocked (h : Run (Step rt) (genesis L) tr w) (hw : w.config = some cfg)
    (hdata : env.slotHashes = some data) (a : Mine) (nonce : Bytes32) (soln : List UInt8)
    (hbad : cfg.miningOpen = false ∨ Submission.valid rt.toCrates cfg a.miner nonce soln = false ∨
      Submission.under rt.toCrates cfg a.miner soln = false ∨
      9450000 ≤ cfg.blockHeight.toNat ∨ BadSlotHashes data) :
    ∃ e, execute rt env w (.mine a nonce soln) = .error e := by
  cases hx : execute rt env w (.mine a nonce soln) with
  | error e => exact ⟨e, rfl⟩
  | ok r =>
    obtain ⟨w', evs⟩ := r
    obtain ⟨-, cfg', L', -, heff⟩ := execute_ok hx
    rw [hw] at heff
    cases heff with
    | mine _ _ _ _ _ d cumulative L₁ _ hok hata hcum hcap htr hadv =>
      obtain ⟨entropy, hent, -⟩ := hadv.entropy
      rw [hdata] at hent
      have hpos := hok.rewardPos
      rw [((accounts_run h).2 cfg hw).schedule.reward, reward_pos_iff] at hpos
      have hgood := readRecentSlotHash_good hent
      rcases hbad with hbad | hbad | hbad | hbad | hbad
      · rw [hok.isOpen] at hbad; cases hbad
      · rw [show Submission.valid _ _ _ _ _ = true from hok.valid] at hbad; cases hbad
      · rw [show Submission.under _ _ _ _ = true from hok.under] at hbad; cases hbad
      · omega
      · exact absurd hbad hgood

/-- An `advance_empty_round` that succeeds has passed every one of the checks. -/
theorem advanceEmptyRound_blocked (hw : w.config = some cfg) (hdata : env.slotHashes = some data)
    (a : AdvanceEmptyRound) (hbad : cfg.miningOpen = false ∨
      env.clock.slot.toNat < cfg.currentRoundOpenSlot.toNat + 150 ∨ BadSlotHashes data) :
    ∃ e, execute rt env w (.advanceEmptyRound a) = .error e := by
  cases hx : execute rt env w (.advanceEmptyRound a) with
  | error e => exact ⟨e, rfl⟩
  | ok r =>
    obtain ⟨w', evs⟩ := r
    obtain ⟨-, cfg', L', -, heff⟩ := execute_ok hx
    rw [hw] at heff
    cases heff with
    | advanceEmptyRound _ _ _ hopen hel hadv =>
      obtain ⟨entropy, hent, -⟩ := hadv.entropy
      rw [hdata] at hent
      have hgood := readRecentSlotHash_good hent
      have hel : cfg.currentRoundOpenSlot.toNat + 150 ≤ env.clock.slot.toNat := hel
      rcases hbad with hbad | hbad | hbad
      · rw [hopen] at hbad; cases hbad
      · omega
      · exact absurd hbad hgood

end errors

/-- EXACT FAILURES: on every reachable state below the end of the height range, with the right
    accounts and a token program that refuses a transfer only for lack of funds, `mine` fails exactly
    when mining is closed, the solution is invalid, its hash is not under the target, the schedule is
    over or the SlotHashes data is bad; `advance_empty_round` exactly when mining is closed, the
    round is younger than 150 slots or the SlotHashes data is bad. No other error can be seen. -/
theorem exact_failures (laws : TokenLaws rt) (hspl : FailsOnlyOnFunds rt) (L : Ledger)
    (tr : Record) (w : World) (h : Run (Step rt) (genesis L) tr w) (cfg : EquiumConfig)
    (hw : w.config = some cfg)
    (hh : cfg.blockHeight.toNat < 2 ^ 64 - 378001) (env : Env) (data : List UInt8)
    (hdata : env.slotHashes = some data) :
    (∀ a nonce soln, MineAccounts rt w cfg a →
        w.ledger.balance rt.vaultPda + w.ledger.balance a.minerAta < 2 ^ 64 →
        ((∃ e, execute rt env w (.mine a nonce soln) = .error e) ↔
          cfg.miningOpen = false ∨ Submission.valid rt.toCrates cfg a.miner nonce soln = false ∨
            Submission.under rt.toCrates cfg a.miner soln = false ∨
            9450000 ≤ cfg.blockHeight.toNat ∨ BadSlotHashes data) ∧
        ∀ e, execute rt env w (.mine a nonce soln) = .error e →
          e ∈ [.equium .miningNotOpen, .equium .invalidEquihash, .equium .aboveTarget,
            .equium .rewardZeroed, .equium .badSlotHashes]) ∧
      ∀ a, AdvanceAccounts rt cfg a →
        ((∃ e, execute rt env w (.advanceEmptyRound a) = .error e) ↔
          cfg.miningOpen = false ∨
            env.clock.slot.toNat < cfg.currentRoundOpenSlot.toNat + 150 ∨ BadSlotHashes data) ∧
        ∀ e, execute rt env w (.advanceEmptyRound a) = .error e →
          e ∈ [.equium .miningNotOpen, .equium .roundStillActive, .equium .badSlotHashes] := by
  refine ⟨fun a nonce soln hacc hsupply => ⟨⟨fun ⟨e, he⟩ => ?_, fun hbad => ?_⟩, fun e he => ?_⟩,
    fun a hacc => ⟨⟨fun ⟨e, he⟩ => ?_, fun hbad => ?_⟩, fun e he => ?_⟩⟩
  · have := mine_error laws hspl h hw hh hdata hacc hsupply he
    tauto
  · exact mine_blocked h hw hdata a nonce soln hbad
  · rcases mine_error laws hspl h hw hh hdata hacc hsupply he with
      ⟨-, rfl⟩ | ⟨-, rfl⟩ | ⟨-, rfl⟩ | ⟨-, rfl⟩ | ⟨-, rfl⟩ <;> simp
  · have := advanceEmptyRound_error h hw hh hdata hacc he
    tauto
  · exact advanceEmptyRound_blocked hw hdata a hbad
  · rcases advanceEmptyRound_error h hw hh hdata hacc he with
      ⟨-, rfl⟩ | ⟨-, rfl⟩ | ⟨-, rfl⟩ <;> simp

namespace Demo

/-- The vault has paid one reward, into the miner's new account. -/
theorem world_ledger : world.ledger.accounts (key 130) = some ⟨key 10, key 30, 25000000⟩ ∧
    world.ledger.balance (key 2) + world.ledger.balance (key 130) < 2 ^ 64 ∧
    world.ledger.mints (key 10) = some 6 := by decide +kernel

/-- The accounts of the next submission. -/
theorem mineAccounts : MineAccounts runtime world config
    ⟨key 30, key 1, key 10, key 2, key 130, key 9, key 3⟩ where
  signature := by decide +kernel
  config := by decide +kernel
  configSeeds := by rw [config_eq]; rfl
  mint := by rw [config_eq]
  mintAccount := by rw [world_ledger.2.2]; rfl
  vault := by rw [config_eq]
  vaultSeeds := by rw [config_eq]; decide +kernel
  ata := by decide +kernel
  ataAccount := by
    intro t ht
    obtain rfl := Option.some.inj (world_ledger.1.symm.trans ht)
    exact ⟨rfl, rfl⟩
  slotHashes := rfl

theorem advanceAccounts : AdvanceAccounts runtime config ⟨key 30, key 1, key 3⟩ where
  signature := by decide +kernel
  config := by decide +kernel
  configSeeds := by rw [config_eq]; rfl
  slotHashes := rfl

end Demo

/-- The demonstration cluster after its run: a valid submission is accepted, a second timeout is
    still too early. -/
theorem exact_failures_demo : ∃ tr, Run (Step Demo.runtime) (genesis Demo.ledger) tr Demo.world ∧
    (¬ ∃ e, execute Demo.runtime (Demo.env 402) Demo.world (.mine ⟨Demo.key 30, Demo.key 1,
      Demo.key 10, Demo.key 2, Demo.key 130, Demo.key 9, Demo.key 3⟩ (Demo.key 0) [1]) = .error e) ∧
    ∃ e, execute Demo.runtime (Demo.env 402) Demo.world
      (.advanceEmptyRound ⟨Demo.key 30, Demo.key 1, Demo.key 3⟩) = .error e := by
  obtain ⟨tr, hr⟩ := Demo.world_run
  obtain ⟨hmine, hadvance⟩ := exact_failures Demo.runtime_laws (fun _ _ _ _ => splTransfer_funds)
    Demo.ledger tr _ hr Demo.config Demo.world_config (by rw [Demo.config_eq]; decide)
    (Demo.env 402) (List.replicate 48 1) rfl
  have hearly : (Demo.env 402).clock.slot.toNat < Demo.config.currentRoundOpenSlot.toNat + 150 := by
    rw [Demo.config_eq]
    decide
  refine ⟨tr, hr, ?_, (hadvance _ Demo.advanceAccounts).1.mpr (.inr (.inl hearly))⟩
  rw [(hmine _ _ _ Demo.mineAccounts Demo.world_ledger.2.1).1, Demo.config_eq]
  have hgood : ¬ BadSlotHashes (List.replicate 48 1) := by
    unfold BadSlotHashes
    decide
  rintro (hbad | hbad | hbad | hbad | hbad)
  · cases hbad
  · exact absurd hbad (by decide +kernel)
  · exact absurd hbad (by decide +kernel)
  · exact absurd hbad (by decide)
  · exact hgood hbad

end Equium.Program
