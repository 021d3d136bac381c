import Equium.WebMiner.Loop

/-! @src clients/web-miner/app/src/program.ts, miner.ts, programs/equium/src/instructions/mine.rs |
    name:Landing of the web miner | scheme:client against chain

    The web miner fills in every account of `mine` itself: the addresses it derives are the ones the
    config was initialized with, so on the round it was searched for its transaction is judged by the
    target alone. -/

namespace Equium.WebMiner
open Schemes Equium.Core Equium.Program Miner

variable {rt : Runtime}

/-- `fetchConfig`, on the account it reads. -/
def fetchConfig (cfg : Program.EquiumConfig) : EquiumConfig where
  blockHeight := cfg.blockHeight
  currentChallenge := cfg.currentChallenge
  currentTarget := cfg.currentTarget
  miningOpen := cfg.miningOpen
  mint := cfg.mint
  equihashN := cfg.equihashN
  equihashK := cfg.equihashK

/-- The accounts of `buildMineTx`. -/
def mineAccounts (rt : Runtime) (miner mint tokenProgram : Pubkey) : Mine where
  miner := miner
  config := rt.configPda
  mint := mint
  mineableVault := rt.vaultPda
  minerAta := rt.associatedTokenAddress miner mint tokenProgram
  tokenProgram := tokenProgram
  slotHashes := rt.slotHashesId

/-- An address that was found is the one its bump creates. -/
structure FoundAddresses (rt : Runtime) : Prop where
  config : rt.createProgramAddress configSeed (rt.findProgramAddress configSeed).2 =
    some rt.configPda
  vault : rt.createProgramAddress vaultSeed (rt.findProgramAddress vaultSeed).2 = some rt.vaultPda

/-! ### The settings of the config -/

/-- What `initialize` settled. -/
structure Settled (rt : Runtime) (cfg : Program.EquiumConfig) : Prop where
  vault : cfg.mineableVault = rt.vaultPda
  vaultBump : cfg.mineableVaultBump = (rt.findProgramAddress vaultSeed).2
  configBump : cfg.configBump = (rt.findProgramAddress configSeed).2

/-- A successful instruction keeps them, and the mint. -/
theorem effect_settled {env : Env} {L L' : Ledger} {cfg cfg' : Program.EquiumConfig} {ix : Ix}
    (h : Effect rt env L (some cfg) ix cfg' L') :
    cfg'.mint = cfg.mint ∧ (Settled rt cfg → Settled rt cfg') := by
  cases h with
  | mine _ _ _ _ _ _ _ _ _ _ _ _ _ _ hadv =>
    exact ⟨hadv.mint, fun hs => ⟨hadv.mineableVault.trans hs.vault,
      hadv.mineableVaultBump.trans hs.vaultBump, hadv.configBump.trans hs.configBump⟩⟩
  | advanceEmptyRound _ _ _ _ _ hadv =>
    exact ⟨hadv.mint, fun hs => ⟨hadv.mineableVault.trans hs.vault,
      hadv.mineableVaultBump.trans hs.vaultBump, hadv.configBump.trans hs.configBump⟩⟩
  | fundVault => exact ⟨rfl, fun hs => ⟨hs.vault, hs.vaultBump, hs.configBump⟩⟩
  | renounceAdmin => exact ⟨rfl, fun hs => ⟨hs.vault, hs.vaultBump, hs.configBump⟩⟩
  | setTarget => exact ⟨rfl, fun hs => ⟨hs.vault, hs.vaultBump, hs.configBump⟩⟩

theorem settled_run {L : Ledger} {tr : Record} {w : World} (h : Run (Program.Step rt) (genesis L) tr w) :
    ∀ cfg, w.config = some cfg → Settled rt cfg := by
  refine (run_phases (N := fun _ _ => True) (I := fun _ cfg _ => Settled rt cfg) trivial
    (fun _ _ _ _ _ _ => trivial) ?_ (fun _ _ _ _ _ _ hs => hs) ?_ h).2
  · intro tr env ix evs L cfg' L' he _
    cases he with
    | initializeEquium a args hadmin hvault => exact ⟨hvault, rfl, rfl⟩
  · intro tr env ix evs cfg L cfg' L' _ he hs
    exact (effect_settled he).2 hs

/-- The mint of a config never changes. -/
theorem mint_run {w₀ w : World} {tr : Record} (h : Run (Program.Step rt) w₀ tr w)
    {cfg₀ : Program.EquiumConfig} (h₀ : w₀.config = some cfg₀) :
    ∃ cfg, w.config = some cfg ∧ cfg.mint = cfg₀.mint := by
  refine h.inv_state (fun w => ∃ cfg, w.config = some cfg ∧ cfg.mint = cfg₀.mint)
    ⟨cfg₀, h₀, rfl⟩ ?_
  rintro w l w' ⟨cfg, hw, hmint⟩ hst
  rcases hst.ok_or_quiet with ⟨env, ix, evs, rfl⟩ | ⟨hw', -⟩
  · obtain ⟨-, cfg', L', rfl, he⟩ := hst.effect
    rw [hw] at he
    exact ⟨cfg', rfl, (effect_settled he).1.trans hmint⟩
  · rw [hw']
    exact ⟨cfg, hw, hmint⟩

/-! ### The landing -/

/-- The accounts of the transaction are those of `mine`. -/
theorem mineAccounts_ok (hpda : FoundAddresses rt) {w : World} {cfg : Program.EquiumConfig}
    (hs : Settled rt cfg) {miner tokenProgram : Pubkey} (hsign : rt.canSign miner = true)
    (hmint : (w.ledger.mints cfg.mint).isSome)
    (hata : ∀ t, w.ledger.accounts (rt.associatedTokenAddress miner cfg.mint tokenProgram) = some t →
      t.mint = cfg.mint ∧ t.owner = miner) :
    MineAccounts rt w cfg (mineAccounts rt miner cfg.mint tokenProgram) where
  signature := hsign
  config := rfl
  configSeeds := by
    rw [hs.configBump]
    exact hpda.config
  mint := rfl
  mintAccount := hmint
  vault := hs.vault
  vaultSeeds := by
    rw [hs.vaultBump]
    exact hpda.vault
  ata := rfl
  ataAccount := hata
  slotHashes := rfl

/-- A candidate that passed the off-chain check wins the round of the config it was searched for. -/
theorem Sound.winning {last : Option EquiumConfig} {s : Loop} {miner : Pubkey}
    (hs : Sound rt.toCrates miner last s) {cand : Candidate} (hp : s.pc.submission = some cand)
    {cfg₀ : Program.EquiumConfig} (hlast : last = some (fetchConfig cfg₀)) :
    cand.cfg = fetchConfig cfg₀ ∧ ∃ nonce : Bytes32, cand.nonce = nonce.toList ∧
      Winning rt.toCrates cfg₀ miner ⟨nonce, cand.solnIndices⟩ := by
  have hcand : s.pc.candidate = some cand := by
    cases hpc : s.pc with
    | hashing _ => rw [hpc] at hp; cases hp
    | _ => rw [hpc] at hp; exact hp
  obtain ⟨hfetched, nonce, hnonce, hvalid⟩ := hs.candidate cand hcand
  have hcfg : cand.cfg = fetchConfig cfg₀ := Option.some.inj (hfetched.symm.trans hlast)
  have hunder := hs.under cand hp
  rw [Website.aboveTarget_eq, Bool.not_eq_false', hcfg] at hunder
  rw [hcfg] at hvalid
  exact ⟨hcfg, nonce, hnonce, hvalid, hunder⟩

/-- LANDING: in every run of the web miner a transaction that goes out answers the config fetched
    last. If that was read from a state of the chain, then at any later state of its round the
    transaction is accepted exactly when its hash is under the target of then, and it is unless a
    `set_target` came in between; accepted, it pays the reward of the snapshot into the wallet's
    account and closes the round. -/
theorem web_miner_lands (laws : TokenLaws rt) (hspl : FailsOnlyOnFunds rt) (hpda : FoundAddresses rt)
    (miner : Pubkey) (hsign : rt.canSign miner = true) (steps : List (Taken Loop Event)) (s : Loop)
    (hloop : Run (Step rt.toCrates miner) startMiner steps s) (cand : Candidate)
    (tokenProgram : Pubkey) (hsending : s.pc = .sending cand tokenProgram)
    (L : Ledger) (tr₀ tr : Record) (w₀ w : World) (h₀ : Run (Program.Step rt) (genesis L) tr₀ w₀)
    (h : Run (Program.Step rt) w₀ tr w) (cfg₀ cfg : Program.EquiumConfig)
    (hw₀ : w₀.config = some cfg₀) (hw : w.config = some cfg)
    (hfetched : lastConfig steps = some (fetchConfig cfg₀))
    (hround : cfg.blockHeight = cfg₀.blockHeight) (hopen : cfg.miningOpen = true)
    (hpaying : cfg.blockHeight.toNat < 9450000) (hmint : (w.ledger.mints cfg.mint).isSome)
    (hata : ∀ t, w.ledger.accounts (rt.associatedTokenAddress miner cfg.mint tokenProgram) = some t →
      t.mint = cfg.mint ∧ t.owner = miner)
    (hsupply : w.ledger.balance rt.vaultPda +
      w.ledger.balance (rt.associatedTokenAddress miner cfg.mint tokenProgram) < 2 ^ 64)
    (env : Env) (data : List UInt8) (hdata : env.slotHashes = some data)
    (hgood : ¬ BadSlotHashes data) :
    ∃ nonce : Bytes32, cand.nonce = nonce.toList ∧
      let a := mineAccounts rt miner cand.cfg.mint tokenProgram
      ((∃ w' evs, execute rt env w (.mine a nonce cand.solnIndices) = .ok (w', evs)) ↔
        Submission.under rt.toCrates cfg miner cand.solnIndices = true) ∧
      ((∀ t ∈ tr, seedsAt t = false) →
        Submission.under rt.toCrates cfg miner cand.solnIndices = true) ∧
      ∀ w' evs, execute rt env w (.mine a nonce cand.solnIndices) = .ok (w', evs) →
        Landed w w' cfg a ∧ cfg.currentEpochReward = cfg₀.currentEpochReward := by
  obtain ⟨hcfg, nonce, hnonce, hwin⟩ := (sound_run hloop).winning (by rw [hsending]; rfl) hfetched
  obtain ⟨cfg', hw', hmint₀⟩ := mint_run h hw₀
  obtain rfl := Option.some.inj (hw.symm.trans hw')
  have hsame : cand.cfg.mint = cfg.mint := by
    rw [hcfg]
    exact hmint₀.symm
  have hacc := mineAccounts_ok hpda (settled_run (h₀.append h) cfg hw) hsign hmint hata
  refine ⟨nonce, hnonce, ?_⟩
  rw [hsame]
  exact Winning.lands laws hspl h₀ h hw₀ hw (a := mineAccounts rt miner cfg.mint tokenProgram) hwin
    hround hopen hpaying hacc hsupply hdata hgood

namespace Demo

theorem foundAddresses : FoundAddresses Landing.runtime := ⟨by decide +kernel, by decide +kernel⟩

/-- The seed that the first counter turns into the nonce of the demonstration. -/
def seed : Bytes32 := seedXor (Program.Demo.key 7) 1

theorem seed_first : seedXor seed 1 = Program.Demo.key 7 := by decide +kernel

/-- The wallet of the demonstration. -/
def wallet : Pubkey := Program.Demo.key 30

def snapshot : EquiumConfig := fetchConfig Landing.cfg₀

theorem checked_base : Solver.Checked.BaseState.new 16 1
    (buildInput snapshot.currentChallenge wallet snapshot.blockHeight) = some (.ok Landing.base) :=
  rfl

/-- The worker's first nonce is the one of the demonstration, and it hits. -/
theorem solved : ∃ soln, Answers Landing.runtime.toCrates (solveRequest wallet snapshot seed 1)
    (.solved 1 (seedXor seed 1).toList soln 1) := by
  obtain ⟨soln, hsoln⟩ := Landing.hit
  rw [← seed_first] at hsoln
  have hfirst : ∀ c' : UInt32, (0 : UInt32).toNat < c'.toNat → c'.toNat < (1 : UInt32).toNat →
      Solver.tryNonce Landing.runtime.toCrates Landing.base
        (buildInput snapshot.currentChallenge wallet snapshot.blockHeight) (seedXor seed c') =
        none := by
    intro c' h h'
    exact absurd h' (Nat.not_lt.mpr h)
  have hloop := solveLoop_finds (show (1 : UInt32).toNat ≤ (4096 : UInt32).toNat by decide) hsoln 0
    rfl hfirst
  have hblock := (solveBlock_eq checked_base 4096 1).trans (congrArg (Option.map ending) hloop)
  exact ⟨soln, @Answers.solved _ (solveRequest wallet snapshot seed 1) 1 ⟨_, soln, 1⟩ _ hblock⟩

def candidate (soln : List UInt8) : Candidate := ⟨snapshot, (seedXor seed 1).toList, soln⟩

/-- The loop once the worker has answered. -/
def answered (soln : List UInt8) : Loop :=
  { solveOnWorker wallet startMiner snapshot seed with
    posted := []
    pc := .hashing (candidate soln) }

/-- Fetched, solved, checked, and signed. -/
theorem reached : ∃ steps s soln, Run (Step Landing.runtime.toCrates wallet) startMiner steps s ∧
    s.pc = .sending (candidate soln) (Program.Demo.key 9) ∧ lastConfig steps = some snapshot := by
  obtain ⟨soln, hsolved⟩ := solved
  have hopen : snapshot.miningOpen = true := by decide +kernel
  have hconfig : onConfig wallet startMiner (some snapshot) seed =
      solveOnWorker wallet startMiner snapshot seed := by
    unfold onConfig
    exact if_pos hopen
  have h₁ : Run (Step Landing.runtime.toCrates wallet) startMiner _ _ :=
    Run.nil.snoc (Step.fetched rfl (some snapshot) seed)
  rw [hconfig] at h₁
  have h₂ := h₁.snoc (Step.message (List.mem_singleton_self (0, solveRequest wallet snapshot seed 1))
    hsolved)
  have hanswer : onMessage
      { solveOnWorker wallet startMiner snapshot seed with
        posted := [(0, solveRequest wallet snapshot seed 1)].erase
          (0, solveRequest wallet snapshot seed 1) }
      0 (.solved 1 (seedXor seed 1).toList soln 1) = answered soln := by
    rw [List.erase_cons_head]
    rfl
  have h₂ : Run _ _ _ (answered soln) := hanswer ▸ h₂
  have hunder : Website.aboveTarget Landing.runtime.toCrates wallet snapshot.toEquiumConfig soln =
      false := by
    rw [Website.aboveTarget_eq]
    have : hashUnderTarget (Program.Demo.key 0) snapshot.currentTarget = true := by decide +kernel
    exact congrArg (!·) this
  have h₃ := h₂.snoc (Step.digest rfl)
  have hdigest : onDigest Landing.runtime.toCrates wallet (answered soln) (candidate soln) =
      { answered soln with pc := .detecting (candidate soln) } := by
    unfold onDigest
    exact if_neg (Bool.not_eq_true _ ▸ hunder)
  rw [hdigest] at h₃
  have h₄ := h₃.snoc (Step.detected rfl (Program.Demo.key 9))
  have h₅ := h₄.snoc (Step.signed rfl)
  exact ⟨_, _, soln, h₅, rfl, rfl⟩

end Demo

/-- The transaction of a loop that fetched, solved and signed lands. -/
theorem web_miner_lands_demo : ∃ (steps : List (Taken Loop Event)) (s : Loop) (cand : Candidate)
    (nonce : Bytes32) (w' : World) (evs : List Program.Event),
    Run (Step Landing.runtime.toCrates Demo.wallet) startMiner steps s ∧
    s.pc = .sending cand (Program.Demo.key 9) ∧ cand.nonce = nonce.toList ∧
    execute Landing.runtime (Program.Demo.env 9) Landing.world
      (.mine (mineAccounts Landing.runtime Demo.wallet cand.cfg.mint (Program.Demo.key 9)) nonce
        cand.solnIndices) = .ok (w', evs) := by
  have hgood : ¬ BadSlotHashes (List.replicate 48 1) := by
    unfold BadSlotHashes
    decide
  obtain ⟨steps, s, soln, hloop, hpc, hlast⟩ := Demo.reached
  obtain ⟨tr₀, hr₀⟩ := play_run Landing.runtime _ (genesis Program.Demo.ledger)
  have hnone : Landing.world.ledger.accounts (Landing.runtime.associatedTokenAddress Demo.wallet
      Landing.cfg.mint (Program.Demo.key 9)) = none := by decide +kernel
  obtain ⟨nonce, hnonce, hiff, hunder, -⟩ := web_miner_lands Landing.runtime_laws
    (fun _ _ _ _ => splTransfer_funds) Demo.foundAddresses Demo.wallet (by decide +kernel) steps s
    hloop _ _ hpc Program.Demo.ledger tr₀ _ Landing.snapshot Landing.world hr₀
    (record_run Landing.runtime Landing.meanwhile _) Landing.cfg₀ Landing.cfg
    (by simp [Landing.cfg₀]) (by simp [Landing.cfg]) hlast (by decide +kernel) (by decide +kernel)
    (by decide +kernel) (by decide +kernel) (by simp [hnone]) (by decide +kernel)
    (Program.Demo.env 9) _ rfl hgood
  obtain ⟨w', evs, hx⟩ := hiff.mpr (hunder (Program.Demo.record_no_seed _ (by simp [Landing.meanwhile])))
  exact ⟨steps, s, _, nonce, w', evs, hloop, hpc, hnonce, hx⟩

end Equium.WebMiner
