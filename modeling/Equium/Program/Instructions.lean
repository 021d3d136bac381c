import Equium.Program.Round

/-! @src programs/equium/src/lib.rs, instructions/*.rs | name:The six instructions

    Each instruction is its Anchor account constraints followed by its handler, on a `World` made of
    the config account and the token ledger. What the program calls but does not contain (address
    derivation, signatures, the token program) is the `Runtime` it runs on. -/

namespace Equium.Program
open Schemes Equium.Core

/-- The runtime around the program. -/
structure Runtime extends Crates where
  /-- `Pubkey::create_program_address([seed, [bump]], program_id)` -/
  createProgramAddress : List UInt8 → UInt8 → Option Pubkey
  /-- `Pubkey::find_program_address([seed], program_id)` -/
  findProgramAddress : List UInt8 → Pubkey × UInt8
  /-- the associated token address of `(owner, mint, token_program)` -/
  associatedTokenAddress : Pubkey → Pubkey → Pubkey → Pubkey
  /-- `sysvar::slot_hashes::ID` -/
  slotHashesId : Pubkey
  /-- the keys a transaction can carry a signature of -/
  canSign : Pubkey → Bool
  /-- the token program's `transfer_checked`: the ledger after, or a refusal without effect -/
  transferChecked : Ledger → TransferChecked → Option Ledger

/-- The config account (absent before `initialize`) and the token ledger. -/
structure World where
  config : Option EquiumConfig
  ledger : Ledger

/-- What a transaction reads from the cluster. -/
structure Env where
  clock : Clock
  /-- the data of the SlotHashes account -/
  slotHashes : Option (List UInt8)

/-! ### Accounts and arguments -/

structure Initialize where
  admin : Pubkey
  config : Pubkey
  mint : Pubkey
  mineableVault : Pubkey

structure InitializeArgs where
  initialTarget : Bytes32
  equihashN : UInt32
  equihashK : UInt32

structure FundVault where
  admin : Pubkey
  config : Pubkey
  mint : Pubkey
  source : Pubkey
  mineableVault : Pubkey

structure Mine where
  miner : Pubkey
  config : Pubkey
  mint : Pubkey
  mineableVault : Pubkey
  minerAta : Pubkey
  tokenProgram : Pubkey
  slotHashes : Pubkey

structure AdvanceEmptyRound where
  caller : Pubkey
  config : Pubkey
  slotHashes : Pubkey

structure RenounceAdmin where
  admin : Pubkey
  config : Pubkey

structure SetTarget where
  admin : Pubkey
  config : Pubkey

variable (rt : Runtime)

/-- The address of the config account. -/
def Runtime.configPda : Pubkey := (rt.findProgramAddress configSeed).1

/-- The address of the mineable vault. -/
def Runtime.vaultPda : Pubkey := (rt.findProgramAddress vaultSeed).1

/-! ### Account constraints -/

/-- `Account<EquiumConfig>` with `seeds = [CONFIG_SEED], bump = config.config_bump`. -/
def loadConfig (w : World) (key : Pubkey) : Except Error EquiumConfig := do
  let cfg ← okOr (if key = rt.configPda then w.config else none) (.anchor .accountNotInitialized)
  require (rt.createProgramAddress configSeed cfg.configBump = some key) (.anchor .constraintSeeds)
  pure cfg

/-- `InterfaceAccount<Mint>`: the decimals of the mint. -/
def loadMint (L : Ledger) (key : Pubkey) : Except Error UInt8 :=
  okOr (L.mints key) (.anchor .accountNotInitialized)

/-- `InterfaceAccount<TokenAccount>`. -/
def loadToken (L : Ledger) (key : Pubkey) : Except Error TokenAccount :=
  okOr (L.accounts key) (.anchor .accountNotInitialized)

/-- `seeds = [VAULT_SEED], bump = config.mineable_vault_bump` on the vault. -/
def checkVaultSeeds (cfg : EquiumConfig) (key : Pubkey) : Except Error Unit :=
  require (rt.createProgramAddress vaultSeed cfg.mineableVaultBump = some key)
    (.anchor .constraintSeeds)

/-- `init_if_needed` of the miner's associated token account. -/
def initAtaIfNeeded (L : Ledger) (a : Mine) : Except Error Ledger := do
  require (a.minerAta = rt.associatedTokenAddress a.miner a.mint a.tokenProgram)
    (.anchor .constraintAssociated)
  match L.accounts a.minerAta with
  | none => pure (L.set a.minerAta ⟨a.mint, a.miner, 0⟩)
  | some t =>
    require (t.mint = a.mint) (.anchor .constraintTokenMint)
    require (t.owner = a.miner) (.anchor .constraintTokenOwner)
    pure L

/-! ### Handlers -/

/-- `sha256(mint || slot_le)`, the challenge of round 0. -/
def genesisChallenge (mint : Pubkey) (slot : UInt64) : Bytes32 :=
  rt.sha256 (mint.toList ++ (toLe64 slot).toList)

/-- The config `initialize` writes. -/
def genesisConfig (clock : Clock) (a : Initialize) (args : InitializeArgs) : EquiumConfig where
  mint := a.mint
  mineableVault := a.mineableVault
  mineableVaultBump := (rt.findProgramAddress vaultSeed).2
  configBump := (rt.findProgramAddress configSeed).2
  genesisSlot := clock.slot
  genesisUnixTs := clock.unixTimestamp
  equihashN := args.equihashN
  equihashK := args.equihashK
  currentTarget := args.initialTarget
  blockHeight := 0
  currentChallenge := genesisChallenge rt a.mint clock.slot
  currentRoundOpenSlot := clock.slot
  currentRoundOpenUnixTs := clock.unixTimestamp
  lastWinner := defaultKey
  currentEpochReward := initialBlockRewardBase
  nextHalvingBlock := halvingIntervalBlocks
  nextRetargetBlock := retargetIntervalBlocks
  lastRetargetUnixTs := clock.unixTimestamp
  cumulativeMined := 0
  emptyRounds := 0
  miningOpen := false
  admin := a.admin
  adminRenounced := false

def initializeEquium (env : Env) (w : World) (a : Initialize) (args : InitializeArgs) :
    Except Error (World × List Event) := do
  require (a.admin = expectedAdmin) (.equium .notAdmin)
  require (a.config = rt.configPda) (.anchor .constraintSeeds)
  require w.config.isNone (.anchor .accountAlreadyInUse)
  let _ ← loadMint w.ledger a.mint
  require (a.mineableVault = rt.vaultPda) (.anchor .constraintSeeds)
  require (w.ledger.accounts a.mineableVault).isNone (.anchor .accountAlreadyInUse)
  let L := w.ledger.set a.mineableVault ⟨a.mint, a.config, 0⟩
  let cfg := genesisConfig rt env.clock a args
  pure (⟨some cfg, L⟩,
    [.equiumInitialized cfg.admin a.config cfg.mint cfg.mineableVault cfg.equihashN cfg.equihashK
      cfg.genesisSlot cfg.genesisUnixTs cfg.currentTarget cfg.currentChallenge])

def fundVault (env : Env) (w : World) (a : FundVault) : Except Error (World × List Event) := do
  let cfg ← loadConfig rt w a.config
  require (cfg.admin = a.admin) (.equium .notAdmin)
  require (cfg.mint = a.mint) (.equium .wrongMint)
  require (cfg.mineableVault = a.mineableVault) (.equium .wrongVault)
  let decimals ← loadMint w.ledger a.mint
  let source ← loadToken w.ledger a.source
  require (source.mint = a.mint) (.equium .sourceMintMismatch)
  checkVaultSeeds rt cfg a.mineableVault
  let _ ← loadToken w.ledger a.mineableVault
  require (!cfg.miningOpen) (.equium .alreadyOpen)
  let L ← okOr (rt.transferChecked w.ledger
    { source := a.source, mint := a.mint, destination := a.mineableVault, authority := a.admin
      amount := mineableBase, decimals := decimals, signers := [a.admin] }) .token
  let cfg := { cfg with
    currentRoundOpenSlot := env.clock.slot
    currentRoundOpenUnixTs := env.clock.unixTimestamp
    lastRetargetUnixTs := env.clock.unixTimestamp
    miningOpen := true }
  pure (⟨some cfg, L⟩,
    [.miningOpened a.admin mineableBase env.clock.slot env.clock.unixTimestamp])

def mine (env : Env) (w : World) (a : Mine) (nonce : Bytes32) (solnIndices : List UInt8) :
    Except Error (World × List Event) := do
  let cfg ← loadConfig rt w a.config
  require (cfg.mint = a.mint) (.equium .wrongMint)
  require (cfg.mineableVault = a.mineableVault) (.equium .wrongVault)
  let decimals ← loadMint w.ledger a.mint
  checkVaultSeeds rt cfg a.mineableVault
  let _ ← loadToken w.ledger a.mineableVault
  let L ← initAtaIfNeeded rt w.ledger a
  require (a.slotHashes = rt.slotHashesId) (.anchor .constraintAddress)
  require cfg.miningOpen (.equium .miningNotOpen)
  let solutionHash ← verifySubmission rt.toCrates cfg.equihashN cfg.equihashK cfg.currentChallenge
    a.miner cfg.blockHeight nonce solnIndices cfg.currentTarget
  -- the reward of the current epoch: a halving at the next height applies to the next round
  let reward := cfg.currentEpochReward
  require (reward > 0) (.equium .rewardZeroed)
  let newCumulative ← okOr (checkedAdd cfg.cumulativeMined reward) (.equium .scheduleOverflow)
  require (newCumulative ≤ mineableBase) (.equium .supplyExhausted)
  let L ← okOr (rt.transferChecked L
    { source := a.mineableVault, mint := a.mint, destination := a.minerAta, authority := a.config
      amount := reward, decimals := decimals
      signers := a.miner :: (rt.createProgramAddress configSeed cfg.configBump).toList }) .token
  let cfg := { cfg with cumulativeMined := newCumulative }
  let (cfg, newHeight, evs) ←
    advanceRound rt.toCrates cfg env.clock env.slotHashes (.mined a.miner)
  pure (⟨some cfg, L⟩,
    evs ++ [.blockMined (newHeight - 1) a.miner reward solutionHash cfg.currentChallenge])

def advanceEmptyRound (env : Env) (w : World) (a : AdvanceEmptyRound) :
    Except Error (World × List Event) := do
  let cfg ← loadConfig rt w a.config
  require (a.slotHashes = rt.slotHashesId) (.anchor .constraintAddress)
  require cfg.miningOpen (.equium .miningNotOpen)
  let elapsed ← okOr (checkedSub env.clock.slot cfg.currentRoundOpenSlot) (.equium .roundStillActive)
  require (elapsed ≥ roundTimeoutSlots) (.equium .roundStillActive)
  let priorHeight := cfg.blockHeight
  let (cfg, _, evs) ← advanceRound rt.toCrates cfg env.clock env.slotHashes .empty
  pure (⟨some cfg, w.ledger⟩, evs ++ [.blockSkipped priorHeight elapsed cfg.currentChallenge])

def renounceAdmin (w : World) (a : RenounceAdmin) : Except Error (World × List Event) := do
  let cfg ← loadConfig rt w a.config
  require (cfg.admin = a.admin) (.equium .notAdmin)
  require (!cfg.adminRenounced) (.equium .adminRenounced)
  pure (⟨some { cfg with adminRenounced := true, admin := defaultKey }, w.ledger⟩, [])

def setTarget (w : World) (a : SetTarget) (newTarget : Bytes32) :
    Except Error (World × List Event) := do
  let cfg ← loadConfig rt w a.config
  require (cfg.admin = a.admin) (.equium .notAdmin)
  require (!cfg.adminRenounced) (.equium .adminRenounced)
  pure (⟨some { cfg with currentTarget := newTarget }, w.ledger⟩,
    [.targetSeeded a.admin cfg.currentTarget newTarget])

/-! ### Dispatch -/

inductive Ix where
  | initializeEquium (a : Initialize) (args : InitializeArgs)
  | fundVault (a : FundVault)
  | mine (a : Mine) (nonce : Bytes32) (solnIndices : List UInt8)
  | advanceEmptyRound (a : AdvanceEmptyRound)
  | renounceAdmin (a : RenounceAdmin)
  | setTarget (a : SetTarget) (newTarget : Bytes32)

/-- The account each instruction declares as `Signer`. -/
def Ix.signer : Ix → Pubkey
  | .initializeEquium a _ => a.admin
  | .fundVault a => a.admin
  | .mine a _ _ => a.miner
  | .advanceEmptyRound a => a.caller
  | .renounceAdmin a => a.admin
  | .setTarget a _ => a.admin

/-- Execute one instruction; an error leaves no effect. -/
def execute (env : Env) (w : World) (ix : Ix) : Except Error (World × List Event) := do
  require (rt.canSign ix.signer) (.anchor .missingSignature)
  match ix with
  | .initializeEquium a args => initializeEquium rt env w a args
  | .fundVault a => fundVault rt env w a
  | .mine a nonce soln => mine rt env w a nonce soln
  | .advanceEmptyRound a => advanceEmptyRound rt env w a
  | .renounceAdmin a => renounceAdmin rt w a
  | .setTarget a t => setTarget rt w a t

end Equium.Program
