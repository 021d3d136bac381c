import Equium.Core.Challenge

/-! @src programs/equium/src/state.rs, errors.rs, lib.rs | name:On-chain state

    The single config account, the errors and events of the program, and the token ledger it moves
    funds in. -/

namespace Equium.Program
open Schemes Equium.Core

abbrev Pubkey := Bytes32

/-- `Pubkey::default()`, the all-zero key. -/
def defaultKey : Pubkey := Vector.replicate 32 0

/-! ### Constants -/

/-- `b"equium-config"`. -/
def configSeed : List UInt8 := [101, 113, 117, 105, 117, 109, 45, 99, 111, 110, 102, 105, 103]

/-- `b"equium-vault"`. -/
def vaultSeed : List UInt8 := [101, 113, 117, 105, 117, 109, 45, 118, 97, 117, 108, 116]

/-- The only key that may call `initialize`. -/
def expectedAdmin : Pubkey :=
  #v[2, 122, 255, 10, 80, 135, 187, 11, 51, 141, 99, 59, 0, 220, 14, 63, 212, 63, 180, 70, 151,
    113, 155, 244, 25, 187, 121, 72, 191, 212, 110, 118]

def totalSupplyBase : UInt64 := 21000000 * 1000000
def premineBase : UInt64 := 2100000 * 1000000
def mineableBase : UInt64 := totalSupplyBase - premineBase
def initialBlockRewardBase : UInt64 := 25 * 1000000
def halvingIntervalBlocks : UInt64 := 378000
def retargetIntervalBlocks : UInt64 := 60
def retargetTargetSeconds : UInt64 := retargetIntervalBlocks * 60
def retargetMinNum : UInt64 := 1
def retargetMinDen : UInt64 := 2
def retargetMaxNum : UInt64 := 2
def retargetMaxDen : UInt64 := 1
def roundTimeoutSlots : UInt64 := 150

theorem mineableBase_toNat : mineableBase.toNat = 18900000000000 := by decide

/-! ### Accounts -/

/-- `EquiumConfig`: all round, schedule and admin state. -/
structure EquiumConfig where
  mint : Pubkey
  mineableVault : Pubkey
  mineableVaultBump : UInt8
  configBump : UInt8
  genesisSlot : UInt64
  genesisUnixTs : Int64
  equihashN : UInt32
  equihashK : UInt32
  currentTarget : Bytes32
  blockHeight : UInt64
  currentChallenge : Bytes32
  currentRoundOpenSlot : UInt64
  currentRoundOpenUnixTs : Int64
  lastWinner : Pubkey
  currentEpochReward : UInt64
  nextHalvingBlock : UInt64
  nextRetargetBlock : UInt64
  lastRetargetUnixTs : Int64
  cumulativeMined : UInt64
  emptyRounds : UInt64
  miningOpen : Bool
  admin : Pubkey
  adminRenounced : Bool
  deriving DecidableEq

/-- `Clock::get()`. -/
structure Clock where
  slot : UInt64
  unixTimestamp : Int64

/-- An SPL token account. -/
structure TokenAccount where
  mint : Pubkey
  owner : Pubkey
  amount : UInt64
  deriving DecidableEq

/-- The token program's state: token accounts, and the decimals of each mint. -/
structure Ledger where
  accounts : Pubkey → Option TokenAccount
  mints : Pubkey → Option UInt8

/-- Write one token account. -/
def Ledger.set (L : Ledger) (key : Pubkey) (a : TokenAccount) : Ledger :=
  { L with accounts := fun k => if k = key then some a else L.accounts k }

/-- Tokens held at an address; an address without an account holds none. -/
def Ledger.balance (L : Ledger) (key : Pubkey) : ℕ :=
  match L.accounts key with
  | some a => a.amount.toNat
  | none => 0

@[simp] theorem Ledger.set_self (L : Ledger) (k : Pubkey) (a : TokenAccount) :
    (L.set k a).accounts k = some a := by simp [Ledger.set]

@[simp] theorem Ledger.set_ne (L : Ledger) {k k' : Pubkey} (a : TokenAccount) (h : k' ≠ k) :
    (L.set k a).accounts k' = L.accounts k' := by simp [Ledger.set, h]

/-- The arguments of an SPL `transfer_checked` call, with the keys whose signature it carries. -/
structure TransferChecked where
  source : Pubkey
  mint : Pubkey
  destination : Pubkey
  authority : Pubkey
  amount : UInt64
  decimals : UInt8
  signers : List Pubkey

/-! ### Errors and events -/

inductive EquiumError where
  | adminRenounced | notAdmin | invalidEquihash | aboveTarget | staleChallenge | roundStillActive
  | supplyExhausted | invalidEquihashParams | badSlotHashes | scheduleOverflow | rewardZeroed
  | wrongMint | wrongVault | miningNotOpen | alreadyOpen | sourceMintMismatch
  deriving DecidableEq, Repr

/-- Failures raised by Anchor before the handler runs. -/
inductive AnchorError where
  | accountNotInitialized | accountAlreadyInUse | constraintSeeds | constraintTokenMint
  | constraintTokenOwner | constraintAssociated | constraintAddress | missingSignature
  deriving DecidableEq, Repr

inductive Error where
  | equium (e : EquiumError)
  | anchor (e : AnchorError)
  /-- the token program refused the transfer -/
  | token
  /-- an arithmetic panic -/
  | panic
  deriving DecidableEq, Repr

inductive Event where
  | equiumInitialized (admin config mint mineableVault : Pubkey) (equihashN equihashK : UInt32)
      (genesisSlot : UInt64) (genesisUnixTs : Int64) (initialTarget genesisChallenge : Bytes32)
  | miningOpened (admin : Pubkey) (fundedAmount openedSlot : UInt64) (openedUnixTs : Int64)
  | blockMined (height : UInt64) (winner : Pubkey) (reward : UInt64)
      (solutionHash newChallenge : Bytes32)
  | blockSkipped (height elapsedSlots : UInt64) (newChallenge : Bytes32)
  | targetSeeded (admin : Pubkey) (prevTarget newTarget : Bytes32)
  | difficultyRetargeted (height actualSeconds : UInt64) (newTarget : Bytes32)
  | rewardHalved (height newReward : UInt64)
  deriving DecidableEq

end Equium.Program
