import Equium.Schemes.Machine

/-! @src crates/equihash-core/src/challenge.rs, target.rs, verify.rs | name:Equihash core

    What the program and every miner share: the 81-byte input block `I`, the challenge chain, the
    difficulty comparison and its rescaling, and the verifier wrapper. SHA-256 and the Equihash
    verifier are third-party crates and stay parameters (`Crates`). -/

namespace Equium.Core
open Schemes

/-- `[u8; 32]`: hashes, keys, nonces and big-endian targets. -/
abbrev Bytes32 := Vector UInt8 32

/-- The third-party functions the repository calls. -/
structure Crates where
  /-- `sha2::Sha256` over the concatenation of the updates. -/
  sha256 : List UInt8 → Bytes32
  /-- `equihash::is_valid_solution(n, k, input, nonce, soln).is_ok()`. -/
  isValidSolution : UInt32 → UInt32 → List UInt8 → Bytes32 → List UInt8 → Bool
  /-- `blake2b_simd` with a digest length, a personalisation and the concatenated updates. -/
  blake2b : ℕ → List UInt8 → List UInt8 → List UInt8

/-! ### challenge.rs -/

/-- `b"Equium-v1"`. -/
def personalization : Vector UInt8 9 := #v[69, 113, 117, 105, 117, 109, 45, 118, 49]

/-- Length of the input block: 9 + 32 + 32 + 8. -/
abbrev iLen : ℕ := 9 + 32 + 32 + 8

/-- The Equihash input block `I`, bound to one miner and one round. -/
def buildInput (currentChallenge minerPubkey : Bytes32) (blockHeight : UInt64) :
    Vector UInt8 iLen :=
  personalization ++ currentChallenge ++ minerPubkey ++ toLe64 blockHeight

/-- `sha256(prev_challenge || winner_pubkey || open_slot_hash)`. -/
def deriveNextChallenge (c : Crates) (prevChallenge winnerPubkey openSlotHash : Bytes32) :
    Bytes32 :=
  c.sha256 (prevChallenge.toList ++ winnerPubkey.toList ++ openSlotHash.toList)

/-- `sha256(soln_indices || input)`, compared against the target. -/
def solutionHash (c : Crates) (solnIndices : List UInt8) (input : Vector UInt8 iLen) : Bytes32 :=
  c.sha256 (solnIndices ++ input.toList)

/-- The hand-laid layout loses nothing: equal blocks have equal challenge, miner and height. -/
theorem buildInput_inj {c c' m m' : Bytes32} {h h' : UInt64}
    (he : buildInput c m h = buildInput c' m' h') : c = c' ∧ m = m' ∧ h = h' := by
  obtain ⟨hpre, hh⟩ := Vector.append_inj he
  obtain ⟨hpre, hm⟩ := Vector.append_inj hpre
  obtain ⟨-, hc⟩ := Vector.append_inj hpre
  exact ⟨hc, hm, toLe64_inj hh⟩

/-! ### target.rs -/

/-- The byte loop of `hash_under_target`: the first differing byte decides. -/
def bytesUnder : List UInt8 → List UInt8 → Bool
  | h :: hs, t :: ts => if h < t then true else if h > t then false else bytesUnder hs ts
  | _, _ => false

/-- `hash < target` as 256-bit big-endian numbers. -/
def hashUnderTarget (hash target : Bytes32) : Bool := bytesUnder hash.toList target.toList

/-- An unsigned 128-bit result; the build panics on overflow (`overflow-checks = true`). -/
def u128 (x : ℕ) : Option ℕ := if x < 2 ^ 128 then some x else none

/-- Big-endian limb `i` (most significant first) of a target. -/
def limb (old : Bytes32) (i : ℕ) : ℕ := ofBe ((old.toList.drop (8 * i)).take 8)

/-- `u64::to_be_bytes`. -/
def toBe64 (x : ℕ) : List UInt8 := (leBytes 8 x).reverse

/-- `[0xFF; 32]`, the easiest target. -/
def maxTarget : Bytes32 := Vector.replicate 32 255

/-- The long division of `scale_target`, most significant limb first: `cur = (rem << 64) | limb`,
    where the shift drops bits above 128, and the quotient digit is cast to `u64`. -/
def divLimbs (d : ℕ) : ℕ → List ℕ → List ℕ
  | _, [] => []
  | rem, a :: as =>
    let cur := (rem * 2 ^ 64 % 2 ^ 128) ||| a
    cur / d % 2 ^ 64 :: divLimbs d (cur % d) as

/-- The carry loop `for i in (1..5).rev()`: limbs and the carry out of the head, low end first. -/
def carryLimbs : List ℕ → Option (List ℕ × ℕ)
  | [] => some ([], 0)
  | a :: as => do
    let (as', carry) ← carryLimbs as
    let a' ← u128 (a + carry)
    pure (a' % 2 ^ 64 :: as', a' / 2 ^ 64)

/-- `new = old * num / den` on 256 bits, saturating; `none` is an arithmetic panic. -/
def scaleTarget (old : Bytes32) (num den : UInt64) : Option Bytes32 :=
  if num = den then some old else do
    let n := num.toNat
    let d := den.toNat
    let p0 ← u128 (limb old 0 * n)
    let p1 ← u128 (limb old 1 * n)
    let p2 ← u128 (limb old 2 * n)
    let p3 ← u128 (limb old 3 * n)
    let acc1 ← u128 (p0 % 2 ^ 64 + p1 / 2 ^ 64)
    let acc2 ← u128 (p1 % 2 ^ 64 + p2 / 2 ^ 64)
    let acc3 ← u128 (p2 % 2 ^ 64 + p3 / 2 ^ 64)
    let (low, carry) ← carryLimbs [acc1, acc2, acc3, p3 % 2 ^ 64]
    let acc0 ← u128 (p0 / 2 ^ 64 + carry)
    let bound ← u128 (d * 2 ^ 64)
    -- more than 256 bits: the easiest target
    if bound ≤ acc0 then some maxTarget else
      match divLimbs d 0 (acc0 :: low) with
      | [q0, q1, q2, q3, q4] =>
        if q0 ≠ 0 then some maxTarget
        else some ⟨(toBe64 q1 ++ toBe64 q2 ++ toBe64 q3 ++ toBe64 q4).toArray, by simp [toBe64]⟩
      | _ => none

/-! ### verify.rs -/

inductive VerifyError where
  | invalidEquihash
  | aboveTarget
  deriving DecidableEq, Repr

/-- Full verification: Equihash puzzle, then difficulty; returns the solution hash. -/
def verify (c : Crates) (n k : UInt32) (input : Vector UInt8 iLen) (nonce : Bytes32)
    (solnIndices : List UInt8) (target : Bytes32) : Except VerifyError Bytes32 :=
  if c.isValidSolution n k input.toList nonce solnIndices then
    let h := solutionHash c solnIndices input
    if hashUnderTarget h target then .ok h else .error .aboveTarget
  else .error .invalidEquihash

end Equium.Core
