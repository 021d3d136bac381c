import Equium.Core.Target
import Equium.Program.Round

/-! @src clients/website/src/lib/miner-engine.ts, program.ts | name:Off-chain check

    The browser rebuilds the input block and compares a candidate's hash with the target before it
    submits, and decides as the program does (`offChain_iff_onChain`). SHA-256 is the one of
    `Crates`. -/

namespace Equium.Website
open Schemes Equium.Core
open Equium.Program (verifySubmission)

/-- The fields of the on-chain config the miner reads. -/
structure EquiumConfig where
  blockHeight : UInt64
  currentChallenge : Bytes32
  currentTarget : Bytes32
  miningOpen : Bool
  deriving DecidableEq

/-- `Uint8Array.prototype.set`, inside the array's bounds. -/
def setBytes (out src : List UInt8) (offset : ℕ) : List UInt8 :=
  out.take offset ++ src ++ out.drop (offset + src.length)

/-- The 81 bytes of `I`, written field by field into a zeroed array. -/
def buildInputBlock (challenge miner : Bytes32) (height : UInt64) : List UInt8 :=
  let out := List.replicate 81 0
  let out := setBytes out personalization.toList 0
  let out := setBytes out challenge.toList 9
  let out := setBytes out miner.toList 41
  setBytes out (toLe64 height).toList 73

/-- `concatBytes`. -/
def concatBytes (a b : List UInt8) : List UInt8 :=
  setBytes (setBytes (List.replicate (a.length + b.length) 0) a 0) b a.length

/-- The loop of `hashUnderTarget`: the first byte that differs decides. -/
def underLoop : List (UInt8 × UInt8) → Bool
  | [] => false
  | (h, t) :: rest => if h < t then true else if h > t then false else underLoop rest

/-- `hash < target` as big-endian numbers. -/
def hashUnderTarget (hash target : Bytes32) : Bool :=
  underLoop (hash.toList.zip target.toList)

/-- The target check of the reply handler. -/
def aboveTarget (c : Crates) (miner : Bytes32) (cfg : EquiumConfig) (solnIndices : List UInt8) :
    Bool :=
  let inputBlock := buildInputBlock cfg.currentChallenge miner cfg.blockHeight
  !hashUnderTarget (c.sha256 (concatBytes solnIndices inputBlock)) cfg.currentTarget

/-! ### The browser against the program -/

/-- Writing where an array is still zero appends to what is written. -/
theorem setBytes_fill (written src : List UInt8) (n : ℕ) :
    setBytes (written ++ List.replicate n 0) src written.length =
      written ++ src ++ List.replicate (n - src.length) 0 := by
  rw [setBytes, List.take_left, List.drop_append, List.drop_of_length_le (by omega),
    List.nil_append, List.drop_replicate, Nat.add_sub_cancel_left]

theorem concatBytes_eq (a b : List UInt8) : concatBytes a b = a ++ b := by
  have ha := setBytes_fill [] a (a.length + b.length)
  have hb := setBytes_fill a b b.length
  rw [List.nil_append, List.length_nil, List.nil_append, Nat.add_sub_cancel_left] at ha
  rw [concatBytes, ha, hb, Nat.sub_self, List.replicate_zero, List.append_nil]

/-- Both languages lay out the same block. -/
theorem buildInputBlock_eq (challenge miner : Bytes32) (height : UInt64) :
    buildInputBlock challenge miner height = (buildInput challenge miner height).toList := by
  have hc : challenge.toList.length = 32 := Vector.length_toList ..
  have hm : miner.toList.length = 32 := Vector.length_toList ..
  have hh : (toLe64 height).toList.length = 8 := Vector.length_toList ..
  have hp : personalization.toList.length = 9 := rfl
  have h₁ := setBytes_fill [] personalization.toList 81
  have h₂ := setBytes_fill personalization.toList challenge.toList 72
  have h₃ := setBytes_fill (personalization.toList ++ challenge.toList) miner.toList 40
  have h₄ := setBytes_fill (personalization.toList ++ challenge.toList ++ miner.toList)
    (toLe64 height).toList 8
  simp only [List.nil_append, List.length_nil, List.length_append, hp, hc, hm, hh, Nat.reduceAdd,
    Nat.reduceSub] at h₁ h₂ h₃ h₄
  simp only [buildInputBlock, h₁, h₂, h₃, h₄, buildInput, Vector.toList_append,
    List.replicate_zero, List.append_nil]

theorem underLoop_zip (hs ts : List UInt8) : underLoop (hs.zip ts) = bytesUnder hs ts := by
  induction hs generalizing ts with
  | nil => cases ts <;> rfl
  | cons h hs ih =>
    cases ts with
    | nil => rfl
    | cons t ts => rw [List.zip_cons_cons, underLoop, bytesUnder, ih]

theorem hashUnderTarget_eq (hash target : Bytes32) :
    hashUnderTarget hash target = Core.hashUnderTarget hash target := underLoop_zip ..

/-- What the browser rejects. -/
theorem aboveTarget_eq (c : Crates) (miner : Bytes32) (cfg : EquiumConfig)
    (solnIndices : List UInt8) : aboveTarget c miner cfg solnIndices =
      !Core.hashUnderTarget (solutionHash c solnIndices
        (buildInput cfg.currentChallenge miner cfg.blockHeight)) cfg.currentTarget := by
  rw [aboveTarget, hashUnderTarget_eq, concatBytes_eq, buildInputBlock_eq, solutionHash]

/-- AGREES: on a valid Equihash solution the browser and the program take the same decision, and it
    is the numeric one. -/
theorem offChain_iff_onChain (c : Crates) (n k : UInt32) (miner nonce : Bytes32)
    (cfg : EquiumConfig) (solnIndices : List UInt8)
    (hvalid : c.isValidSolution n k
      (buildInput cfg.currentChallenge miner cfg.blockHeight).toList nonce solnIndices = true) :
    let h := c.sha256 (solnIndices ++
      (buildInput cfg.currentChallenge miner cfg.blockHeight).toList)
    let submission := verifySubmission c n k cfg.currentChallenge miner cfg.blockHeight nonce
      solnIndices cfg.currentTarget
    (aboveTarget c miner cfg solnIndices = false ↔ submission = .ok h) ∧
      (aboveTarget c miner cfg solnIndices = true ↔
        submission = .error (.equium .aboveTarget)) ∧
      (aboveTarget c miner cfg solnIndices = false ↔
        ofBe h.toList < ofBe cfg.currentTarget.toList) := by
  intro h submission
  have hnum : Core.hashUnderTarget h cfg.currentTarget = true ↔
      ofBe h.toList < ofBe cfg.currentTarget.toList := hashUnderTarget_iff h cfg.currentTarget
  have habove : aboveTarget c miner cfg solnIndices = !Core.hashUnderTarget h cfg.currentTarget :=
    aboveTarget_eq c miner cfg solnIndices
  have hsub : submission = if Core.hashUnderTarget h cfg.currentTarget = true then .ok h
      else .error (.equium .aboveTarget) := by
    have hh : solutionHash c solnIndices
        (buildInput cfg.currentChallenge miner cfg.blockHeight) = h := rfl
    simp only [submission, verifySubmission, verify, hvalid, if_true, hh]
    split_ifs <;> rfl
  rw [habove, hsub, ← hnum]
  cases Core.hashUnderTarget h cfg.currentTarget <;> simp

/-- A hash of sevens is under a target that starts with eight. -/
theorem offChain_iff_onChain_demo :
    aboveTarget ⟨fun _ => Vector.replicate 32 7, fun _ _ _ _ _ => true, fun n _ _ => .replicate n 0⟩
      (Vector.replicate 32 1)
      ⟨5, Vector.replicate 32 2, #v[(8 : UInt8)] ++ Vector.replicate 31 (0 : UInt8), true⟩ [3] =
      false :=
  (offChain_iff_onChain _ 96 5 _ (Vector.replicate 32 0) _ _ rfl).2.2.mpr (by decide +kernel)

end Equium.Website
