import Equium.Miner.FullGpu
import Equium.Miner.Packers
import Equium.Website.Check

/-! @src clients/website/src/lib/miner-engine.ts, clients/web-miner/wasm/src/lib.rs |
    name:Full-GPU tier of the website | scheme:agreement with the native race

    One turn of `fullGpuLoop`: the candidates of `WebGPUWagner.runNonce` go through the WASM verifier
    and the browser's own hash check. It submits what the native miner returns. -/

namespace Equium.Website
open Schemes Equium.Core Solver Gpu
open Equium.Miner (compressIndicesInternal firstUnderTarget HasWinner AnyRun anyAttempt RaceWinner
  firstUnderTarget_some winner_iff compressIndices96_5)
open Equium.Program (verifySubmission verifySubmission_ok)

/-! ### A turn of the loop -/

/-- `validate_gpu_solution`, with the panics of its packer; the nonce has 32 bytes. -/
def validateGpuSolution (c : Crates) (n k : UInt32) (input : List UInt8) (nonce : Bytes32)
    (indices : List UInt32) : Option (Option (List UInt8)) :=
  if input.length ≠ iLen ∨ indices.isEmpty then some none
  else do
    let compressed ← compressIndicesInternal n k indices
    if c.isValidSolution n k input nonce compressed then some (some compressed) else some none

/-- The loop over the candidates, up to `submitCandidate`; `none` when the verifier panicked. -/
def candidateLoop (c : Crates) (n k : UInt32) (cfg : EquiumConfig) (inputBlock : List UInt8)
    (nonce : Bytes32) : List (List UInt32) → Option (Option (List UInt8))
  | [] => some none
  | indices :: candidates => do
    match ← validateGpuSolution c n k inputBlock nonce indices with
    | none => candidateLoop c n k cfg inputBlock nonce candidates
    | some compressed =>
      let candHash := c.sha256 (concatBytes compressed inputBlock)
      if !hashUnderTarget candHash cfg.currentTarget then
        candidateLoop c n k cfg inputBlock nonce candidates
      else some (some compressed)

/-- One nonce of `fullGpuLoop`; an error of `runNonce` is logged. -/
def fullGpuTurn (c : Crates) (n k : UInt32) (miner : Bytes32) (cfg : EquiumConfig) (nonce : Bytes32)
    (run : NonceRun) : Option (Option (List UInt8)) :=
  match run.result with
  | .error _ => some none
  | .ok candidates =>
    let inputBlock := buildInputBlock cfg.currentChallenge miner cfg.blockHeight
    candidateLoop c n k cfg inputBlock nonce candidates

/-- What `runNonce` does with one nonce: any order of all its passes, whatever was on the device. -/
def WebGpuRun (input : Vector UInt8 iLen) (nonce : Bytes32) (run : NonceRun) : Prop :=
  ∃ tag mem ws S dev, ws.Perm (WebGpu.leavesPass input nonce (WebGpu.pickWorkgroupSize tag)) ∧
    webGpuWagner.Legal S (store mem ws) dev ∧ run = webGpuWagner.runNonce S (store mem ws) dev

/-! ### The turn against the native loop -/

variable {c : Crates} {base : BaseState} {input : Vector UInt8 iLen} {nonce : Bytes32}
  {run : NonceRun} {cfg : EquiumConfig}

theorem WebGpuRun.refines (hblake : ImplementsBlake2b c) (hb : BaseState.new 96 5 input = .ok base)
    (h : WebGpuRun input nonce run) : run.Refines (nonceLeaf c base nonce) := by
  obtain ⟨tag, mem, ws, S, dev, hp, hS, rfl⟩ := h
  rw [WebGpu.leavesPass_eq] at hp
  exact webGpuWagner_lawful.refines hblake hb (fun a ha => Wgsl.stores_words hp mem ha) hS

/-- On indices the verifier packs and checks as the native miner does. -/
theorem validateGpuSolution_eq {indices : List UInt32} (hne : indices ≠ []) :
    validateGpuSolution c 96 5 input.toList nonce indices =
      some (if c.isValidSolution 96 5 input.toList nonce (compressIndices96_5 indices) then
        some (compressIndices96_5 indices) else none) := by
  have hpack : compressIndicesInternal 96 5 indices = some (compressIndices96_5 indices) :=
    Miner.checkedCompressIndices96_5_eq indices
  have hempty : ¬ (input.toList.length ≠ iLen ∨ indices.isEmpty) := by simp [hne]
  rw [validateGpuSolution, if_neg hempty, hpack]
  simp only [Option.bind_eq_bind, Option.bind_some]
  split_ifs <;> rfl

/-- Both loops stop at the same candidate. -/
theorem candidateLoop_eq {candidates : List (List UInt32)} (hne : ∀ t ∈ candidates, t ≠ []) :
    candidateLoop c 96 5 cfg input.toList nonce candidates =
      some ((firstUnderTarget c input cfg.currentTarget nonce candidates).map
        RaceWinner.solnIndices) := by
  induction candidates with
  | nil => rfl
  | cons t ts ih =>
    have ih := ih fun u hu => hne u (List.mem_cons_of_mem t hu)
    rw [candidateLoop, firstUnderTarget, validateGpuSolution_eq (hne t List.mem_cons_self)]
    simp only [Option.bind_eq_bind, Option.bind_some]
    by_cases hvalid : c.isValidSolution 96 5 input.toList nonce (compressIndices96_5 t) = true
    · have hcheck : hashUnderTarget (c.sha256 (concatBytes (compressIndices96_5 t) input.toList))
          cfg.currentTarget = Core.hashUnderTarget (solutionHash c (compressIndices96_5 t) input)
            cfg.currentTarget := by
        rw [hashUnderTarget_eq, concatBytes_eq, solutionHash]
      simp only [hvalid, hcheck, if_true, Bool.not_true, Bool.false_eq_true, if_false]
      cases Core.hashUnderTarget (solutionHash c (compressIndices96_5 t) input) cfg.currentTarget
      · exact ih
      · rfl
    · simp only [hvalid, Bool.false_eq_true, if_false, Bool.not_false, if_true]
      exact ih

/-- A turn in terms of the native loop. -/
theorem fullGpuTurn_eq {miner : Bytes32} {candidates : List (List UInt32)}
    (hres : run.result = .ok candidates) (hne : ∀ t ∈ candidates, t ≠ []) :
    fullGpuTurn c 96 5 miner cfg nonce run =
      some ((firstUnderTarget c (buildInput cfg.currentChallenge miner cfg.blockHeight)
        cfg.currentTarget nonce candidates).map RaceWinner.solnIndices) := by
  rw [fullGpuTurn, hres]
  dsimp only
  rw [buildInputBlock_eq, candidateLoop_eq hne]

/-- FULL-GPU TURN: for every config, miner and nonce, every order of the GPU's work and whatever is on
    the device, the turn does not panic, and what it submits the program accepts in that round. Where
    nothing overflows it submits exactly when the nonce has a valid solution under the target, as the
    native miner does on either backend. -/
theorem full_gpu_turn (hc : DigestLength c) (hblake : ImplementsBlake2b c) (miner : Bytes32)
    (cfg : EquiumConfig)
    (hb : BaseState.new 96 5 (buildInput cfg.currentChallenge miner cfg.blockHeight) = .ok base)
    (nonce : Bytes32)
    (hv : VerifierSpec c 96 5 (nonceTable hc params96 hb nonce)
      (buildInput cfg.currentChallenge miner cfg.blockHeight) nonce) (run : NonceRun)
    (hrun : WebGpuRun (buildInput cfg.currentChallenge miner cfg.blockHeight) nonce run) :
    let input := buildInput cfg.currentChallenge miner cfg.blockHeight
    let turn := fullGpuTurn c 96 5 miner cfg nonce run
    turn ≠ none ∧
    (∀ compressed, turn = some (some compressed) →
      verifySubmission c 96 5 cfg.currentChallenge miner cfg.blockHeight nonce compressed
        cfg.currentTarget = .ok (solutionHash c compressed input)) ∧
    (run.NoOverflow →
      ((∃ compressed, turn = some (some compressed)) ↔ HasWinner c input cfg.currentTarget nonce) ∧
      ∀ native, AnyRun input nonce native → native.NoOverflow →
        ((∃ compressed, turn = some (some compressed)) ↔
          ∃ w, anyAttempt c input cfg.currentTarget nonce native = .ok (some w))) := by
  intro input turn
  have hrefines := hrun.refines hblake hb
  have hzero := mem_zeroRows fun i (_ : i.toNat < nLeaves) => nonceLeaf_length hc params96 hb nonce i
  have hne : ∀ candidates, run.result = .ok candidates → ∀ t ∈ candidates, t ≠ [] := by
    rintro candidates hres t ht rfl
    have hlen := ((hzero []).mp ((hrefines.sound candidates hres).2 [] ht)).1.length
    cases hlen
  have hturn : ∀ candidates, run.result = .ok candidates →
      turn = some ((firstUnderTarget c input cfg.currentTarget nonce candidates).map
        RaceWinner.solnIndices) := fun candidates hres => fullGpuTurn_eq hres (hne candidates hres)
  have hfailed : ∀ e, run.result = .error e → turn = some none := fun e hres => by
    simp only [turn, fullGpuTurn, hres]
  refine ⟨?_, fun compressed hsub => ?_, fun hno => ?_⟩
  · cases hres : run.result with
    | error e => simp [hfailed e hres]
    | ok candidates => simp [hturn candidates hres]
  · cases hres : run.result with
    | error e =>
      rw [hfailed e hres] at hsub
      cases hsub
    | ok candidates =>
      rw [hturn candidates hres, Option.some.injEq, Option.map_eq_some_iff] at hsub
      obtain ⟨w, hw, rfl⟩ := hsub
      obtain ⟨hnonce, hvalid, hunder⟩ := firstUnderTarget_some hw
      rw [hnonce] at hvalid
      exact (verifySubmission_ok c).mpr ⟨hvalid, rfl, hunder⟩
  · obtain ⟨candidates, hres, hp⟩ := hrefines.complete hno
    have hiff : (∃ compressed, turn = some (some compressed)) ↔
        HasWinner c input cfg.currentTarget nonce := by
      rw [← winner_iff hc hb hv hp, hturn candidates hres, Option.isSome_iff_exists]
      simp [input]
    refine ⟨hiff, fun native hnative hno' => ?_⟩
    obtain ⟨solutions, hres', hp'⟩ := (hnative.refines hblake hb).complete hno'
    rw [hiff, ← winner_iff hc hb hv hp', Option.isSome_iff_exists, anyAttempt, hres']
    simp [input]

open Miner.FullGpuDemo in
/-- One turn on a used device: it does not panic, and the program accepts what it may submit. -/
theorem full_gpu_turn_demo : ∃ run, WebGpuRun (buildInput (Vector.replicate 32 1)
      (Vector.replicate 32 2) 3) (Vector.replicate 32 4) run ∧
    fullGpuTurn crates 96 5 (Vector.replicate 32 2) ⟨3, Vector.replicate 32 1, Vector.replicate 32 8,
      true⟩ (Vector.replicate 32 4) run ≠ none ∧
    ∀ compressed, fullGpuTurn crates 96 5 (Vector.replicate 32 2) ⟨3, Vector.replicate 32 1,
        Vector.replicate 32 8, true⟩ (Vector.replicate 32 4) run = some (some compressed) →
      verifySubmission crates 96 5 (Vector.replicate 32 1) (Vector.replicate 32 2) 3
        (Vector.replicate 32 4) compressed (Vector.replicate 32 8) =
          .ok (Vector.replicate 32 7) := by
  obtain ⟨start, hstart⟩ : ∃ start, BaseState.new 96 5 (buildInput (Vector.replicate 32 1)
      (Vector.replicate 32 2) 3) = .ok start := ⟨_, rfl⟩
  have hrun : WebGpuRun (buildInput (Vector.replicate 32 1) (Vector.replicate 32 2) 3)
      (Vector.replicate 32 4) _ := ⟨"intel arc".toList, fun _ => 9, _, sequential maxRows, usedDevice,
    .refl _, webGpuWagner_lawful.legal_iff.mpr (sequential_legal le_rfl _ _), rfl⟩
  have h := full_gpu_turn digestLength (fun _ _ _ _ _ _ => rfl) (Vector.replicate 32 2)
    ⟨3, Vector.replicate 32 1, Vector.replicate 32 8, true⟩ hstart (Vector.replicate 32 4)
    (verifier_spec hstart _) _ hrun
  exact ⟨_, hrun, h.1, h.2.1⟩

end Equium.Website
