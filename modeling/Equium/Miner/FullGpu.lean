import Equium.Gpu.PortRefinement
import Equium.Miner.Attempts

/-! @src clients/gpu-miner/src/main.rs | name:Full-GPU race | scheme:refinement

    `race_for_solution_full_gpu` over either backend: nonce after nonce through `run_nonce`, every
    candidate packed, verified and hashed. Whatever a nonce leaves on the device, the race returns at
    the first nonce with a winning solution. -/

namespace Equium.Miner
open Schemes Equium.Core Solver Gpu

/-! ### The race -/

/-- One nonce through `AnyWagner::run_nonce`. -/
def anyAttempt (c : Crates) (input : Vector UInt8 iLen) (target nonce : Bytes32) (run : NonceRun) :
    Except String (Option RaceWinner) :=
  match run.result with
  | .error e => .error e
  | .ok solutions => .ok (firstUnderTarget c input target nonce solutions)

/-- The loop of `race_for_solution_full_gpu`, `remaining` nonces from the one after `tried` on. -/
def raceForSolutionFullGpu (attempt : ℕ → Except String (Option RaceWinner)) :
    ℕ → ℕ → Except String (Option (RaceWinner × ℕ))
  | 0, _ => .ok none
  | remaining + 1, tried =>
    match attempt tried with
    | .error e => .error e
    | .ok (some winner) => .ok (some (winner, tried + 1))
    | .ok none => raceForSolutionFullGpu attempt remaining (tried + 1)

/-- What the port does with one nonce: any order of all its passes, whatever was on the device. -/
def CudaRun (input : Vector UInt8 iLen) (nonce : Bytes32) (run : NonceRun) : Prop :=
  ∃ mem ws S dev, ws.Perm (Cuda.generate input nonce (UInt32.ofNat nLeaves)) ∧
    cudaWagner.Legal S (Cuda.leafWords (store mem ws)) dev ∧
    run = cudaWagner.runNonce S (Cuda.leafWords (store mem ws)) dev

/-- The same for `GpuWagner`, on leaves of the shader for any vendor's workgroups. -/
def WgpuRun (input : Vector UInt8 iLen) (nonce : Bytes32) (run : NonceRun) : Prop :=
  ∃ vendor mem ws S dev, ws.Perm (Wgsl.dispatch input nonce (UInt32.ofNat nLeaves)
      (GpuLeafGen.pickWorkgroupSize vendor)) ∧
    gpuWagner.Legal S (store mem ws) dev ∧ run = gpuWagner.runNonce S (store mem ws) dev

/-- `AnyWagner` holds one of the two. -/
def AnyRun (input : Vector UInt8 iLen) (nonce : Bytes32) (run : NonceRun) : Prop :=
  CudaRun input nonce run ∨ WgpuRun input nonce run

/-! ### One nonce -/

variable {c : Crates} {base : BaseState} {input : Vector UInt8 iLen} {target nonce : Bytes32}
  {run : NonceRun}

/-- Where nothing overflows, the candidates contain a winner when the nonce has one. -/
theorem winner_iff (hc : DigestLength c) (hb : BaseState.new 96 5 input = .ok base)
    (hv : VerifierSpec c 96 5 (nonceTable hc params96 hb nonce) input nonce)
    {solutions : List (List UInt32)} (hp : solutions.Perm (zeroRows (nonceLeaf c base nonce))) :
    (firstUnderTarget c input target nonce solutions).isSome ↔
      HasWinner c input target nonce := by
  have hzero := mem_zeroRows fun i (_ : i.toNat < nLeaves) => nonceLeaf_length hc params96 hb nonce i
  rw [firstUnderTarget_isSome]
  constructor
  · rintro ⟨t, -, hvalid, hunder⟩
    exact ⟨_, hvalid, hunder⟩
  · rintro ⟨soln, hvalid, hunder⟩
    obtain ⟨t, ht, rfl⟩ := (hv soln).mp hvalid
    exact ⟨t, hp.mem_iff.mpr ((hzero t).mpr ht), hvalid, hunder⟩

/-- What one nonce comes to on either backend. -/
theorem AnyRun.refines (hblake : ImplementsBlake2b c) (hb : BaseState.new 96 5 input = .ok base)
    (h : AnyRun input nonce run) : run.Refines (nonceLeaf c base nonce) := by
  obtain ⟨mem, ws, S, dev, hp, hS, rfl⟩ | ⟨vendor, mem, ws, S, dev, hp, hS, rfl⟩ := h
  · exact cudaWagner_lawful.refines hblake hb (fun a ha => Cuda.leafWords_eq hp mem ha) hS
  · rw [Wgsl.picked_dispatch] at hp
    exact gpuWagner_lawful.refines hblake hb (fun a ha => Wgsl.stores_words hp mem ha) hS

/-! ### The loop over the nonces -/

section
variable {attempt : ℕ → Except String (Option RaceWinner)}

theorem race_winner {remaining tried n : ℕ} {w : RaceWinner}
    (h : raceForSolutionFullGpu attempt remaining tried = .ok (some (w, n))) :
    tried < n ∧ n ≤ tried + remaining ∧ attempt (n - 1) = .ok (some w) ∧
      ∀ k, tried ≤ k → k + 1 < n → attempt k = .ok none := by
  induction remaining generalizing tried with
  | zero => cases h
  | succ remaining ih =>
    rw [raceForSolutionFullGpu] at h
    cases hat : attempt tried with
    | error e =>
      rw [hat] at h
      cases h
    | ok found =>
      rw [hat] at h
      cases found with
      | some winner =>
        obtain ⟨rfl, rfl⟩ : winner = w ∧ tried + 1 = n := by simpa using h
        exact ⟨by omega, by omega, hat, fun k hk hlt => absurd hlt (by omega)⟩
      | none =>
        obtain ⟨hlt, hle, hwin, hnone⟩ := ih h
        refine ⟨by omega, by omega, hwin, fun k hk hkn => ?_⟩
        obtain rfl | hk := Nat.eq_or_lt_of_le hk
        · exact hat
        · exact hnone k hk hkn

theorem race_none {remaining tried : ℕ} :
    raceForSolutionFullGpu attempt remaining tried = .ok none ↔
      ∀ k, tried ≤ k → k < tried + remaining → attempt k = .ok none := by
  induction remaining generalizing tried with
  | zero => exact ⟨fun _ k hk hlt => absurd hlt (by omega), fun _ => rfl⟩
  | succ remaining ih =>
    have hsplit : (∀ k, tried ≤ k → k < tried + (remaining + 1) → attempt k = .ok none) ↔
        attempt tried = .ok none ∧
          ∀ k, tried + 1 ≤ k → k < tried + 1 + remaining → attempt k = .ok none := by
      constructor
      · exact fun h => ⟨h tried le_rfl (by omega), fun k hk hlt => h k (by omega) (by omega)⟩
      · rintro ⟨hfirst, hrest⟩ k hk hlt
        obtain rfl | hk := Nat.eq_or_lt_of_le hk
        · exact hfirst
        · exact hrest k hk (by omega)
    rw [hsplit, ← ih, raceForSolutionFullGpu]
    rcases attempt tried with e | (_ | winner) <;> simp

/-- An error of the race is an error of a nonce. -/
theorem race_error {remaining tried : ℕ} {e : String}
    (h : raceForSolutionFullGpu attempt remaining tried = .error e) :
    ∃ k, tried ≤ k ∧ k < tried + remaining ∧ attempt k = .error e := by
  induction remaining generalizing tried with
  | zero => cases h
  | succ remaining ih =>
    rw [raceForSolutionFullGpu] at h
    cases hat : attempt tried with
    | error e' =>
      rw [hat] at h
      obtain rfl := Except.error.inj h
      exact ⟨tried, le_rfl, by omega, hat⟩
    | ok found =>
      rw [hat] at h
      cases found with
      | some winner => cases h
      | none =>
        obtain ⟨k, hk, hlt, hke⟩ := ih h
        exact ⟨k, by omega, by omega, hke⟩

end

/-! ### The first winning nonce -/

/-- FULL-GPU RACE: on either backend, for every order of the GPU's work in every nonce and whatever
    each leaves behind, a winner that is returned passes the program's check for its nonce. Where
    nothing overflows the race returns at the first nonce with a valid solution under the target,
    without one exactly when no nonce it may try has any, and never fails. -/
theorem full_gpu_race (hc : DigestLength c) (hblake : ImplementsBlake2b c)
    (hb : BaseState.new 96 5 input = .ok base) (target : Bytes32) (nonces : ℕ → Bytes32)
    (hv : ∀ k, VerifierSpec c 96 5 (nonceTable hc params96 hb (nonces k)) input (nonces k))
    (runs : ℕ → NonceRun) (hruns : ∀ k, AnyRun input (nonces k) (runs k)) (maxAttempts : ℕ) :
    let race := raceForSolutionFullGpu
      (fun k => anyAttempt c input target (nonces k) (runs k)) maxAttempts 0
    (∀ w tried, race = .ok (some (w, tried)) → 0 < tried ∧ tried ≤ maxAttempts ∧
      w.nonce = nonces (tried - 1) ∧
      verify c 96 5 input w.nonce w.solnIndices target = .ok (solutionHash c w.solnIndices input)) ∧
    ((∀ k < maxAttempts, (runs k).NoOverflow) →
      (∀ w tried, race = .ok (some (w, tried)) →
        ∀ k, k + 1 < tried → ¬ HasWinner c input target (nonces k)) ∧
      (race = .ok none ↔ ∀ k < maxAttempts, ¬ HasWinner c input target (nonces k)) ∧
      ∀ e, race ≠ .error e) := by
  intro race
  have hok : (∀ k < maxAttempts, (runs k).NoOverflow) → ∀ k < maxAttempts, ∃ found,
      anyAttempt c input target (nonces k) (runs k) = .ok found ∧
        (found = none ↔ ¬ HasWinner c input target (nonces k)) := by
    intro hno k hk
    obtain ⟨solutions, hres, hp⟩ := ((hruns k).refines hblake hb).complete (hno k hk)
    refine ⟨_, by rw [anyAttempt, hres], ?_⟩
    rw [← winner_iff hc hb (hv k) hp, Option.not_isSome_iff_eq_none]
  refine ⟨fun w tried hrace => ?_, fun hno => ⟨fun w tried hrace k hk hwin => ?_, ?_, fun e hrace => ?_⟩⟩
  · obtain ⟨hpos, hle, hat, -⟩ := race_winner hrace
    rw [anyAttempt] at hat
    cases hres : (runs (tried - 1)).result with
    | error e =>
      rw [hres] at hat
      cases hat
    | ok solutions =>
      rw [hres] at hat
      obtain ⟨hnonce, hvalid, hunder⟩ := firstUnderTarget_some (Except.ok.inj hat)
      refine ⟨hpos, by omega, hnonce, ?_⟩
      rw [verify, if_pos hvalid]
      simp only [hunder, if_true]
  · obtain ⟨-, hle, -, hnone⟩ := race_winner hrace
    obtain ⟨found, hfound, hiff⟩ := hok hno k (by omega)
    rw [hnone k (Nat.zero_le k) hk] at hfound
    exact hiff.mp (Except.ok.inj hfound).symm hwin
  · rw [race_none]
    constructor
    · intro h k hk
      obtain ⟨found, hfound, hiff⟩ := hok hno k hk
      rw [h k (Nat.zero_le k) (by omega)] at hfound
      exact hiff.mp (Except.ok.inj hfound).symm
    · intro h k _ hk
      obtain ⟨found, hfound, hiff⟩ := hok hno k (by omega)
      rw [hfound, hiff.mpr (h k (by omega))]
  · obtain ⟨k, -, hk, hke⟩ := race_error hrace
    obtain ⟨found, hfound, -⟩ := hok hno k (by omega)
    rw [hfound] at hke
    cases hke

/-! ### A race -/

namespace FullGpuDemo

/-- A verifier that runs the rounds over the leaves of the block it is given. -/
def verifier (_ _ : UInt32) (block : List UInt8) (nonce : Bytes32) (soln : List UInt8) : Bool :=
  if h : block.toArray.size = iLen then
    (zeroRows (blakeLeaf ⟨block.toArray, h⟩ nonce)).any fun t => compressIndices 96 5 t == soln
  else false

def crates : Crates := ⟨fun _ => Vector.replicate 32 7, verifier, Blake2b.digest⟩

theorem digestLength : DigestLength crates := fun len personal data hlen => by
  have hwords : ∀ w ∈ (Blake2b.absorb (Blake2b.initial len personal) 0 data).toList,
      (bytes8 w).length = 8 := fun w _ => by simp
  change (Blake2b.digest len personal data).length = len
  rw [Blake2b.digest, List.length_take, List.length_flatMap, List.map_congr_left hwords]
  simp
  omega

theorem verifier_spec {block : Vector UInt8 iLen} {start : BaseState}
    (hstart : BaseState.new 96 5 block = .ok start) (nonce : Bytes32) :
    VerifierSpec crates 96 5 (nonceTable digestLength params96 hstart nonce) block nonce := by
  intro soln
  have hzero := mem_zeroRows fun i (_ : i.toNat < nLeaves) =>
    nonceLeaf_length digestLength params96 hstart nonce i
  have hleaf : nonceLeaf crates start nonce = blakeLeaf block nonce :=
    nonceLeaf_eq (fun _ _ _ _ _ _ => rfl) hstart
  have hsize : block.toList.toArray.size = iLen := by simp
  have hverifier : verifier 96 5 block.toList nonce soln =
      (zeroRows (nonceLeaf crates start nonce)).any fun t => compressIndices 96 5 t == soln := by
    rw [hleaf, verifier, dif_pos hsize]
    rfl
  change verifier 96 5 block.toList nonce soln = true ↔ _
  rw [hverifier, List.any_eq_true]
  constructor
  · rintro ⟨t, ht, heq⟩
    exact ⟨t, (hzero t).mp ht, (beq_iff_eq.mp heq).symm⟩
  · rintro ⟨t, ht, rfl⟩
    exact ⟨t, (hzero t).mpr ht, beq_self_eq_true _⟩

/-- The passes of every nonce in sequential order, on a used device. -/
def sequentialRun (block : Vector UInt8 iLen) (nonce : Bytes32) : NonceRun :=
  cudaWagner.runNonce (sequential maxRows) (Cuda.leafWords (store (fun _ => 9)
    (Cuda.generate block nonce (UInt32.ofNat nLeaves)))) usedDevice

theorem sequentialRun_cuda (block : Vector UInt8 iLen) (nonce : Bytes32) :
    CudaRun block nonce (sequentialRun block nonce) :=
  ⟨_, _, _, _, .refl _, cudaWagner_lawful.legal_iff.mpr (sequential_legal le_rfl _ _), rfl⟩

end FullGpuDemo

open FullGpuDemo in
/-- One attempt at one nonce: the winner it may return passes the check. -/
theorem full_gpu_race_demo :
    AnyRun (Vector.replicate iLen 1) (Vector.replicate 32 2)
      (sequentialRun (Vector.replicate iLen 1) (Vector.replicate 32 2)) ∧
    ∀ w tried, raceForSolutionFullGpu
        (fun _ => anyAttempt crates (Vector.replicate iLen 1) (Vector.replicate 32 8)
          (Vector.replicate 32 2) (sequentialRun (Vector.replicate iLen 1)
            (Vector.replicate 32 2))) 1 0 = .ok (some (w, tried)) → tried = 1 ∧
      verify crates 96 5 (Vector.replicate iLen 1) (Vector.replicate 32 2) w.solnIndices
        (Vector.replicate 32 8) = .ok (Vector.replicate 32 7) := by
  have hrun : AnyRun (Vector.replicate iLen 1) (Vector.replicate 32 2) _ :=
    .inl (sequentialRun_cuda _ _)
  obtain ⟨start, hstart⟩ : ∃ start, BaseState.new 96 5 (Vector.replicate iLen 1) = .ok start :=
    ⟨_, rfl⟩
  refine ⟨hrun, fun w tried hrace => ?_⟩
  obtain ⟨hpos, hle, hnonce, hverify⟩ := (full_gpu_race digestLength (fun _ _ _ _ _ _ => rfl) hstart
    (Vector.replicate 32 8) (fun _ => Vector.replicate 32 2)
    (fun _ => verifier_spec hstart (Vector.replicate 32 2)) _ (fun _ => hrun) 1).1 w tried hrace
  rw [hnonce] at hverify
  exact ⟨by omega, hverify⟩

end Equium.Miner
