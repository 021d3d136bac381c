import Equium.Gpu.Refinement
import Equium.Miner.Race
import Equium.Solver.RowOrder

/-! @src clients/cli-miner/src/main.rs, clients/gpu-miner/src/main.rs | name:nonce attempts |
    scheme:two scans of one set of solutions

    What one nonce yields on each of the three paths. The CPU and the hybrid worker take the first
    valid solution of the nonce and then look at its hash; the full-GPU loop looks at the hash of
    every candidate. The leaf kernel and the driver behind it are the parameter `Backend`. -/

namespace Equium.Miner
open Schemes Equium.Core Solver Gpu

/-- `EQUIHASH_N`. -/
def equihashN : UInt32 := 96

/-- `EQUIHASH_K`. -/
def equihashK : UInt32 := 5

/-- The GPU backend the probe picked: `LeafGen::generate` into the worker's buffer, and the words that
    the leaf pass of `run_nonce` leaves in the device's buffer. -/
structure Backend where
  generate : Vector UInt8 iLen → Bytes32 → Except String (List UInt8)
  leavesPass : Vector UInt8 iLen → Bytes32 → ℕ → UInt32

/-- On this nonce the backend generates the given leaves. -/
structure Backend.SameLeaves (g : Backend) (leaf : UInt32 → List UInt8) (input : Vector UInt8 iLen)
    (nonce : Bytes32) : Prop where
  generate : g.generate input nonce = .ok (leafTableBytes leaf)
  leavesPass : ∀ a < 3 * nLeaves, g.leavesPass input nonce a = packLeaves leaf a

/-! ### One nonce on each path -/

/-- `solution_hash`, then `hash_under_target`. -/
def submission (c : Crates) (input : Vector UInt8 iLen) (target nonce : Bytes32)
    (soln : List UInt8) : Option RaceWinner :=
  let h := solutionHash c soln input
  if hashUnderTarget h target then some ⟨nonce, soln⟩ else none

/-- One nonce of a worker of `race_for_solution`. -/
def cpuAttempt (c : Crates) (base : BaseState) (input : Vector UInt8 iLen)
    (target nonce : Bytes32) : Option RaceWinner :=
  match tryNonce c base input nonce with
  | some soln => submission c input target nonce soln
  | none => none

/-- One nonce of a worker of `race_for_solution_gpu`; a failed dispatch skips the nonce. -/
def hybridAttempt (c : Crates) (g : Backend) (input : Vector UInt8 iLen) (target nonce : Bytes32) :
    Option RaceWinner :=
  match g.generate input nonce with
  | .error _ => none
  | .ok leaves =>
    match tryNonceWithLeaves c equihashN equihashK input nonce leaves with
    | some soln => submission c input target nonce soln
    | none => none

/-- `compress_indices_96_5`, the full-GPU loop's own packing. -/
def compressIndices96_5 (indices : List UInt32) : List UInt8 :=
  let bitsPer := 17
  let bits := indices.flatMap fun idx =>
    (List.range bitsPer).reverse.map fun b => (idx >>> UInt32.ofNat b) &&& 1
  bits.zipIdx.foldl (fun out p => setBit out p.2 p.1)
    (List.replicate (divCeil8 (bitsPer * indices.length)) 0)

/-- The loop over the candidates of one nonce. -/
def firstUnderTarget (c : Crates) (input : Vector UInt8 iLen) (target nonce : Bytes32) :
    List (List UInt32) → Option RaceWinner
  | [] => none
  | indices :: solutions =>
    let compressed := compressIndices96_5 indices
    if !c.isValidSolution 96 5 input.toList nonce compressed then
      firstUnderTarget c input target nonce solutions
    else
      let h := solutionHash c compressed input
      if hashUnderTarget h target then some ⟨nonce, compressed⟩
      else firstUnderTarget c input target nonce solutions

/-- One nonce of `race_for_solution_full_gpu`; an error of `run_nonce` ends the call. -/
def fullGpuAttempt (c : Crates) (g : Backend) (S : Schedule) (dev : Device)
    (input : Vector UInt8 iLen) (target nonce : Bytes32) : Except String (Option RaceWinner) :=
  match (runNonce S (g.leavesPass input nonce) dev).result with
  | .error e => .error e
  | .ok solutions => .ok (firstUnderTarget c input target nonce solutions)

/-! ### The races these are the attempts of -/

/-- The CPU race over the nonces its workers draw. -/
def cpuRace (c : Crates) (base : BaseState) (input : Vector UInt8 iLen) (target : Bytes32)
    (threads : ℕ) (maxPerThread : UInt64) (nonces : ℕ → ℕ → Bytes32) : Race :=
  ⟨threads, maxPerThread, fun t k => cpuAttempt c base input target (nonces t k)⟩

/-- The hybrid race over the nonces its workers draw. -/
def hybridRace (c : Crates) (g : Backend) (input : Vector UInt8 iLen) (target : Bytes32)
    (threads : ℕ) (maxPerThread : UInt64) (nonces : ℕ → ℕ → Bytes32) : Race :=
  ⟨threads, maxPerThread, fun t k => hybridAttempt c g input target (nonces t k)⟩

/-! ### What is compared -/

/-- The packed solution of these indices hashes under the target. -/
def Under (c : Crates) (input : Vector UInt8 iLen) (target : Bytes32) (t : List UInt32) : Prop :=
  hashUnderTarget (solutionHash c (compressIndices 96 5 t) input) target = true

instance (c : Crates) (input : Vector UInt8 iLen) (target : Bytes32) (t : List UInt32) :
    Decidable (Under c input target t) := inferInstanceAs (Decidable (_ = true))

/-- Some valid solution of the nonce hashes under the target. -/
def HasWinner (c : Crates) (input : Vector UInt8 iLen) (target nonce : Bytes32) : Prop :=
  ∃ soln, c.isValidSolution 96 5 input.toList nonce soln = true ∧
    hashUnderTarget (solutionHash c soln input) target = true

/-- The full-GPU loop reports a winner. -/
def FullGpuReports (c : Crates) (g : Backend) (S : Schedule) (dev : Device)
    (input : Vector UInt8 iLen) (target nonce : Bytes32) : Prop :=
  ∃ w, fullGpuAttempt c g S dev input target nonce = .ok (some w)

/-- A nonce on which everything around the three paths does what they rely on: the digest is as long
    as asked for, the verifier accepts exactly the packed solutions, the backend generates the nonce's
    leaves, and the GPU runs its passes in some complete order and overflows nothing. -/
structure Nominal (c : Crates) (base : BaseState) (g : Backend) (S : Schedule) (dev : Device)
    (input : Vector UInt8 iLen) (nonce : Bytes32) : Prop where
  digest : DigestLength c
  started : BaseState.new 96 5 input = .ok base
  verifier : VerifierSpec c 96 5 (nonceTable digest params96 started nonce) input nonce
  leaves : g.SameLeaves (nonceLeaf c base nonce) input nonce
  legal : S.Legal (g.leavesPass input nonce) dev
  noOverflow : (runNonce S (g.leavesPass input nonce) dev).NoOverflow

/-- The nonce's table of leaves. -/
def Nominal.table {c : Crates} {base : BaseState} {g : Backend} {S : Schedule} {dev : Device}
    {input : Vector UInt8 iLen} {nonce : Bytes32} (h : Nominal c base g S dev input nonce) :
    LeafTable := nonceTable h.digest params96 h.started nonce

/-! ### The CPU and the hybrid worker -/

variable {c : Crates} {base : BaseState} {input : Vector UInt8 iLen} {target nonce : Bytes32}
  {g : Backend} {S : Schedule} {dev : Device} {leaf : UInt32 → List UInt8}

theorem submission_isSome {soln : List UInt8} : (submission c input target nonce soln).isSome ↔
    hashUnderTarget (solutionHash c soln input) target = true := by
  rw [submission]
  split_ifs with h <;> simp [h]

theorem hybridAttempt_generate {leaves : List UInt8} (hgen : g.generate input nonce = .ok leaves)
    (hrows : tryNonceWithLeaves c 96 5 input nonce leaves = tryNonce c base input nonce) :
    hybridAttempt c g input target nonce = cpuAttempt c base input target nonce := by
  rw [hybridAttempt, hgen, cpuAttempt, ← hrows]
  rfl

/-- On the same leaves the hybrid worker does what the CPU worker does. -/
theorem hybridAttempt_eq (hc : DigestLength c) (hb : BaseState.new 96 5 input = .ok base)
    (hg : g.SameLeaves (nonceLeaf c base nonce) input nonce) :
    hybridAttempt c g input target nonce = cpuAttempt c base input target nonce := by
  have hlen : ∀ i, (nonceLeaf c base nonce i).length = 12 :=
    nonceLeaf_length hc params96 hb nonce
  have hleaves : leafRows (nInitLeaves 96 5) (tableLeaf (leafTableBytes (nonceLeaf c base nonce))
      (leafBytes 96)) = leafRows (nInitLeaves 96 5) (nonceLeaf c base nonce) :=
    leafRows_congr params96.count_le fun i hi => tableLeaf_bytes (fun i _ => hlen i) hi
  have hrows : tryNonceWithLeaves c 96 5 input nonce
      (leafTableBytes (nonceLeaf c base nonce)) = tryNonce c base input nonce := by
    rw [tryNonce_eq c params96 hb, tryNonceWithLeaves, params96.accepts, if_neg (by simp), if_neg,
      rounds_bind rfl, hleaves]
    rw [leafTableBytes_length fun i _ => hlen i,
      show nInitLeaves 96 5 * leafBytes 96 = nLeaves * 12 by decide]
    exact Nat.lt_irrefl _
  exact hybridAttempt_generate hg.generate hrows

/-- The CPU worker reports the least solution or nothing. -/
theorem cpuAttempt_isSome (h : Nominal c base g S dev input nonce) :
    (cpuAttempt c base input target nonce).isSome ↔
      ∃ t, FirstSolution h.table t ∧ Under c input target t := by
  rw [cpuAttempt]
  rcases tryNonce_least h.digest params96 h.started h.verifier with ⟨t, ht, hsome⟩ | ⟨hnone, hn⟩
  · rw [hsome]
    dsimp only
    rw [submission_isSome]
    constructor
    · exact fun hu => ⟨t, ht, hu⟩
    · rintro ⟨u, hu, hunder⟩
      rwa [hu.unique ht] at hunder
  · rw [hn]
    constructor
    · intro hsome
      cases hsome
    · rintro ⟨u, hu, -⟩
      exact absurd hu.solution (hnone u)

/-! ### The full-GPU loop -/

theorem compressIndices96_5_eq : compressIndices96_5 = compressIndices 96 5 := rfl

/-- The loop answers when some candidate is valid and under the target. -/
theorem firstUnderTarget_isSome {solutions : List (List UInt32)} :
    (firstUnderTarget c input target nonce solutions).isSome ↔ ∃ t ∈ solutions,
      c.isValidSolution 96 5 input.toList nonce (compressIndices 96 5 t) = true ∧
        Under c input target t := by
  induction solutions with
  | nil => simp [firstUnderTarget]
  | cons t ts ih =>
    rw [firstUnderTarget, compressIndices96_5_eq]
    simp only [List.mem_cons, exists_eq_or_imp, Under] at ih ⊢
    by_cases hvalid : c.isValidSolution 96 5 input.toList nonce (compressIndices 96 5 t) = true
    · by_cases hunder : hashUnderTarget (solutionHash c (compressIndices 96 5 t) input) target = true
      · simp [hvalid, hunder]
      · simpa [hvalid, hunder] using ih
    · simpa [hvalid] using ih

/-- What it answers has passed both checks. -/
theorem firstUnderTarget_some {solutions : List (List UInt32)} {win : RaceWinner}
    (h : firstUnderTarget c input target nonce solutions = some win) : win.nonce = nonce ∧
      c.isValidSolution 96 5 input.toList win.nonce win.solnIndices = true ∧
      hashUnderTarget (solutionHash c win.solnIndices input) target = true := by
  induction solutions with
  | nil => cases h
  | cons t ts ih =>
    rw [firstUnderTarget] at h
    dsimp only at h
    split_ifs at h with hbad hunder
    · exact ih h
    · obtain rfl := Option.some.inj h
      exact ⟨rfl, by simpa using hbad, hunder⟩
    · exact ih h

theorem hasWinner_iff (h : Nominal c base g S dev input nonce) :
    HasWinner c input target nonce ↔ ∃ t, h.table.Solution t ∧ Under c input target t := by
  constructor
  · rintro ⟨soln, hvalid, hunder⟩
    obtain ⟨t, ht, rfl⟩ := (h.verifier soln).mp hvalid
    exact ⟨t, ht, hunder⟩
  · rintro ⟨t, ht, hunder⟩
    exact ⟨_, (h.verifier _).mpr ⟨t, ht, rfl⟩, hunder⟩

/-- Where nothing overflows the full-GPU loop sees every solution. -/
theorem fullGpuReports_iff (h : Nominal c base g S dev input nonce) :
    FullGpuReports c g S dev input target nonce ↔
      ∃ t, h.table.Solution t ∧ Under c input target t := by
  have hrun := runNonce_congr h.leaves.leavesPass S dev
  have hlegal : S.Legal (packLeaves (nonceLeaf c base nonce)) dev :=
    ⟨h.legal.init, hrun ▸ h.legal.rounds, hrun ▸ h.legal.scan⟩
  have hok := runNonce_ok (fun i _ => nonceLeaf_length h.digest params96 h.started nonce i) S dev hlegal
  obtain ⟨solutions, hres, hall⟩ := hok.complete trivial (hrun ▸ h.noOverflow)
  have hsound := (hok.sound solutions hres).solutions
  rw [FullGpuReports, fullGpuAttempt, hrun, hres]
  dsimp only
  have hsome : (∃ w, (Except.ok (firstUnderTarget c input target nonce solutions) :
      Except String (Option RaceWinner)) = .ok (some w)) ↔
      (firstUnderTarget c input target nonce solutions).isSome := by
    rw [Option.isSome_iff_exists]
    simp
  rw [hsome, firstUnderTarget_isSome]
  constructor
  · rintro ⟨t, ht, -, hunder⟩
    exact ⟨t, hsound t ht, hunder⟩
  · rintro ⟨t, ht, hunder⟩
    exact ⟨t, hall t ht, (h.verifier _).mpr ⟨t, ht, rfl⟩, hunder⟩

end Equium.Miner
