import Equium.Program.Difficulty
import Equium.Program.Progress
import Equium.Miner.Attempts

/-! @src clients/cli-miner/src/main.rs, clients/gpu-miner/src/main.rs,
    programs/equium/src/instructions/mine.rs | name:Landing | scheme:client against chain

    A miner fetches the config, searches against that snapshot and submits; by the time the transaction
    executes the chain has moved on. As long as the height is the snapshot's, everything the program
    verifies a submission against is the snapshot's too, the target apart. -/

namespace Equium.Miner
open Schemes Equium.Core Equium.Program Solver Gpu

variable {rt : Runtime}

/-! ### Within one round -/

/-- The fields that a round keeps while it is open; `set_target` may move the target. -/
structure SameRound (cfg₀ cfg : EquiumConfig) : Prop where
  challenge : cfg.currentChallenge = cfg₀.currentChallenge
  equihashN : cfg.equihashN = cfg₀.equihashN
  equihashK : cfg.equihashK = cfg₀.equihashK
  reward : cfg.currentEpochReward = cfg₀.currentEpochReward
  cumulative : cfg.cumulativeMined = cfg₀.cumulativeMined
  winner : cfg.lastWinner = cfg₀.lastWinner

theorem SameRound.refl (cfg : EquiumConfig) : SameRound cfg cfg := ⟨rfl, rfl, rfl, rfl, rfl, rfl⟩

theorem SameRound.trans {a b c : EquiumConfig} (h : SameRound a b) (h' : SameRound b c) :
    SameRound a c where
  challenge := h'.challenge.trans h.challenge
  equihashN := h'.equihashN.trans h.equihashN
  equihashK := h'.equihashK.trans h.equihashK
  reward := h'.reward.trans h.reward
  cumulative := h'.cumulative.trans h.cumulative
  winner := h'.winner.trans h.winner

/-- Step lemma: a step that closes no round keeps them. -/
theorem same_round_step {t : Taken World Action} {cfg cfg' : EquiumConfig}
    (h : Step rt t.pre t.label t.post) (hpre : t.pre.config = some cfg)
    (hpost : t.post.config = some cfg') (hh : cfg'.blockHeight = cfg.blockHeight) :
    SameRound cfg cfg' ∧ (seedsAt t = false → cfg'.currentTarget = cfg.currentTarget) := by
  obtain ⟨pre, label, post⟩ := t
  dsimp only at h hpre hpost ⊢
  rcases h.ok_or_quiet with ⟨env, ix, evs, rfl⟩ | ⟨hpost', -⟩
  · obtain ⟨-, after, L', rfl, he⟩ := h.effect
    obtain rfl : cfg' = after := (Option.some.inj hpost).symm
    rw [hpre] at he
    cases he with
    | mine _ _ _ _ _ _ _ _ _ _ _ _ _ _ hadv =>
      have := hadv.height
      rw [hh] at this
      exact absurd this.symm (Nat.succ_ne_self _)
    | advanceEmptyRound _ _ _ _ _ hadv =>
      have := hadv.height
      rw [hh] at this
      exact absurd this.symm (Nat.succ_ne_self _)
    | fundVault => exact ⟨⟨rfl, rfl, rfl, rfl, rfl, rfl⟩, fun _ => rfl⟩
    | renounceAdmin => exact ⟨⟨rfl, rfl, rfl, rfl, rfl, rfl⟩, fun _ => rfl⟩
    | setTarget => exact ⟨⟨rfl, rfl, rfl, rfl, rfl, rfl⟩, fun hs => by cases hs⟩
  · rw [hpost'] at hpost
    obtain rfl := Option.some.inj (hpre.symm.trans hpost)
    exact ⟨.refl _, fun _ => rfl⟩

/-- Run lemma: the height never goes back, and while it stands the round is the same. -/
theorem same_round_run {w₀ w : World} {tr : Record} {cfg₀ : EquiumConfig}
    (h : Run (Step rt) w₀ tr w) (h₀ : w₀.config = some cfg₀) :
    ∃ cfg, w.config = some cfg ∧ cfg₀.blockHeight.toNat ≤ cfg.blockHeight.toNat ∧
      (cfg.blockHeight = cfg₀.blockHeight → SameRound cfg₀ cfg ∧
        ((∀ t ∈ tr, seedsAt t = false) → cfg.currentTarget = cfg₀.currentTarget)) := by
  refine h.inv (fun tr w => ∃ cfg, w.config = some cfg ∧
    cfg₀.blockHeight.toNat ≤ cfg.blockHeight.toNat ∧
    (cfg.blockHeight = cfg₀.blockHeight → SameRound cfg₀ cfg ∧
      ((∀ t ∈ tr, seedsAt t = false) → cfg.currentTarget = cfg₀.currentTarget)))
    ⟨cfg₀, h₀, le_rfl, fun _ => ⟨.refl _, fun _ => rfl⟩⟩ ?_
  rintro tr w l w' - ⟨cfg, hw, hle, hsame⟩ hst
  obtain ⟨cfg', hw', hle'⟩ := hst.height_le hw
  refine ⟨cfg', hw', hle.trans hle', fun hh => ?_⟩
  have hback : cfg.blockHeight = cfg₀.blockHeight := UInt64.toNat_inj.mp (by rw [hh] at hle'; omega)
  obtain ⟨hround, htarget⟩ := hsame hback
  obtain ⟨hstep, hkeep⟩ := same_round_step (t := ⟨w, l, w'⟩) hst hw hw' (hh.trans hback.symm)
  refine ⟨hround.trans hstep, fun hseed => ?_⟩
  rw [hkeep (hseed _ (by simp)), htarget fun t ht => hseed t (List.mem_append_left _ ht)]

/-! ### What the miners submit -/

/-- A submission that wins the round of this config. -/
structure Winning (c : Crates) (cfg : EquiumConfig) (miner : Pubkey) (win : RaceWinner) : Prop where
  valid : Submission.valid c cfg miner win.nonce win.solnIndices = true
  under : Submission.under c cfg miner win.solnIndices = true

/-- The block the miners search on. -/
def snapshotInput (cfg : EquiumConfig) (miner : Pubkey) : Vector UInt8 iLen :=
  buildInput cfg.currentChallenge miner cfg.blockHeight

/-- A winner that one of the three paths found against a snapshot: the CPU race or the hybrid race in
    one of its attempts, or the full-GPU loop. The GPU paths have their parameters in the code. -/
inductive FoundBy (c : Crates) (cfg : EquiumConfig) (miner : Pubkey) (win : RaceWinner) : Prop
  | cpu (base : BaseState) (threads : ℕ) (maxPerThread : UInt64) (nonces : ℕ → ℕ → Bytes32)
      (t k : ℕ)
      (hbase : BaseState.new cfg.equihashN cfg.equihashK (snapshotInput cfg miner) = .ok base)
      (hwin : (cpuRace c base (snapshotInput cfg miner) cfg.currentTarget threads maxPerThread
        nonces).attempt t k = some win)
  | hybrid (g : Backend) (threads : ℕ) (maxPerThread : UInt64) (nonces : ℕ → ℕ → Bytes32)
      (t k : ℕ) (hn : cfg.equihashN = equihashN) (hk : cfg.equihashK = equihashK)
      (hwin : (hybridRace c g (snapshotInput cfg miner) cfg.currentTarget threads maxPerThread
        nonces).attempt t k = some win)
  | fullGpu (g : Backend) (S : Schedule) (dev : Device) (nonce : Bytes32)
      (hn : cfg.equihashN = equihashN) (hk : cfg.equihashK = equihashK)
      (hwin : fullGpuAttempt c g S dev (snapshotInput cfg miner) cfg.currentTarget nonce =
        .ok (some win))

variable {c : Crates}

/-- `try_nonce` hands out only what the verifier accepts. -/
theorem tryNonce_valid {base : BaseState} {input : Vector UInt8 iLen} {nonce : Bytes32}
    {soln : List UInt8} (h : tryNonce c base input nonce = some soln) :
    c.isValidSolution base.n base.k input.toList nonce soln = true := by
  obtain ⟨rows, -, hrows⟩ := Option.bind_eq_some_iff.mp h
  exact firstValid_valid hrows

theorem tryNonceWithLeaves_valid {n k : UInt32} {input : Vector UInt8 iLen} {nonce : Bytes32}
    {leaves soln : List UInt8} (h : tryNonceWithLeaves c n k input nonce leaves = some soln) :
    c.isValidSolution n k input.toList nonce soln = true := by
  unfold tryNonceWithLeaves at h
  split_ifs at h
  obtain ⟨rows, -, hrows⟩ := Option.bind_eq_some_iff.mp h
  exact firstValid_valid hrows

theorem submission_some {input : Vector UInt8 iLen} {target nonce : Bytes32} {soln : List UInt8}
    {win : RaceWinner} (h : submission c input target nonce soln = some win) :
    win = ⟨nonce, soln⟩ ∧ hashUnderTarget (solutionHash c soln input) target = true := by
  unfold submission at h
  dsimp only at h
  split_ifs at h with hu
  exact ⟨(Option.some.inj h).symm, hu⟩

/-- Whatever the path, the winner passes the checks of the snapshot. -/
theorem FoundBy.winning {cfg : EquiumConfig} {miner : Pubkey} {win : RaceWinner}
    (h : FoundBy c cfg miner win) : Winning c cfg miner win := by
  cases h with
  | cpu base threads maxPerThread nonces t k hbase hwin =>
    simp only [cpuRace, cpuAttempt] at hwin
    split at hwin
    · rename_i soln hsoln
      obtain ⟨rfl, hunder⟩ := submission_some hwin
      have hparams : base.n = cfg.equihashN ∧ base.k = cfg.equihashK := by
        unfold BaseState.new at hbase
        split_ifs at hbase
        obtain rfl := Except.ok.inj hbase
        exact ⟨rfl, rfl⟩
      have hvalid := tryNonce_valid hsoln
      rw [hparams.1, hparams.2] at hvalid
      exact ⟨hvalid, hunder⟩
    · cases hwin
  | hybrid g threads maxPerThread nonces t k hn hk hwin =>
    simp only [hybridRace, hybridAttempt] at hwin
    split at hwin
    · cases hwin
    · split at hwin
      · rename_i soln hsoln
        obtain ⟨rfl, hunder⟩ := submission_some hwin
        have hvalid := tryNonceWithLeaves_valid hsoln
        rw [← hn, ← hk] at hvalid
        exact ⟨hvalid, hunder⟩
      · cases hwin
  | fullGpu g S dev nonce hn hk hwin =>
    unfold fullGpuAttempt at hwin
    split at hwin
    · cases hwin
    · obtain ⟨-, hvalid, hunder⟩ := firstUnderTarget_some (Except.ok.inj hwin)
      refine ⟨?_, hunder⟩
      rw [Submission.valid, hn, hk]
      exact hvalid

/-! ### The landing -/

/-- What a submission that landed did. -/
structure Landed (w w' : World) (cfg : EquiumConfig) (a : Mine) : Prop where
  paid : w'.ledger.balance a.minerAta =
    w.ledger.balance a.minerAta + cfg.currentEpochReward.toNat
  config : ∃ cfg', w'.config = some cfg' ∧ cfg'.blockHeight.toNat = cfg.blockHeight.toNat + 1 ∧
    cfg'.lastWinner = a.miner ∧
    cfg'.cumulativeMined.toNat = cfg.cumulativeMined.toNat + cfg.currentEpochReward.toNat

/-- A `mine` that succeeds on a reachable state pays its miner and closes the round. -/
theorem landed_of_ok (laws : TokenLaws rt) {L : Ledger} {tr : Record} {w w' : World}
    (h : Run (Step rt) (genesis L) tr w) {cfg : EquiumConfig} (hw : w.config = some cfg)
    {env : Env} {a : Mine} {nonce : Bytes32} {soln : List UInt8} {evs : List Event}
    (hx : execute rt env w (.mine a nonce soln) = .ok (w', evs)) : Landed w w' cfg a := by
  obtain ⟨hsign, cfg', L', rfl, he⟩ := execute_ok hx
  rw [hw] at he
  have hvault := (vault_run laws (vault_fresh h hw) h).2 cfg hw
  cases he with
  | mine _ _ _ _ _ d cumulative L₁ _ hacc hata hcum hcap htr hadv =>
    obtain ⟨-, hpaid, -⟩ := mine_moves laws hvault.owned hvault.vault hacc.vault hsign hata htr
    exact ⟨hpaid, cfg', rfl, hadv.height, hadv.winner, by rw [hadv.cumulativeMined, ← hcum]⟩

/-- A valid submission under the target is accepted on a chain in order. -/
theorem mine_accepted (laws : TokenLaws rt) (hspl : FailsOnlyOnFunds rt) {L : Ledger} {tr : Record}
    {w : World} (hrun : Run (Step rt) (genesis L) tr w) {cfg : EquiumConfig} (hw : w.config = some cfg)
    {a : Mine} {win : RaceWinner}
    (hvalid : Submission.valid rt.toCrates cfg a.miner win.nonce win.solnIndices = true)
    (hunder : Submission.under rt.toCrates cfg a.miner win.solnIndices = true)
    (hopen : cfg.miningOpen = true) (hpaying : cfg.blockHeight.toNat < 9450000)
    (hacc : MineAccounts rt w cfg a)
    (hsupply : w.ledger.balance rt.vaultPda + w.ledger.balance a.minerAta < 2 ^ 64) {env : Env}
    {data : List UInt8} (hdata : env.slotHashes = some data) (hgood : ¬ BadSlotHashes data) :
    ∃ w' evs, execute rt env w (.mine a win.nonce win.solnIndices) = .ok (w', evs) := by
  cases hx : execute rt env w (.mine a win.nonce win.solnIndices) with
  | ok r => exact ⟨r.1, r.2, rfl⟩
  | error e =>
    rcases mine_error laws hspl hrun hw (by omega) hdata hacc hsupply hx with
      ⟨hbad, -⟩ | ⟨hbad, -⟩ | ⟨hbad, -⟩ | ⟨hbad, -⟩ | ⟨hbad, -⟩
    · rw [hopen] at hbad; cases hbad
    · rw [hvalid] at hbad; cases hbad
    · rw [hunder] at hbad; cases hbad
    · omega
    · exact absurd hbad hgood

/-- A submission that wins the round of a snapshot, executed at a later state of that round. -/
theorem Winning.lands (laws : TokenLaws rt) (hspl : FailsOnlyOnFunds rt) {L : Ledger}
    {tr₀ tr : Record} {w₀ w : World} (h₀ : Run (Step rt) (genesis L) tr₀ w₀)
    (h : Run (Step rt) w₀ tr w) {cfg₀ cfg : EquiumConfig} (hw₀ : w₀.config = some cfg₀)
    (hw : w.config = some cfg) {a : Mine} {win : RaceWinner}
    (hwin : Winning rt.toCrates cfg₀ a.miner win)
    (hround : cfg.blockHeight = cfg₀.blockHeight) (hopen : cfg.miningOpen = true)
    (hpaying : cfg.blockHeight.toNat < 9450000) (hacc : MineAccounts rt w cfg a)
    (hsupply : w.ledger.balance rt.vaultPda + w.ledger.balance a.minerAta < 2 ^ 64) {env : Env}
    {data : List UInt8} (hdata : env.slotHashes = some data) (hgood : ¬ BadSlotHashes data) :
    ((∃ w' evs, execute rt env w (.mine a win.nonce win.solnIndices) = .ok (w', evs)) ↔
        Submission.under rt.toCrates cfg a.miner win.solnIndices = true) ∧
      ((∀ t ∈ tr, seedsAt t = false) →
        Submission.under rt.toCrates cfg a.miner win.solnIndices = true) ∧
      ∀ w' evs, execute rt env w (.mine a win.nonce win.solnIndices) = .ok (w', evs) →
        Landed w w' cfg a ∧ cfg.currentEpochReward = cfg₀.currentEpochReward := by
  have hrun := h₀.append h
  obtain ⟨cfg', hw', -, hsame⟩ := same_round_run h hw₀
  obtain rfl := Option.some.inj (hw.symm.trans hw')
  obtain ⟨hfields, htarget⟩ := hsame hround
  obtain ⟨hvalid₀, hunder₀⟩ := hwin
  have hvalid : Submission.valid rt.toCrates cfg a.miner win.nonce win.solnIndices = true := by
    rw [Submission.valid] at hvalid₀ ⊢
    rw [hfields.challenge, hfields.equihashN, hfields.equihashK, hround, hvalid₀]
  refine ⟨⟨?_, fun hunder => ?_⟩, fun hseed => ?_, fun w' evs hx =>
    ⟨landed_of_ok laws hrun hw hx, hfields.reward⟩⟩
  · rintro ⟨w', evs, hx⟩
    obtain ⟨-, cfg'', L', -, he⟩ := execute_ok hx
    rw [hw] at he
    cases he with
    | mine _ _ _ _ _ _ _ _ _ hok => exact hok.under
  · exact mine_accepted laws hspl hrun hw hvalid hunder hopen hpaying hacc hsupply hdata hgood
  · rw [Submission.under] at hunder₀ ⊢
    rw [hfields.challenge, hround, htarget hseed, hunder₀]

/-- LANDING: a winner found by any of the paths against a snapshot of the chain, submitted at any
    later state of the run on which the snapshot's round is still open, is accepted exactly when its
    hash is under the target of then, and it is unless a `set_target` came in between. Accepted, it pays
    the reward of the snapshot into the miner's account and closes the round. -/
theorem win_lands (laws : TokenLaws rt) (hspl : FailsOnlyOnFunds rt) (L : Ledger) (tr₀ tr : Record)
    (w₀ w : World) (h₀ : Run (Step rt) (genesis L) tr₀ w₀) (h : Run (Step rt) w₀ tr w)
    (cfg₀ cfg : EquiumConfig) (hw₀ : w₀.config = some cfg₀) (hw : w.config = some cfg)
    (a : Mine) (win : RaceWinner) (hfound : FoundBy rt.toCrates cfg₀ a.miner win)
    (hround : cfg.blockHeight = cfg₀.blockHeight) (hopen : cfg.miningOpen = true)
    (hpaying : cfg.blockHeight.toNat < 9450000) (hacc : MineAccounts rt w cfg a)
    (hsupply : w.ledger.balance rt.vaultPda + w.ledger.balance a.minerAta < 2 ^ 64) (env : Env)
    (data : List UInt8) (hdata : env.slotHashes = some data) (hgood : ¬ BadSlotHashes data) :
    ((∃ w' evs, execute rt env w (.mine a win.nonce win.solnIndices) = .ok (w', evs)) ↔
        Submission.under rt.toCrates cfg a.miner win.solnIndices = true) ∧
      ((∀ t ∈ tr, seedsAt t = false) →
        Submission.under rt.toCrates cfg a.miner win.solnIndices = true) ∧
      ∀ w' evs, execute rt env w (.mine a win.nonce win.solnIndices) = .ok (w', evs) →
        Landed w w' cfg a ∧ cfg.currentEpochReward = cfg₀.currentEpochReward :=
  Winning.lands laws hspl h₀ h hw₀ hw hfound.winning hround hopen hpaying hacc hsupply hdata hgood

namespace Landing

/-- The demonstration cluster with a verifier that takes everything. -/
def runtime : Runtime := { Demo.runtime with isValidSolution := fun _ _ _ _ _ => true }

theorem runtime_laws : TokenLaws runtime where
  moved := splTransfer_moved
  pda := by decide +kernel

/-- Mining is open, on a (16, 1) Equihash with its 512 leaves. -/
def snapshot : World := play runtime (genesis Demo.ledger)
  [(Demo.env 5, .initializeEquium ⟨expectedAdmin, Demo.key 1, Demo.key 10, Demo.key 2⟩
    ⟨maxTarget, 16, 1⟩),
   (Demo.env 6, .fundVault ⟨expectedAdmin, Demo.key 1, Demo.key 10, Demo.key 20, Demo.key 2⟩)]

def cfg₀ : EquiumConfig := snapshot.config.get (by decide +kernel)

/-- Meanwhile a timeout is tried too early and the admin leaves. -/
def meanwhile : List (Env × Ix) :=
  [(Demo.env 7, .advanceEmptyRound ⟨Demo.key 40, Demo.key 1, Demo.key 3⟩),
   (Demo.env 8, .renounceAdmin ⟨expectedAdmin, Demo.key 1⟩)]

def world : World := play runtime snapshot meanwhile

def cfg : EquiumConfig := world.config.get (by decide +kernel)

def accounts : Mine :=
  ⟨Demo.key 30, Demo.key 1, Demo.key 10, Demo.key 2, Demo.key 130, Demo.key 9, Demo.key 3⟩

def base : BaseState :=
  ⟨(initState 16 1 64).update (snapshotInput cfg₀ (Demo.key 30)).toList, 16, 1⟩

theorem base_eq : BaseState.new 16 1 (snapshotInput cfg₀ (Demo.key 30)) = .ok base := rfl

theorem digestLength : DigestLength runtime.toCrates := fun _ _ _ _ => List.length_replicate

/-- All leaves are zero, so the first two make a solution. -/
theorem hit : ∃ soln,
    tryNonce runtime.toCrates base (snapshotInput cfg₀ (Demo.key 30)) (Demo.key 7) = some soln := by
  have hlevel := Solver.Demo.params.level (r := 1)
    (fun i _ => nonceLeaf_length digestLength Solver.Demo.params base_eq (Demo.key 7) i) le_rfl
  have hsol : (nonceTable digestLength Solver.Demo.params base_eq (Demo.key 7)).Solution [0, 1] := by
    refine ⟨subtree_succ.mpr ⟨[0], [1], rfl, subtree_zero.mpr ⟨0, by decide, rfl⟩,
      subtree_zero.mpr ⟨1, by decide, rfl⟩, by simp, by decide, ?_⟩, ?_⟩
    · decide +kernel
    · decide +kernel
  refine Option.isSome_iff_exists.mp ?_
  rw [tryNonce_eq runtime.toCrates Solver.Demo.params base_eq, firstValid_isSome]
  obtain ⟨row, hr, hrow⟩ := List.mem_map.mp ((hlevel.exact [0, 1]).mpr hsol.1)
  exact ⟨row, hr, (Level.candidate_iff hlevel rfl hr).mpr (hrow ▸ hsol), rfl⟩

theorem found : ∃ win, FoundBy runtime.toCrates cfg₀ (Demo.key 30) win := by
  obtain ⟨soln, hsoln⟩ := hit
  refine ⟨⟨Demo.key 7, soln⟩, .cpu base 1 1 (fun _ _ => Demo.key 7) 0 0 base_eq ?_⟩
  have hunder : hashUnderTarget (Demo.key 0) cfg₀.currentTarget = true := by decide +kernel
  rw [cpuRace]
  dsimp only
  rw [cpuAttempt, hsoln]
  dsimp only
  rw [submission]
  exact if_pos hunder

theorem mineAccounts : MineAccounts runtime world cfg accounts where
  signature := by decide +kernel
  config := by decide +kernel
  configSeeds := by decide +kernel
  mint := by decide +kernel
  mintAccount := by decide +kernel
  vault := by decide +kernel
  vaultSeeds := by decide +kernel
  ata := by decide +kernel
  ataAccount := by
    have hnone : world.ledger.accounts accounts.minerAta = none := by decide +kernel
    intro t ht
    rw [hnone] at ht
    cases ht
  slotHashes := rfl

end Landing

/-- The winner of the snapshot lands after a refused timeout and a renunciation. -/
theorem win_lands_demo : ∃ (win : RaceWinner) (w' : World) (evs : List Event),
    execute Landing.runtime (Demo.env 9) Landing.world
      (.mine Landing.accounts win.nonce win.solnIndices) = .ok (w', evs) ∧
    Landed Landing.world w' Landing.cfg Landing.accounts := by
  have hgood : ¬ BadSlotHashes (List.replicate 48 1) := by
    unfold BadSlotHashes
    decide
  obtain ⟨win, hfound⟩ := Landing.found
  obtain ⟨tr₀, hr₀⟩ := play_run Landing.runtime _ (genesis Demo.ledger)
  obtain ⟨hiff, hunder, hlanded⟩ := win_lands Landing.runtime_laws
    (fun _ _ _ _ => splTransfer_funds) Demo.ledger tr₀ _ Landing.snapshot Landing.world hr₀
    (record_run Landing.runtime Landing.meanwhile _) Landing.cfg₀ Landing.cfg (by simp [Landing.cfg₀])
    (by simp [Landing.cfg]) Landing.accounts win hfound (by decide +kernel)
    (by decide +kernel) (by decide +kernel) Landing.mineAccounts (by decide +kernel) (Demo.env 9)
    _ rfl hgood
  obtain ⟨w', evs, hx⟩ := hiff.mpr (hunder (Demo.record_no_seed _ (by simp [Landing.meanwhile])))
  exact ⟨win, w', evs, hx, (hlanded w' evs hx).1⟩

end Equium.Miner
