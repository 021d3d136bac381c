import Equium.Schemes.Project
import Equium.Miner.Desktop
import Equium.Miner.Landing

/-! @src clients/cli-miner/src/main.rs | name:The CLI session | scheme:client against chain

    The loop of `main` with its counters and its empty-round watchdog, next to a chain that moves on by
    itself. Between any two steps of the client other transactions execute and time passes; a submitted
    transaction may land although the RPC reports an error. The workspace builds with overflow checks,
    so an addition that overflows ends the process. -/

namespace Equium.Miner
open Schemes Equium.Core Equium.Program

/-- `ROUND_STALL_SECS`, in milliseconds. -/
def roundStallMs : ℕ := 75 * 1000

/-- `ADVANCE_COOLDOWN_SECS`, in milliseconds. -/
def advanceCooldownMs : ℕ := 30 * 1000

/-- The client: its key, the owner of the mint, and the arguments the loop reads. -/
structure Client where
  miner : Pubkey
  tokenProgram : Pubkey
  threadCount : UInt64
  maxNoncesPerRound : UInt64
  maxBlocks : UInt64

/-- The locals of the loop; instants are milliseconds. -/
structure Locals where
  blocksMined : UInt64
  currentHeight : UInt64
  tryInRound : UInt32
  totalNonces : UInt64
  totalRewardBase : UInt64
  lastHeightChangeAt : ℕ
  lastAdvanceAttemptAt : Option ℕ
deriving DecidableEq, Repr

/-- Why the process ended. -/
inductive Ended where
  | complete
  | fetchFailed
  | panicked
deriving DecidableEq, Repr

/-- Where the loop stands, with the config it has fetched. -/
inductive SessionPc where
  | fetch
  | advance
  | solve (cfg : EquiumConfig)
  | submit (cfg : EquiumConfig) (win : RaceWinner)
  | ended (why : Ended)
deriving DecidableEq

/-- The chain, the time and the client. -/
structure Session where
  world : World
  now : ℕ
  pc : SessionPc
  locals : Locals

/-- The locals ahead of the loop; no round has height `u64::MAX`. -/
def Locals.init (now : ℕ) : Locals := ⟨0, UInt64.ofNat (2 ^ 64 - 1), 0, 0, 0, now, none⟩

/-- `u32` addition with the overflow check. -/
def checkedSucc32 (a : UInt32) : Option UInt32 := if a.toNat + 1 < 2 ^ 32 then some (a + 1) else none

/-- `u64` multiplication with the overflow check. -/
def checkedMul (a b : UInt64) : Option UInt64 := if a.toNat * b.toNat < 2 ^ 64 then some (a * b) else none

/-- The bookkeeping of a fetched config. -/
def Locals.observe (l : Locals) (now : ℕ) (cfg : EquiumConfig) : Locals :=
  if cfg.blockHeight ≠ l.currentHeight then
    { l with
      currentHeight := cfg.blockHeight
      tryInRound := 0
      lastHeightChangeAt := now
      lastAdvanceAttemptAt := none }
  else l

/-- The condition of the watchdog. -/
def Locals.stalled (l : Locals) (now : ℕ) : Bool :=
  let stallFor := now - l.lastHeightChangeAt
  let cooledDown := match l.lastAdvanceAttemptAt with
    | some t => decide (now - t ≥ advanceCooldownMs)
    | none => true
  decide (stallFor ≥ roundStallMs) && cooledDown

/-- `None` from the race: no below-target nonce in this budget. -/
def Locals.exhausted (k : Client) (l : Locals) : Option Locals := do
  let budget ← checkedMul k.maxNoncesPerRound k.threadCount
  let tries ← checkedSucc32 l.tryInRound
  pure { l with totalNonces := saturatingAdd l.totalNonces budget, tryInRound := tries }

/-- `Some` from the race. -/
def Locals.solved (l : Locals) (noncesTried : UInt64) : Option Locals := do
  let tries ← checkedSucc32 l.tryInRound
  pure { l with totalNonces := saturatingAdd l.totalNonces noncesTried, tryInRound := tries }

/-- `Ok` from `submit_mine`. -/
def Locals.mined (l : Locals) (cfg : EquiumConfig) : Option Locals := do
  let blocks ← checkedAdd l.blocksMined 1
  pure { l with
    blocksMined := blocks
    totalRewardBase := saturatingAdd l.totalRewardBase cfg.currentEpochReward }

/-- The test at the end of the loop's body. -/
def Client.complete (k : Client) (l : Locals) : Bool := k.maxBlocks > 0 && l.blocksMined ≥ k.maxBlocks

/-- Go on with these locals, unless an addition has panicked. -/
def Session.resume (s : Session) (l : Option Locals) (pc : SessionPc) : Session :=
  match l with
  | some l => { s with locals := l, pc := pc }
  | none => { s with pc := .ended .panicked }

/-- The head of the loop: the fetched config, then the watchdog or the search. -/
def Session.fetched (s : Session) (cfg : EquiumConfig) : Session :=
  let l := s.locals.observe s.now cfg
  if l.stalled s.now then
    { s with locals := { l with lastAdvanceAttemptAt := some s.now }, pc := .advance }
  else { s with locals := l, pc := .solve cfg }

/-- The accounts of `submit_mine`. -/
def Client.mineAccounts (rt : Runtime) (k : Client) (cfg : EquiumConfig) : Mine where
  miner := k.miner
  config := rt.configPda
  mint := cfg.mint
  mineableVault := rt.vaultPda
  minerAta := rt.associatedTokenAddress k.miner cfg.mint k.tokenProgram
  tokenProgram := k.tokenProgram
  slotHashes := rt.slotHashesId

/-- The accounts of `submit_advance_empty_round`. -/
def Client.advanceAccounts (rt : Runtime) (k : Client) : AdvanceEmptyRound :=
  ⟨k.miner, rt.configPda, rt.slotHashesId⟩

/-- `submit_mine` returned `Ok`; the world is the one after the transaction. -/
def Session.mined (s : Session) (k : Client) (cfg : EquiumConfig) (w' : World) : Session :=
  let l := s.locals.mined cfg
  let pc := if l.any k.complete then .ended .complete else .fetch
  { s with world := w' }.resume l pc

inductive SessionLabel where
  /-- a step of the chain that the client hears nothing of, be it its own transaction -/
  | elsewhere (l : Action)
  | tick (ms : ℕ)
  | fetched
  | fetchFailed
  | exhausted
  | solved (win : RaceWinner) (noncesTried : UInt64)
  /-- the submission landed and the RPC said so -/
  | mined (env : Env) (evs : List Event)
  /-- the RPC reported an error -/
  | refused
  | advanced (env : Env) (evs : List Event)
  | notAdvanced

/-- One step of client, chain or clock. -/
inductive SessionStep (rt : Runtime) (k : Client) : Session → SessionLabel → Session → Prop
  | elsewhere {s : Session} {l : Action} {w' : World} (h : Step rt s.world l w') :
      SessionStep rt k s (.elsewhere l) { s with world := w' }
  | tick {s : Session} {ms : ℕ} : SessionStep rt k s (.tick ms) { s with now := s.now + ms }
  | fetched {s : Session} {cfg : EquiumConfig} (hpc : s.pc = .fetch)
      (hcfg : s.world.config = some cfg) : SessionStep rt k s .fetched (s.fetched cfg)
  | fetchFailed {s : Session} (hpc : s.pc = .fetch) :
      SessionStep rt k s .fetchFailed { s with pc := .ended .fetchFailed }
  | exhausted {s : Session} {cfg : EquiumConfig} (hpc : s.pc = .solve cfg) :
      SessionStep rt k s .exhausted (s.resume (s.locals.exhausted k) .fetch)
  | solved {s : Session} {cfg : EquiumConfig} {win : RaceWinner} {n : UInt64}
      (hpc : s.pc = .solve cfg) (hfound : FoundBy rt.toCrates cfg k.miner win) :
      SessionStep rt k s (.solved win n) (s.resume (s.locals.solved n) (.submit cfg win))
  | mined {s : Session} {cfg : EquiumConfig} {win : RaceWinner} {env : Env} {evs : List Event}
      {w' : World} (hpc : s.pc = .submit cfg win)
      (hx : execute rt env s.world (.mine (k.mineAccounts rt cfg) win.nonce win.solnIndices) =
        .ok (w', evs)) : SessionStep rt k s (.mined env evs) (s.mined k cfg w')
  | refused {s : Session} {cfg : EquiumConfig} {win : RaceWinner} (hpc : s.pc = .submit cfg win) :
      SessionStep rt k s .refused { s with now := s.now + 200, pc := .fetch }
  | advanced {s : Session} {env : Env} {evs : List Event} {w' : World} (hpc : s.pc = .advance)
      (hx : execute rt env s.world (.advanceEmptyRound (k.advanceAccounts rt)) = .ok (w', evs)) :
      SessionStep rt k s (.advanced env evs) { s with world := w', pc := .fetch }
  | notAdvanced {s : Session} (hpc : s.pc = .advance) :
      SessionStep rt k s .notAdvanced { s with pc := .fetch }

/-- A session that starts on this chain at this instant. -/
def Session.start (w : World) (now : ℕ) : Session := ⟨w, now, .fetch, .init now⟩

abbrev Log := List (Taken Session SessionLabel)

/-! ### The session inside the chain -/

/-- The step of the chain that a step of the session is. -/
def chainStep (rt : Runtime) (k : Client) (t : Taken Session SessionLabel) :
    Option (Taken World Action) :=
  match t.label, t.pre.pc with
  | .elsewhere l, _ => some ⟨t.pre.world, l, t.post.world⟩
  | .mined env evs, .submit cfg win => some ⟨t.pre.world,
      .ok env (.mine (k.mineAccounts rt cfg) win.nonce win.solnIndices) evs, t.post.world⟩
  | .advanced env evs, _ =>
    some ⟨t.pre.world, .ok env (.advanceEmptyRound (k.advanceAccounts rt)) evs, t.post.world⟩
  | _, _ => none

/-- What the chain did over a session. -/
def chainOf (rt : Runtime) (k : Client) (tr : Log) : Record := tr.filterMap (chainStep rt k)

variable {rt : Runtime} {k : Client} {s s' : Session} {tr : Log}

@[simp] theorem Session.resume_world (s : Session) (l : Option Locals) (pc : SessionPc) :
    (s.resume l pc).world = s.world := by cases l <;> rfl

@[simp] theorem Session.resume_now (s : Session) (l : Option Locals) (pc : SessionPc) :
    (s.resume l pc).now = s.now := by cases l <;> rfl

@[simp] theorem Session.fetched_world (s : Session) (cfg : EquiumConfig) :
    (s.fetched cfg).world = s.world := by
  unfold Session.fetched
  dsimp only
  split_ifs <;> rfl

@[simp] theorem Session.mined_world (s : Session) (k : Client) (cfg : EquiumConfig) (w' : World) :
    (s.mined k cfg w').world = w' := by simp [Session.mined]

/-- PROJECTION: what the chain does over a session is a run of the chain. -/
theorem chain_run {s₀ : Session} (h : Run (SessionStep rt k) s₀ tr s) :
    Run (Step rt) s₀.world (chainOf rt k tr) s.world := by
  refine h.project (·.world) (chainStep rt k) fun s l s' hst => ?_
  cases hst with
  | elsewhere h => exact .moves _ rfl h
  | tick => exact .stutters rfl rfl
  | fetched _ _ => exact .stutters rfl (s.fetched_world _)
  | fetchFailed => exact .stutters rfl rfl
  | exhausted => exact .stutters rfl (s.resume_world _ _)
  | solved => exact .stutters rfl (s.resume_world _ _)
  | @mined cfg win env evs w' hpc hx =>
    have hw : (s.mined k cfg w').world = w' := s.mined_world k cfg w'
    refine .moves (.ok env (.mine (k.mineAccounts rt cfg) win.nonce win.solnIndices) evs) ?_ ?_
    · simp only [chainStep, hpc]
    · rw [hw]
      exact .ok hx
  | refused => exact .stutters rfl rfl
  | advanced hpc hx => exact .moves _ rfl (.ok hx)
  | notAdvanced => exact .stutters rfl rfl

/-! ### The locals -/

/-- The locals of the watchdog. -/
structure SameWatch (l l' : Locals) : Prop where
  currentHeight : l'.currentHeight = l.currentHeight
  lastHeightChangeAt : l'.lastHeightChangeAt = l.lastHeightChangeAt
  lastAdvanceAttemptAt : l'.lastAdvanceAttemptAt = l.lastAdvanceAttemptAt

/-- The sums of the session. -/
structure SameSums (l l' : Locals) : Prop where
  blocksMined : l'.blocksMined = l.blocksMined
  totalRewardBase : l'.totalRewardBase = l.totalRewardBase

theorem SameWatch.refl (l : Locals) : SameWatch l l := ⟨rfl, rfl, rfl⟩

theorem SameSums.refl (l : Locals) : SameSums l l := ⟨rfl, rfl⟩

theorem Locals.exhausted_some {l l' : Locals} (h : l.exhausted k = some l') :
    SameWatch l l' ∧ SameSums l l' := by
  simp only [Locals.exhausted, Option.bind_eq_bind, Option.bind_eq_some_iff, Option.pure_def,
    Option.some.injEq] at h
  obtain ⟨_, -, _, -, rfl⟩ := h
  exact ⟨⟨rfl, rfl, rfl⟩, ⟨rfl, rfl⟩⟩

theorem Locals.solved_some {l l' : Locals} {n : UInt64} (h : l.solved n = some l') :
    SameWatch l l' ∧ SameSums l l' := by
  simp only [Locals.solved, Option.bind_eq_bind, Option.bind_eq_some_iff, Option.pure_def,
    Option.some.injEq] at h
  obtain ⟨_, -, rfl⟩ := h
  exact ⟨⟨rfl, rfl, rfl⟩, ⟨rfl, rfl⟩⟩

theorem Locals.mined_some {l l' : Locals} {cfg : EquiumConfig} (h : l.mined cfg = some l') :
    SameWatch l l' ∧ l'.blocksMined.toNat = l.blocksMined.toNat + 1 ∧
      l'.totalRewardBase = saturatingAdd l.totalRewardBase cfg.currentEpochReward := by
  simp only [Locals.mined, Option.bind_eq_bind, Option.bind_eq_some_iff, Option.pure_def,
    Option.some.injEq] at h
  obtain ⟨blocks, hblocks, rfl⟩ := h
  exact ⟨⟨rfl, rfl, rfl⟩, checkedAdd_some.mp hblocks, rfl⟩

theorem Locals.observe_sums (l : Locals) (now : ℕ) (cfg : EquiumConfig) :
    SameSums l (l.observe now cfg) := by
  unfold Locals.observe
  split_ifs
  exacts [⟨rfl, rfl⟩, .refl l]

/-! ### The books -/

/-- A counted block: the config of the snapshot and the one the submission landed on. -/
def countedAt (t : Taken Session SessionLabel) : Option (EquiumConfig × EquiumConfig) :=
  match t.label, t.pre.pc with
  | .mined _ _, .submit cfg _ => t.pre.world.config.map fun landing => (cfg, landing)
  | _, _ => none

/-- The blocks the client counted, oldest first. -/
def counted (tr : Log) : List (EquiumConfig × EquiumConfig) := tr.filterMap countedAt

/-- What the client adds up. -/
def displayed (tr : Log) : ℕ := ((counted tr).map fun c => c.1.currentEpochReward.toNat).sum

/-- What the chain paid for these blocks. -/
def paid (tr : Log) : ℕ := ((counted tr).map fun c => c.2.currentEpochReward.toNat).sum

theorem counted_concat (tr : Log) (t : Taken Session SessionLabel) :
    counted (tr ++ [t]) = counted tr ++ (countedAt t).toList := by
  cases h : countedAt t <;> simp [counted, h]

theorem saturatingAdd_toNat (a b : UInt64) :
    (saturatingAdd a b).toNat = min (2 ^ 64 - 1) (a.toNat + b.toNat) := by
  unfold saturatingAdd
  split_ifs with h
  · rw [UInt64.toNat_add, Nat.mod_eq_of_lt h]
    omega
  · rw [UInt64.toNat_ofNat', Nat.mod_eq_of_lt (by omega)]
    omega

/-- The reward never rises with the height. -/
theorem rewardAtHeight_anti {h h' : UInt64} (hle : h.toNat ≤ h'.toNat) :
    (rewardAtHeight h').toNat ≤ (rewardAtHeight h).toNat := by
  rw [rewardAtHeight_toNat, rewardAtHeight_toNat]
  exact Nat.div_le_div_left (Nat.pow_le_pow_right (by omega) (Nat.div_le_div_right hle))
    (Nat.two_pow_pos _)

/-- A snapshot of this chain: it was the config of some state before. -/
structure Snapshot (cfg now : EquiumConfig) : Prop where
  reward : cfg.currentEpochReward = rewardAtHeight cfg.blockHeight
  past : cfg.blockHeight.toNat ≤ now.blockHeight.toNat

/-- The config in the hands of the loop. -/
def SessionPc.cfg : SessionPc → Option EquiumConfig
  | .solve cfg => some cfg
  | .submit cfg _ => some cfg
  | _ => none

/-- The client's books against the chain's. -/
structure Books (k : Client) (tr : Log) (s : Session) : Prop where
  world : ∃ now, s.world.config = some now ∧ ∀ cfg, s.pc.cfg = some cfg → Snapshot cfg now
  pairs : ∀ c ∈ counted tr, Snapshot c.1 c.2 ∧ c.2.currentEpochReward = rewardAtHeight c.2.blockHeight
  blocks : s.pc ≠ .ended .panicked → s.locals.blocksMined.toNat = (counted tr).length
  reward : s.pc ≠ .ended .panicked →
    s.locals.totalRewardBase.toNat = min (2 ^ 64 - 1) (displayed tr)
  going : (∀ why, s.pc ≠ .ended why) ∨ s.pc = .ended .fetchFailed → k.complete s.locals = false
  complete : s.pc = .ended .complete →
    0 < k.maxBlocks.toNat ∧ s.locals.blocksMined = k.maxBlocks

theorem complete_iff {l : Locals} : k.complete l = true ↔
    0 < k.maxBlocks.toNat ∧ k.maxBlocks.toNat ≤ l.blocksMined.toNat := by
  simp only [Client.complete, Bool.and_eq_true, decide_eq_true_eq, gt_iff_lt, ge_iff_le,
    UInt64.lt_iff_toNat_lt, UInt64.le_iff_toNat_le]
  rfl

theorem Snapshot.later {cfg now now' : EquiumConfig} (h : Snapshot cfg now)
    (hle : now.blockHeight.toNat ≤ now'.blockHeight.toNat) : Snapshot cfg now' :=
  ⟨h.reward, h.past.trans hle⟩

/-- A step that counts nothing and keeps the sums, of a process that has not ended and does not
    complete. -/
theorem Books.frame {t : Taken Session SessionLabel} (h : Books k tr s) (hc : countedAt t = none)
    (hworld : ∃ now, s'.world.config = some now ∧ ∀ cfg, s'.pc.cfg = some cfg → Snapshot cfg now)
    (hblocks : s'.locals.blocksMined = s.locals.blocksMined)
    (hreward : s'.locals.totalRewardBase = s.locals.totalRewardBase)
    (hfrom : ∀ why, s.pc ≠ .ended why) (hto : s'.pc ≠ .ended .complete) : Books k (tr ++ [t]) s' := by
  have hcounted : counted (tr ++ [t]) = counted tr := by
    rw [counted_concat, hc]
    exact List.append_nil _
  refine ⟨hworld, hcounted ▸ h.pairs, fun _ => ?_, fun _ => ?_, fun _ => ?_, fun he => absurd he hto⟩
  · rw [hcounted, hblocks]
    exact h.blocks (hfrom _)
  · rw [displayed, hcounted, hreward]
    exact h.reward (hfrom _)
  · have hgoing := h.going (.inl hfrom)
    rw [Client.complete, hblocks]
    exact hgoing

/-- A step of the chain or the clock alone. -/
theorem Books.beside {t : Taken Session SessionLabel} (h : Books k tr s) (hc : countedAt t = none)
    (hw : ∀ now, s.world.config = some now → ∃ now', s'.world.config = some now' ∧
      now.blockHeight.toNat ≤ now'.blockHeight.toNat)
    (hl : s'.locals = s.locals) (hpc : s'.pc = s.pc) : Books k (tr ++ [t]) s' := by
  have hcounted : counted (tr ++ [t]) = counted tr := by
    rw [counted_concat, hc]
    exact List.append_nil _
  obtain ⟨now, hnow, hsnap⟩ := h.world
  obtain ⟨now', hnow', hle⟩ := hw now hnow
  refine ⟨⟨now', hnow', fun cfg hcfg => (hsnap cfg (hpc ▸ hcfg)).later hle⟩, hcounted ▸ h.pairs,
    ?_, ?_, ?_, ?_⟩
  · rw [hcounted, hl, hpc]
    exact h.blocks
  · rw [displayed, hcounted, hl, hpc]
    exact h.reward
  · rw [hl, hpc]
    exact h.going
  · rw [hl, hpc]
    exact h.complete

/-- A counted block. -/
theorem Books.mined {t : Taken Session SessionLabel} {cfg now now' : EquiumConfig} {win : RaceWinner}
    {w' : World} (h : Books k tr s) (hpc : s.pc = .submit cfg win) (hnow : s.world.config = some now)
    (hc : countedAt t = some (cfg, now)) (hr : now.currentEpochReward = rewardAtHeight now.blockHeight)
    (hw' : w'.config = some now') : Books k (tr ++ [t]) (s.mined k cfg w') := by
  have hrun : s.pc ≠ .ended .panicked := by simp [hpc]
  have hcounted : counted (tr ++ [t]) = counted tr ++ [(cfg, now)] := by
    rw [counted_concat, hc]
    rfl
  obtain ⟨now₁, hnow₁, hsnap⟩ := h.world
  obtain rfl := Option.some.inj (hnow.symm.trans hnow₁)
  have hgoing : k.complete s.locals = false := h.going (.inl (by simp [hpc]))
  have hdisplayed : displayed (tr ++ [t]) = displayed tr + cfg.currentEpochReward.toNat := by
    simp [displayed, hcounted]
  have hpairs : ∀ c ∈ counted (tr ++ [t]),
      Snapshot c.1 c.2 ∧ c.2.currentEpochReward = rewardAtHeight c.2.blockHeight := by
    intro c hmem
    rw [hcounted, List.mem_append, List.mem_singleton] at hmem
    rcases hmem with hmem | rfl
    · exact h.pairs c hmem
    · exact ⟨hsnap cfg (by rw [hpc]; rfl), hr⟩
  unfold Session.mined
  cases hl : s.locals.mined cfg with
  | none =>
    exact ⟨⟨now', hw', by simp [Session.resume, SessionPc.cfg]⟩, hpairs, by simp [Session.resume],
      by simp [Session.resume], by simp [Session.resume], by simp [Session.resume]⟩
  | some l =>
    obtain ⟨-, hone, hsum⟩ := Locals.mined_some hl
    refine ⟨⟨now', hw', ?_⟩, hpairs, fun _ => ?_, fun _ => ?_, fun hp => ?_, fun hp => ?_⟩
    · dsimp only [Option.any, Session.resume]
      split_ifs <;> simp [SessionPc.cfg]
    · simp only [Session.resume, hcounted, List.length_append, List.length_singleton, hone,
        h.blocks hrun]
    · simp only [Session.resume, hsum, saturatingAdd_toNat, h.reward hrun, hdisplayed]
      omega
    · dsimp only [Option.any, Session.resume] at hp ⊢
      by_contra hcomplete
      rw [Bool.not_eq_false] at hcomplete
      simp [hcomplete] at hp
    · dsimp only [Option.any, Session.resume] at hp ⊢
      split_ifs at hp with hcomplete
      obtain ⟨hmax, hle⟩ := complete_iff.mp hcomplete
      refine ⟨hmax, UInt64.toNat_inj.mp (le_antisymm ?_ hle)⟩
      have hbefore := mt complete_iff.mpr (Bool.not_eq_true _ ▸ hgoing)
      omega

/-- What a step makes of the client's sums, where it counts nothing. -/
theorem Session.resume_sums (s : Session) (l : Option Locals) (pc : SessionPc)
    (h : ∀ l', l = some l' → SameSums s.locals l') : SameSums s.locals (s.resume l pc).locals := by
  cases l with
  | none => exact .refl _
  | some l => exact h l rfl

theorem Session.resume_pc (s : Session) (l : Option Locals) (pc : SessionPc) :
    (s.resume l pc).pc = pc ∨ (s.resume l pc).pc = .ended .panicked := by
  cases l with
  | none => exact .inr rfl
  | some l => exact .inl rfl

theorem Session.fetched_cases (s : Session) (cfg : EquiumConfig) :
    SameSums s.locals (s.fetched cfg).locals ∧
      ((s.fetched cfg).pc = .advance ∨ (s.fetched cfg).pc = .solve cfg) := by
  have hsums := s.locals.observe_sums s.now cfg
  unfold Session.fetched
  dsimp only
  split_ifs
  · exact ⟨⟨hsums.1, hsums.2⟩, .inl rfl⟩
  · exact ⟨hsums, .inr rfl⟩

/-- Step lemma: every step keeps the books. -/
theorem Books.step {l : SessionLabel} (h : Books k tr s) (hst : SessionStep rt k s l s')
    (hr : ∀ cfg, s.world.config = some cfg → cfg.currentEpochReward = rewardAtHeight cfg.blockHeight) :
    Books k (tr ++ [⟨s, l, s'⟩]) s' := by
  obtain ⟨now, hnow, hsnap⟩ := h.world
  cases hst with
  | elsewhere hst =>
    exact h.beside rfl (fun now hnow => hst.height_le hnow) rfl rfl
  | tick => exact h.beside rfl (fun now hnow => ⟨now, hnow, le_rfl⟩) rfl rfl
  | @fetched cfg hpc hcfg =>
    obtain ⟨hsums, hto⟩ := s.fetched_cases cfg
    refine h.frame rfl ⟨now, by rwa [s.fetched_world], fun c hc => ?_⟩ hsums.1 hsums.2
      (by simp [hpc]) (by rcases hto with hto | hto <;> simp [hto])
    rcases hto with hto | hto
    · rw [hto] at hc
      cases hc
    · rw [hto] at hc
      obtain rfl := Option.some.inj hc
      exact ⟨hr _ hcfg, le_of_eq (by rw [Option.some.inj (hcfg.symm.trans hnow)])⟩
  | fetchFailed hpc =>
    exact h.frame rfl ⟨now, hnow, by simp [SessionPc.cfg]⟩ rfl rfl (by simp [hpc]) (by simp)
  | exhausted hpc =>
    have hsums := s.resume_sums (s.locals.exhausted k) .fetch fun l hl => (Locals.exhausted_some hl).2
    have hto := s.resume_pc (s.locals.exhausted k) .fetch
    refine h.frame rfl ⟨now, by rwa [s.resume_world], fun c hc => ?_⟩ hsums.1 hsums.2
      (by simp [hpc]) (by rcases hto with hto | hto <;> simp [hto])
    rcases hto with hto | hto <;> (rw [hto] at hc; cases hc)
  | @solved cfg win n hpc hfound =>
    have hsums := s.resume_sums (s.locals.solved n) (.submit cfg win) fun l hl => (Locals.solved_some hl).2
    have hto := s.resume_pc (s.locals.solved n) (.submit cfg win)
    refine h.frame rfl ⟨now, by rwa [s.resume_world], fun c hc => ?_⟩ hsums.1 hsums.2
      (by simp [hpc]) (by rcases hto with hto | hto <;> simp [hto])
    rcases hto with hto | hto
    · rw [hto] at hc
      exact hsnap c (by rw [hpc]; exact hc)
    · rw [hto] at hc
      cases hc
  | @mined cfg win env evs w' hpc hx =>
    obtain ⟨now', hnow', -⟩ := (Step.ok hx).height_le hnow
    exact h.mined hpc hnow (by simp [countedAt, hpc, hnow]) (hr now hnow) hnow'
  | refused hpc =>
    exact h.frame rfl ⟨now, hnow, by simp [SessionPc.cfg]⟩ rfl rfl (by simp [hpc]) (by simp)
  | advanced hpc hx =>
    obtain ⟨now', hnow', -⟩ := (Step.ok hx).height_le hnow
    exact h.frame rfl ⟨now', hnow', by simp [SessionPc.cfg]⟩ rfl rfl (by simp [hpc]) (by simp)
  | notAdvanced hpc =>
    exact h.frame rfl ⟨now, hnow, by simp [SessionPc.cfg]⟩ rfl rfl (by simp [hpc]) (by simp)

/-- Run lemma: the books hold after every session on a reachable chain. -/
theorem books_run {L : Ledger} {tr₀ : Record} {w₀ : World} {cfg₀ : EquiumConfig} {now₀ : ℕ}
    (h₀ : Run (Step rt) (genesis L) tr₀ w₀) (hw₀ : w₀.config = some cfg₀)
    (h : Run (SessionStep rt k) (.start w₀ now₀) tr s) : Books k tr s := by
  refine h.inv (Books k) ?_ fun tr s l s' hr hb hst => hb.step hst fun cfg hcfg =>
    ((accounts_run (h₀.append (chain_run hr))).2 cfg hcfg).schedule.reward
  refine ⟨⟨cfg₀, hw₀, by simp [Session.start, SessionPc.cfg]⟩, by simp [counted], fun _ => rfl,
    fun _ => rfl, fun _ => ?_, by simp [Session.start]⟩
  rw [← Bool.not_eq_true, complete_iff]
  rintro ⟨hpos, hle⟩
  have hzero : (Session.start w₀ now₀).locals.blocksMined.toNat = 0 := rfl
  omega

/-- What the client adds up is at least what the chain paid, and the same while no counted block
    crossed a halving. -/
theorem Books.paid_le (h : Books k tr s) : paid tr ≤ displayed tr ∧
    ((∀ c ∈ counted tr, c.2.blockHeight.toNat / 378000 = c.1.blockHeight.toNat / 378000) →
      paid tr = displayed tr) := by
  refine ⟨List.sum_le_sum fun c hc => ?_, fun hsame => ?_⟩
  · obtain ⟨hsnap, hr⟩ := h.pairs c hc
    rw [hr, hsnap.reward]
    exact rewardAtHeight_anti hsnap.past
  · refine congrArg List.sum (List.map_congr_left fun c hc => ?_)
    obtain ⟨hsnap, hr⟩ := h.pairs c hc
    rw [hr, hsnap.reward, rewardAtHeight_toNat, rewardAtHeight_toNat, hsame c hc]

/-- SESSION BOOKS: over any session next to a reachable chain, the chain's part is a run of the chain;
    every block the client counts landed and paid its account; until an addition panics the count is
    the number of these blocks and the total is the sum of the rewards of their snapshots, at least
    what the chain paid and the same unless a counted block crossed a halving; and the process
    completes exactly when it has counted `max_blocks`. -/
theorem session_books (laws : TokenLaws rt) (L : Ledger) (tr₀ : Record) (w₀ : World)
    (h₀ : Run (Step rt) (genesis L) tr₀ w₀) (cfg₀ : EquiumConfig) (hw₀ : w₀.config = some cfg₀)
    (now₀ : ℕ) (k : Client) (tr : Log) (s : Session)
    (h : Run (SessionStep rt k) (.start w₀ now₀) tr s) :
    Run (Step rt) w₀ (chainOf rt k tr) s.world ∧
      (∀ t ∈ tr, ∀ env evs, t.label = .mined env evs → ∃ cfg win landing,
        t.pre.pc = .submit cfg win ∧ t.pre.world.config = some landing ∧
        Landed t.pre.world t.post.world landing (k.mineAccounts rt cfg)) ∧
      (s.pc ≠ .ended .panicked → s.locals.blocksMined.toNat = (counted tr).length ∧
        s.locals.totalRewardBase.toNat = min (2 ^ 64 - 1) (displayed tr) ∧
        (s.pc = .ended .complete ↔ 0 < k.maxBlocks.toNat ∧ (counted tr).length = k.maxBlocks.toNat)) ∧
      paid tr ≤ displayed tr ∧
      ((∀ c ∈ counted tr, c.2.blockHeight.toNat / 378000 = c.1.blockHeight.toNat / 378000) →
        paid tr = displayed tr) := by
  have hbooks := books_run h₀ hw₀ h
  refine ⟨chain_run h, fun t ht env evs hl => ?_, fun hp => ⟨hbooks.blocks hp, hbooks.reward hp, ?_⟩,
    hbooks.paid_le⟩
  · obtain ⟨tr₁, tr₂, -, hr, hst⟩ := h.mem t ht
    obtain ⟨pre, label, post⟩ := t
    dsimp only at hl hr hst ⊢
    subst hl
    obtain ⟨landing, hlanding, -⟩ := (books_run h₀ hw₀ hr).world
    cases hst with
    | @mined cfg win _ _ w' hpc hx =>
      refine ⟨cfg, win, landing, hpc, hlanding, ?_⟩
      rw [Session.mined_world]
      exact landed_of_ok laws (h₀.append (chain_run hr)) hlanding hx
  · rw [← hbooks.blocks hp]
    constructor
    · intro hc
      obtain ⟨hpos, heq⟩ := hbooks.complete hc
      exact ⟨hpos, by rw [heq]⟩
    · rintro ⟨hpos, heq⟩
      by_contra hne
      have hgoing := hbooks.going (by
        by_cases hended : ∃ why, s.pc = .ended why
        · obtain ⟨why, hwhy⟩ := hended
          cases why with
          | complete => exact absurd hwhy hne
          | fetchFailed => exact .inr hwhy
          | panicked => exact absurd hwhy hp
        · exact .inl fun why hwhy => hended ⟨why, hwhy⟩)
      have := mt complete_iff.mpr (Bool.not_eq_true _ ▸ hgoing)
      omega

namespace Landing

/-- A client that wants one block. -/
def client : Client := ⟨Demo.key 30, Demo.key 9, 4, 64, 1⟩

theorem snapshot_config : snapshot.config = some cfg₀ := by simp [cfg₀]

/-- The first fetch begins the search. -/
theorem start_fetched : (Session.start snapshot 0).fetched cfg₀ = ⟨snapshot, 0, .solve cfg₀,
    ⟨0, 0, 0, 0, 0, 0, none⟩⟩ := by
  have hobs : (Locals.init 0).observe 0 cfg₀ = ⟨0, 0, 0, 0, 0, 0, none⟩ := by decide +kernel
  have hstall : ((Locals.init 0).observe 0 cfg₀).stalled 0 = false := by decide +kernel
  unfold Session.fetched
  change (if ((Locals.init 0).observe 0 cfg₀).stalled 0 = true then _ else _) = _
  rw [if_neg (by rw [hstall]; decide)]
  change Session.mk _ _ _ ((Locals.init 0).observe 0 cfg₀) = _
  rw [hobs]
  rfl

theorem client_accounts : client.mineAccounts runtime cfg₀ = accounts := by
  have hmint : cfg₀.mint = Demo.key 10 := by decide +kernel
  have hata : runtime.associatedTokenAddress (Demo.key 30) (Demo.key 10) (Demo.key 9) = Demo.key 130 := by
    decide +kernel
  rw [Client.mineAccounts, hmint]
  exact congrArg (Mine.mk _ _ _ _ · _ _) hata

theorem snapshotAccounts : MineAccounts runtime snapshot cfg₀ accounts where
  signature := by decide +kernel
  config := by decide +kernel
  configSeeds := by decide +kernel
  mint := by decide +kernel
  mintAccount := by decide +kernel
  vault := by decide +kernel
  vaultSeeds := by decide +kernel
  ata := by decide +kernel
  ataAccount := by
    have hnone : snapshot.ledger.accounts accounts.minerAta = none := by decide +kernel
    intro t ht
    rw [hnone] at ht
    cases ht
  slotHashes := rfl

/-- Whatever is submitted is accepted. -/
theorem snapshot_accepted (win : RaceWinner) : ∃ w' evs, execute runtime (Demo.env 9) snapshot
    (.mine (client.mineAccounts runtime cfg₀) win.nonce win.solnIndices) = .ok (w', evs) := by
  have hunder : hashUnderTarget (Demo.key 0) cfg₀.currentTarget = true := by decide +kernel
  have hgood : ¬ BadSlotHashes (List.replicate 48 1) := by
    unfold BadSlotHashes
    decide
  obtain ⟨tr₀, hr₀⟩ := play_run runtime _ (genesis Demo.ledger)
  rw [client_accounts]
  exact mine_accepted runtime_laws (fun _ _ _ _ => splTransfer_funds) hr₀ snapshot_config rfl hunder
    (by decide +kernel) (by decide +kernel) snapshotAccounts (by decide +kernel) rfl hgood

end Landing

/-- A session of one block: it is counted, shown and paid. -/
theorem session_books_demo : ∃ tr s, Run (SessionStep Landing.runtime Landing.client)
    (.start Landing.snapshot 0) tr s ∧ s.pc = .ended .complete ∧ (counted tr).length = 1 ∧
    s.locals.blocksMined = 1 ∧ paid tr = displayed tr := by
  open Landing in
  obtain ⟨tr₀, hr₀⟩ := play_run runtime _ (genesis Demo.ledger)
  obtain ⟨win, hfound⟩ := found
  obtain ⟨w', evs, hx⟩ := snapshot_accepted win
  have hfetch : SessionStep runtime client (.start snapshot 0) .fetched
      ⟨snapshot, 0, .solve cfg₀, ⟨0, 0, 0, 0, 0, 0, none⟩⟩ :=
    start_fetched ▸ .fetched rfl snapshot_config
  have hsolve : SessionStep runtime client ⟨snapshot, 0, .solve cfg₀, ⟨0, 0, 0, 0, 0, 0, none⟩⟩
      (.solved win 3) ⟨snapshot, 0, .submit cfg₀ win, ⟨0, 0, 1, 3, 0, 0, none⟩⟩ :=
    .solved rfl hfound
  have hland : SessionStep runtime client
      ⟨snapshot, 0, .submit cfg₀ win, ⟨0, 0, 1, 3, 0, 0, none⟩⟩ (.mined (Demo.env 9) evs) _ :=
    .mined rfl hx
  have hrun := ((Run.nil.snoc hfetch).snoc hsolve).snoc hland
  obtain ⟨-, -, hsums, -, hsame⟩ := session_books runtime_laws Demo.ledger tr₀ snapshot hr₀ cfg₀
    snapshot_config 0 client _ _ hrun
  have hmined : (⟨0, 0, 1, 3, 0, 0, none⟩ : Locals).mined cfg₀ =
      some ⟨1, 0, 1, 3, 25000000, 0, none⟩ := by decide +kernel
  have hend : (Session.mined ⟨snapshot, 0, .submit cfg₀ win, ⟨0, 0, 1, 3, 0, 0, none⟩⟩ client cfg₀ w') =
      ⟨w', 0, .ended .complete, ⟨1, 0, 1, 3, 25000000, 0, none⟩⟩ := by
    unfold Session.mined
    change Session.resume _ ((⟨0, 0, 1, 3, 0, 0, none⟩ : Locals).mined cfg₀) _ = _
    dsimp only
    rw [hmined]
    rfl
  refine ⟨_, _, hrun, by rw [hend], ?_, by rw [hend], hsame fun c hc => ?_⟩
  · rw [← (hsums (by simp [hend])).1, hend]
    rfl
  · obtain rfl : (cfg₀, cfg₀) = c := by simpa [counted, countedAt, snapshot_config] using hc
    rfl

end Equium.Miner
