import Equium.Program.Token
import Equium.Schemes.Run

/-! @src programs/equium/src/lib.rs | name:Runs of the program | scheme:run

    A run is any sequence of transactions, successful or refused, interleaved with token activity of
    other programs. `Effect` says once what a successful instruction can do, guards included; every
    invariant of the program is an induction over runs with one case per constructor of `Effect`. -/

namespace Equium.Program
open Schemes Equium.Core

variable (rt : Runtime)

/-! ### What a successful instruction does -/

/-- The checks a submission passes, on the config and accounts it was executed with. -/
structure Accepted (cfg : EquiumConfig) (a : Mine) (nonce : Bytes32) (solnIndices : List UInt8) :
    Prop where
  config : a.config = rt.configPda
  seeds : rt.createProgramAddress configSeed cfg.configBump = some a.config
  mint : cfg.mint = a.mint
  vault : cfg.mineableVault = a.mineableVault
  isOpen : cfg.miningOpen = true
  valid : rt.isValidSolution cfg.equihashN cfg.equihashK
    (buildInput cfg.currentChallenge a.miner cfg.blockHeight).toList nonce solnIndices = true
  under : hashUnderTarget (solutionHash rt.toCrates solnIndices
    (buildInput cfg.currentChallenge a.miner cfg.blockHeight)) cfg.currentTarget = true
  rewardPos : 0 < cfg.currentEpochReward.toNat

/-- The transfer `mine` asks the token program for. -/
def rewardTransfer (cfg : EquiumConfig) (a : Mine) (decimals : UInt8) : TransferChecked where
  source := a.mineableVault
  mint := a.mint
  destination := a.minerAta
  authority := a.config
  amount := cfg.currentEpochReward
  decimals := decimals
  signers := a.miner :: (rt.createProgramAddress configSeed cfg.configBump).toList

/-- The transfer `fund_vault` asks the token program for. -/
def fundTransfer (a : FundVault) (decimals : UInt8) : TransferChecked where
  source := a.source
  mint := a.mint
  destination := a.mineableVault
  authority := a.admin
  amount := mineableBase
  decimals := decimals
  signers := [a.admin]

/-- The config `fund_vault` leaves: mining opens, and its timing is anchored to the clock. -/
def openedConfig (cfg : EquiumConfig) (clock : Clock) : EquiumConfig :=
  { cfg with
    currentRoundOpenSlot := clock.slot
    currentRoundOpenUnixTs := clock.unixTimestamp
    lastRetargetUnixTs := clock.unixTimestamp
    miningOpen := true }

/-- All a successful instruction can do: the config and ledger before and after. -/
inductive Effect (env : Env) (L : Ledger) :
    Option EquiumConfig → Ix → EquiumConfig → Ledger → Prop
  | initializeEquium (a : Initialize) (args : InitializeArgs) (hadmin : a.admin = expectedAdmin)
      (hvault : a.mineableVault = rt.vaultPda) (hfresh : L.accounts rt.vaultPda = none) :
      Effect env L none (.initializeEquium a args) (genesisConfig rt env.clock a args)
        (L.set rt.vaultPda ⟨a.mint, rt.configPda, 0⟩)
  | fundVault (a : FundVault) (cfg : EquiumConfig) (decimals : UInt8) (L' : Ledger)
      (hadmin : cfg.admin = a.admin) (hvault : cfg.mineableVault = a.mineableVault)
      (hclosed : cfg.miningOpen = false)
      (htransfer : rt.transferChecked L (fundTransfer a decimals) = some L') :
      Effect env L (some cfg) (.fundVault a) (openedConfig cfg env.clock) L'
  | mine (a : Mine) (nonce : Bytes32) (solnIndices : List UInt8) (cfg cfg' : EquiumConfig)
      (decimals : UInt8) (cumulative : UInt64) (L₁ L' : Ledger)
      (haccepted : Accepted rt cfg a nonce solnIndices)
      (hata : initAtaIfNeeded rt L a = .ok L₁)
      (hcumulative : cumulative.toNat = cfg.cumulativeMined.toNat + cfg.currentEpochReward.toNat)
      (hcap : cumulative.toNat ≤ mineableBase.toNat)
      (htransfer : rt.transferChecked L₁ (rewardTransfer rt cfg a decimals) = some L')
      (hadvance : AdvanceOk rt.toCrates { cfg with cumulativeMined := cumulative } env.clock
        env.slotHashes (.mined a.miner) cfg') :
      Effect env L (some cfg) (.mine a nonce solnIndices) cfg' L'
  | advanceEmptyRound (a : AdvanceEmptyRound) (cfg cfg' : EquiumConfig)
      (hopen : cfg.miningOpen = true)
      (helapsed : cfg.currentRoundOpenSlot.toNat + roundTimeoutSlots.toNat ≤ env.clock.slot.toNat)
      (hadvance : AdvanceOk rt.toCrates cfg env.clock env.slotHashes .empty cfg') :
      Effect env L (some cfg) (.advanceEmptyRound a) cfg' L
  | renounceAdmin (a : RenounceAdmin) (cfg : EquiumConfig) (hadmin : cfg.admin = a.admin)
      (hnot : cfg.adminRenounced = false) :
      Effect env L (some cfg) (.renounceAdmin a)
        { cfg with adminRenounced := true, admin := defaultKey } L
  | setTarget (a : SetTarget) (newTarget : Bytes32) (cfg : EquiumConfig)
      (hadmin : cfg.admin = a.admin) (hnot : cfg.adminRenounced = false) :
      Effect env L (some cfg) (.setTarget a newTarget) { cfg with currentTarget := newTarget } L

variable {rt}

theorem loadConfig_ok {w : World} {key : Pubkey} {cfg : EquiumConfig} :
    loadConfig rt w key = .ok cfg ↔ key = rt.configPda ∧ w.config = some cfg ∧
      rt.createProgramAddress configSeed cfg.configBump = some key := by
  unfold loadConfig
  by_cases hk : key = rt.configPda
  · simp only [hk, if_true, bind_ok, okOr_ok, require_ok, decide_eq_true_eq, pure_ok, true_and]
    constructor
    · rintro ⟨cfg', hc, -, hs, rfl⟩; exact ⟨hc, hs⟩
    · rintro ⟨hc, hs⟩; exact ⟨cfg, hc, (), hs, rfl⟩
  · simp [hk]

theorem initializeEquium_ok {env : Env} {w w' : World} {a : Initialize} {args : InitializeArgs}
    {evs : List Event} (h : initializeEquium rt env w a args = .ok (w', evs)) :
    ∃ cfg' L', w' = ⟨some cfg', L'⟩ ∧
      Effect rt env w.ledger w.config (.initializeEquium a args) cfg' L' := by
  simp only [initializeEquium, bind_ok, require_ok, decide_eq_true_eq, Option.isNone_iff_eq_none,
    pure_ok, Prod.mk.injEq] at h
  obtain ⟨-, hadmin, -, hconf, -, hnone, -, -, -, hvault, -, hfresh, rfl, -⟩ := h
  refine ⟨_, _, rfl, ?_⟩
  rw [hnone, hvault, hconf]
  exact .initializeEquium a args hadmin hvault (hvault ▸ hfresh)

theorem fundVault_ok {env : Env} {w w' : World} {a : FundVault} {evs : List Event}
    (h : fundVault rt env w a = .ok (w', evs)) :
    ∃ cfg' L', w' = ⟨some cfg', L'⟩ ∧ Effect rt env w.ledger w.config (.fundVault a) cfg' L' := by
  simp only [fundVault, bind_ok, require_ok, decide_eq_true_eq, okOr_ok, loadConfig_ok,
    Bool.not_eq_true', pure_ok, Prod.mk.injEq] at h
  obtain ⟨cfg, ⟨-, hcfg, -⟩, -, hadmin, -, -, -, hvault, decimals, -, -, -, -, -, -, -, -, -, -,
    hclosed, L', htransfer, rfl, -⟩ := h
  refine ⟨_, _, rfl, ?_⟩
  rw [hcfg]
  exact .fundVault a cfg decimals L' hadmin hvault hclosed htransfer

theorem mine_ok {env : Env} {w w' : World} {a : Mine} {nonce : Bytes32} {soln : List UInt8}
    {evs : List Event} (h : mine rt env w a nonce soln = .ok (w', evs)) :
    ∃ cfg' L', w' = ⟨some cfg', L'⟩ ∧
      Effect rt env w.ledger w.config (.mine a nonce soln) cfg' L' := by
  simp only [mine, bind_ok, require_ok, decide_eq_true_eq, okOr_ok, loadConfig_ok,
    verifySubmission_ok, pure_ok, Prod.mk.injEq, Prod.exists] at h
  obtain ⟨cfg, ⟨hkey, hcfg, hseeds⟩, -, hmint, -, hvault, decimals, -, -, -, -, -, L₁, hata, -, -,
    -, hopen, hash, ⟨hvalid, rfl, hunder⟩, -, hpos, cumulative, hcum, -, hcap, L', htransfer, cfg',
    h', evs', hadv, rfl, -⟩ := h
  refine ⟨_, _, rfl, ?_⟩
  rw [hcfg]
  exact .mine a nonce soln cfg cfg' decimals cumulative L₁ L'
    { config := hkey, seeds := hseeds, mint := hmint, vault := hvault, isOpen := hopen
      valid := hvalid, under := hunder, rewardPos := UInt64.lt_iff_toNat_lt.mp hpos }
    hata (checkedAdd_some.mp hcum) (UInt64.le_iff_toNat_le.mp hcap) htransfer
    (advanceRound_ok _ hadv).1

theorem advanceEmptyRound_ok {env : Env} {w w' : World} {a : AdvanceEmptyRound}
    {evs : List Event} (h : advanceEmptyRound rt env w a = .ok (w', evs)) :
    ∃ cfg' L', w' = ⟨some cfg', L'⟩ ∧
      Effect rt env w.ledger w.config (.advanceEmptyRound a) cfg' L' := by
  simp only [advanceEmptyRound, bind_ok, require_ok, decide_eq_true_eq, okOr_ok, loadConfig_ok,
    pure_ok, Prod.mk.injEq, Prod.exists] at h
  obtain ⟨cfg, ⟨-, hcfg, -⟩, -, -, -, hopen, elapsed, hsub, -, hge, cfg', h', evs', hadv, rfl, -⟩
    := h
  refine ⟨_, _, rfl, ?_⟩
  rw [hcfg]
  have hsub := checkedSub_some.mp hsub
  have hge : roundTimeoutSlots.toNat ≤ elapsed.toNat := UInt64.le_iff_toNat_le.mp hge
  exact .advanceEmptyRound a cfg cfg' hopen (by omega) (advanceRound_ok _ hadv).1

theorem renounceAdmin_ok {env : Env} {w w' : World} {a : RenounceAdmin} {evs : List Event}
    (h : renounceAdmin rt w a = .ok (w', evs)) :
    ∃ cfg' L', w' = ⟨some cfg', L'⟩ ∧
      Effect rt env w.ledger w.config (.renounceAdmin a) cfg' L' := by
  simp only [renounceAdmin, bind_ok, require_ok, decide_eq_true_eq, loadConfig_ok,
    Bool.not_eq_true', pure_ok, Prod.mk.injEq] at h
  obtain ⟨cfg, ⟨-, hcfg, -⟩, -, hadmin, -, hnot, rfl, -⟩ := h
  refine ⟨_, _, rfl, ?_⟩
  rw [hcfg]
  exact .renounceAdmin a cfg hadmin hnot

theorem setTarget_ok {env : Env} {w w' : World} {a : SetTarget} {t : Bytes32} {evs : List Event}
    (h : setTarget rt w a t = .ok (w', evs)) :
    ∃ cfg' L', w' = ⟨some cfg', L'⟩ ∧
      Effect rt env w.ledger w.config (.setTarget a t) cfg' L' := by
  simp only [setTarget, bind_ok, require_ok, decide_eq_true_eq, loadConfig_ok,
    Bool.not_eq_true', pure_ok, Prod.mk.injEq] at h
  obtain ⟨cfg, ⟨-, hcfg, -⟩, -, hadmin, -, hnot, rfl, -⟩ := h
  refine ⟨_, _, rfl, ?_⟩
  rw [hcfg]
  exact .setTarget a t cfg hadmin hnot

/-- Step lemma of the program: a successful instruction was signed and has an `Effect`. -/
theorem execute_ok {env : Env} {w w' : World} {ix : Ix} {evs : List Event}
    (h : execute rt env w ix = .ok (w', evs)) : rt.canSign ix.signer = true ∧
      ∃ cfg' L', w' = ⟨some cfg', L'⟩ ∧ Effect rt env w.ledger w.config ix cfg' L' := by
  simp only [execute, bind_ok, require_ok] at h
  obtain ⟨-, hsign, h⟩ := h
  refine ⟨hsign, ?_⟩
  cases ix with
  | initializeEquium a args => exact initializeEquium_ok h
  | fundVault a => exact fundVault_ok h
  | mine a nonce soln => exact mine_ok h
  | advanceEmptyRound a => exact advanceEmptyRound_ok h
  | renounceAdmin a => exact renounceAdmin_ok h
  | setTarget a t => exact setTarget_ok h

/-! ### Runs -/

/-- Token activity of other programs: anything, except that only a deposit reaches the vault. -/
structure Outside (vault : Pubkey) (L L' : Ledger) (deposit : ℕ) : Prop where
  absent : L.accounts vault = none → L'.accounts vault = none ∧ deposit = 0
  present : ∀ a, L.accounts vault = some a → ∃ a', L'.accounts vault = some a' ∧
    a'.mint = a.mint ∧ a'.owner = a.owner ∧ a'.amount.toNat = a.amount.toNat + deposit

/-- What happens between two states of a run. -/
inductive Action where
  | ok (env : Env) (ix : Ix) (evs : List Event)
  | err (env : Env) (ix : Ix) (e : Error)
  | outside (deposit : ℕ)

/-- One step of the system. -/
inductive Step (rt : Runtime) : World → Action → World → Prop
  | ok {env : Env} {w w' : World} {ix : Ix} {evs : List Event}
      (h : execute rt env w ix = .ok (w', evs)) : Step rt w (.ok env ix evs) w'
  | err {env : Env} {w : World} {ix : Ix} {e : Error}
      (h : execute rt env w ix = .error e) : Step rt w (.err env ix e) w
  | outside {w : World} {L' : Ledger} {deposit : ℕ}
      (h : Outside rt.vaultPda w.ledger L' deposit) : Step rt w (.outside deposit) ⟨w.config, L'⟩

/-- What third parties sent to the vault in one step. -/
def Action.deposit : Action → ℕ
  | .outside d => d
  | _ => 0

/-- A step that is no successful instruction: the config stays, and the vault can only gain. -/
structure Quiet (rt : Runtime) (l : Action) (L L' : Ledger) : Prop where
  label : ∀ env ix evs, l ≠ .ok env ix evs
  vault : Outside rt.vaultPda L L' l.deposit

/-- A recorded success was signed and had its effect. -/
theorem Step.effect {env : Env} {w w' : World} {ix : Ix} {evs : List Event}
    (h : Step rt w (.ok env ix evs) w') : rt.canSign ix.signer = true ∧
      ∃ cfg' L', w' = ⟨some cfg', L'⟩ ∧ Effect rt env w.ledger w.config ix cfg' L' := by
  cases h with
  | ok hx => exact execute_ok hx

/-- Every step is a success or quiet. -/
theorem Step.ok_or_quiet {w w' : World} {l : Action} (h : Step rt w l w') :
    (∃ env ix evs, l = .ok env ix evs) ∨
      (w' = ⟨w.config, w'.ledger⟩ ∧ Quiet rt l w.ledger w'.ledger) := by
  cases h with
  | @ok env _ _ ix evs hx => exact .inl ⟨env, ix, evs, rfl⟩
  | err hx => exact .inr ⟨rfl, by simp, fun h => ⟨h, rfl⟩, fun a h => ⟨a, h, rfl, rfl, rfl⟩⟩
  | outside ho => exact .inr ⟨rfl, by simp, ho⟩

/-- The world before `initialize`: no config account. -/
def genesis (L : Ledger) : World := ⟨none, L⟩

abbrev Record := List (Taken World Action)

/-- Induction on the runs of the program: `N` holds until `initialize`, `I` from then on. -/
theorem run_phases {N : Record → Ledger → Prop} {I : Record → EquiumConfig → Ledger → Prop}
    {L₀ : Ledger} {tr : Record} {w : World} (hstart : N [] L₀)
    (hbefore : ∀ tr l L L', Quiet rt l L L' → N tr L →
      N (tr ++ [⟨⟨none, L⟩, l, ⟨none, L'⟩⟩]) L')
    (hinit : ∀ tr env ix evs L cfg' L', Effect rt env L none ix cfg' L' → N tr L →
      I (tr ++ [⟨⟨none, L⟩, .ok env ix evs, ⟨some cfg', L'⟩⟩]) cfg' L')
    (hquiet : ∀ tr l cfg L L', Quiet rt l L L' → I tr cfg L →
      I (tr ++ [⟨⟨some cfg, L⟩, l, ⟨some cfg, L'⟩⟩]) cfg L')
    (hok : ∀ tr env ix evs cfg L cfg' L', rt.canSign ix.signer = true →
      Effect rt env L (some cfg) ix cfg' L' → I tr cfg L →
      I (tr ++ [⟨⟨some cfg, L⟩, .ok env ix evs, ⟨some cfg', L'⟩⟩]) cfg' L')
    (h : Run (Step rt) (genesis L₀) tr w) :
    (w.config = none → N tr w.ledger) ∧ ∀ cfg, w.config = some cfg → I tr cfg w.ledger := by
  refine h.inv (fun tr w => (w.config = none → N tr w.ledger) ∧
    ∀ cfg, w.config = some cfg → I tr cfg w.ledger) ⟨fun _ => hstart, by simp [genesis]⟩ ?_
  rintro tr ⟨config, L⟩ l w' - ⟨hnone, hsome⟩ hst
  rcases hst.ok_or_quiet with ⟨env, ix, evs, rfl⟩ | ⟨hw', hq⟩
  · obtain ⟨hs, cfg', L', rfl, he⟩ := hst.effect
    refine ⟨by simp, ?_⟩
    rintro _ ⟨⟩
    cases config with
    | none => exact hinit tr env ix evs L cfg' L' he (hnone rfl)
    | some cfg => exact hok tr env ix evs cfg L cfg' L' hs he (hsome cfg rfl)
  · rw [hw']
    cases config with
    | none => exact ⟨fun _ => hbefore tr l L _ hq (hnone rfl), by simp⟩
    | some cfg =>
      refine ⟨by simp, ?_⟩
      rintro _ ⟨⟩
      exact hquiet tr l cfg L _ hq (hsome cfg rfl)

/-- The config a successful `mine` was verified against. -/
def minedAt (t : Taken World Action) : Option EquiumConfig :=
  match t.label with
  | .ok _ (.mine _ _ _) _ => t.pre.config
  | _ => none

/-- The config a successful `advance_empty_round` closed. -/
def skippedAt (t : Taken World Action) : Option EquiumConfig :=
  match t.label with
  | .ok _ (.advanceEmptyRound _) _ => t.pre.config
  | _ => none

/-- Heights closed by a successful `mine`, oldest first. -/
def minedHeights (tr : Record) : List UInt64 := (tr.filterMap minedAt).map (·.blockHeight)

/-- Heights closed by a successful `advance_empty_round`, oldest first. -/
def skippedHeights (tr : Record) : List UInt64 := (tr.filterMap skippedAt).map (·.blockHeight)

/-- The clock a transaction was executed with. -/
def clockAt (t : Taken World Action) : Option Clock :=
  match t.label with
  | .ok env _ _ => some env.clock
  | .err env _ _ => some env.clock
  | .outside _ => none

/-- The clocks of a run, oldest first. -/
def clocks (tr : Record) : List Clock := tr.filterMap clockAt

theorem clocks_concat (tr : Record) (t : Taken World Action) :
    clocks (tr ++ [t]) = clocks tr ++ (clockAt t).toList := by
  cases h : clockAt t <;> simp [clocks, h]

/-- A quiet step closes no round. -/
theorem Quiet.closes {l : Action} {L L' : Ledger} (h : Quiet rt l L L') (w w' : World) :
    minedAt ⟨w, l, w'⟩ = none ∧ skippedAt ⟨w, l, w'⟩ = none := by
  cases l with
  | ok env ix evs => exact absurd rfl (h.label env ix evs)
  | err => exact ⟨rfl, rfl⟩
  | outside => exact ⟨rfl, rfl⟩

/-- A successful mine is recorded with the config it was verified against. -/
theorem minedAt_step {t : Taken World Action} {cfg : EquiumConfig} (hm : minedAt t = some cfg)
    (hst : Step rt t.pre t.label t.post) : ∃ env a nonce soln evs cfg' L',
      t.label = .ok env (.mine a nonce soln) evs ∧ t.pre.config = some cfg ∧
      t.post = ⟨some cfg', L'⟩ ∧ rt.canSign a.miner = true ∧
      Effect rt env t.pre.ledger (some cfg) (.mine a nonce soln) cfg' L' := by
  obtain ⟨pre, label, post⟩ := t
  dsimp only at hst ⊢
  rcases hst.ok_or_quiet with ⟨env, ix, evs, rfl⟩ | ⟨-, hq⟩
  · cases ix with
    | mine a nonce soln =>
      obtain ⟨hsign, cfg', L', rfl, he⟩ := hst.effect
      have hpre : pre.config = some cfg := hm
      exact ⟨env, a, nonce, soln, evs, cfg', L', rfl, hpre, rfl, hsign, hpre ▸ he⟩
    | _ => simp [minedAt] at hm
  · rw [(hq.closes pre post).1] at hm
    cases hm

/-! ### Playing transactions -/

/-- Execute transactions one after the other; a refused one leaves no effect. -/
def play (rt : Runtime) (w : World) : List (Env × Ix) → World
  | [] => w
  | (env, ix) :: txs =>
    match execute rt env w ix with
    | .ok (w', _) => play rt w' txs
    | .error _ => play rt w txs

/-- The steps they take. -/
def record (rt : Runtime) (w : World) : List (Env × Ix) → Record
  | [] => []
  | (env, ix) :: txs =>
    match execute rt env w ix with
    | .ok (w', evs) => ⟨w, .ok env ix evs, w'⟩ :: record rt w' txs
    | .error e => ⟨w, .err env ix e, w⟩ :: record rt w txs

theorem record_run (rt : Runtime) (txs : List (Env × Ix)) (w : World) :
    Run (Step rt) w (record rt w txs) (play rt w txs) := by
  induction txs generalizing w with
  | nil => exact .nil
  | cons tx txs ih =>
    obtain ⟨env, ix⟩ := tx
    rw [play, record]
    cases hx : execute rt env w ix with
    | ok r => exact (Run.nil.snoc (Step.ok hx)).append (ih r.1)
    | error e => exact (Run.nil.snoc (Step.err hx)).append (ih w)

/-- Each transaction is recorded with its clock, and nothing else is. -/
theorem record_labels (rt : Runtime) (txs : List (Env × Ix)) (w : World) :
    clocks (record rt w txs) = txs.map (fun tx => tx.1.clock) ∧
      ∀ t ∈ record rt w txs, ∀ env ix evs, t.label = .ok env ix evs → (env, ix) ∈ txs := by
  induction txs generalizing w with
  | nil => exact ⟨rfl, by simp [record]⟩
  | cons tx txs ih =>
    obtain ⟨env, ix⟩ := tx
    rw [record]
    cases hx : execute rt env w ix with
    | ok r =>
      obtain ⟨hc, hl⟩ := ih r.1
      refine ⟨by simpa [clocks, clockAt] using hc, ?_⟩
      intro t ht env' ix' evs' hlab
      rcases List.mem_cons.mp ht with rfl | ht
      · cases hlab
        exact List.mem_cons_self
      · exact List.mem_cons_of_mem _ (hl t ht env' ix' evs' hlab)
    | error e =>
      obtain ⟨hc, hl⟩ := ih w
      refine ⟨by simpa [clocks, clockAt] using hc, ?_⟩
      intro t ht env' ix' evs' hlab
      rcases List.mem_cons.mp ht with rfl | ht
      · cases hlab
      · exact List.mem_cons_of_mem _ (hl t ht env' ix' evs' hlab)

/-- Any list of transactions is a run. -/
theorem play_record (rt : Runtime) (txs : List (Env × Ix)) (w : World) :
    ∃ tr, Run (Step rt) w tr (play rt w txs) ∧ (clocks tr = txs.map fun tx => tx.1.clock) ∧
      ∀ t ∈ tr, ∀ env ix evs, t.label = .ok env ix evs → (env, ix) ∈ txs :=
  ⟨record rt w txs, record_run rt txs w, record_labels rt txs w⟩

theorem play_run (rt : Runtime) (txs : List (Env × Ix)) (w : World) :
    ∃ tr, Run (Step rt) w tr (play rt w txs) := by
  obtain ⟨tr, hr, -⟩ := play_record rt txs w
  exact ⟨tr, hr⟩

/-! A concrete cluster: the reference token program, two fixed addresses for the program's
    accounts, and one byte string the verifier accepts. -/

namespace Demo

def key (b : UInt8) : Pubkey := Vector.replicate 32 b

def runtime : Runtime where
  sha256 _ := key 0
  isValidSolution _ _ _ _ soln := soln = [1]
  blake2b n _ _ := List.replicate n 0
  createProgramAddress seed bump :=
    if bump = 255 then some (if seed = configSeed then key 1 else key 2) else none
  findProgramAddress seed := (if seed = configSeed then key 1 else key 2, 255)
  associatedTokenAddress owner _ _ := owner.map (· + 100)
  slotHashesId := key 3
  canSign k := k ≠ key 1 && k ≠ key 2 && k ≠ defaultKey
  transferChecked := splTransfer

theorem runtime_laws : TokenLaws runtime where
  moved := splTransfer_moved
  pda := by decide +kernel

/-- The deployer holds the whole supply of mint `10` in account `20`. -/
def ledger : Ledger where
  accounts k := if k = key 20 then some ⟨key 10, expectedAdmin, totalSupplyBase⟩ else none
  mints k := if k = key 10 then some 6 else none

def env (slot : UInt64) : Env := ⟨⟨slot, 1000⟩, some (List.replicate 48 1)⟩

/-- Set up, open, mine one block, let one round time out, hand over the admin key. -/
def txs : List (Env × Ix) :=
  [(env 5, .initializeEquium ⟨expectedAdmin, key 1, key 10, key 2⟩ ⟨maxTarget, 96, 5⟩),
   (env 6, .fundVault ⟨expectedAdmin, key 1, key 10, key 20, key 2⟩),
   (env 7, .mine ⟨key 30, key 1, key 10, key 2, key 130, key 9, key 3⟩ (key 0) [1]),
   (env 400, .advanceEmptyRound ⟨key 30, key 1, key 3⟩),
   (env 401, .renounceAdmin ⟨expectedAdmin, key 1⟩)]

def world : World := play runtime (genesis ledger) txs

/-- The config the demonstration run ends with. -/
def config : EquiumConfig := world.config.get (by decide +kernel)

theorem world_config : world.config = some config := by simp [config]

theorem config_eq : config = {
    mint := key 10
    mineableVault := key 2
    mineableVaultBump := 255
    configBump := 255
    genesisSlot := 5
    genesisUnixTs := 1000
    equihashN := 96
    equihashK := 5
    currentTarget := maxTarget
    blockHeight := 2
    currentChallenge := key 0
    currentRoundOpenSlot := 400
    currentRoundOpenUnixTs := 1000
    lastWinner := key 30
    currentEpochReward := 25000000
    nextHalvingBlock := 378000
    nextRetargetBlock := 60
    lastRetargetUnixTs := 1000
    cumulativeMined := 25000000
    emptyRounds := 1
    miningOpen := true
    admin := defaultKey
    adminRenounced := true } := by decide +kernel

theorem world_run : ∃ tr, Run (Step runtime) (genesis ledger) tr world :=
  play_run runtime txs (genesis ledger)

end Demo

end Equium.Program
