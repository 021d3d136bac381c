import Equium.Program.Replay
import Equium.Core.Target

/-! @src programs/equium/src/round.rs, schedule.rs, instructions/fund_vault.rs, initialize.rs |
    name:Retarget windows | scheme:run-invariant

    The retarget anchor is written by three instructions. `Timing` ties it to the record: rounds are
    opened in order, each once, and the anchor is the clock reading at which the first round of the
    current window was opened. What a retarget then measures is one window of 60 rounds. -/

namespace Equium.Program
open Schemes Equium.Core

variable {rt : Runtime}

/-- The instructions that open a round: `fund_vault` opens round 0, a transition the next one. -/
def Ix.opensRound : Ix → Bool
  | .fundVault _ => true
  | .mine _ _ _ => true
  | .advanceEmptyRound _ => true
  | _ => false

/-- The round a successful instruction opened, and the clock it read. -/
def opensAt (t : Taken World Action) : Option (ℕ × Clock) :=
  match t.label with
  | .ok env ix _ =>
    if ix.opensRound then t.post.config.map fun cfg => (cfg.blockHeight.toNat, env.clock) else none
  | _ => none

/-- The rounds opened over a run, oldest first. -/
def opened (tr : Record) : List (ℕ × Clock) := tr.filterMap opensAt

/-- The clock at which a round was opened. -/
def openClock (tr : Record) (h : ℕ) : Option Clock :=
  ((opened tr).find? fun r => r.1 = h).map (·.2)

/-- The timestamp at which a round was opened. -/
def openTs (tr : Record) (h : ℕ) : Option Int64 := (openClock tr h).map (·.unixTimestamp)

/-- Rounds are opened in order, each once; the stored open slot is that of the current round, the
    retarget anchor that of the first round of the current window. -/
structure Timing (tr : Record) (cfg : EquiumConfig) : Prop where
  closed : cfg.miningOpen = false → opened tr = [] ∧ cfg.blockHeight = 0
  rounds : cfg.miningOpen = true →
    (opened tr).map (·.1) = List.range (cfg.blockHeight.toNat + 1)
  current : cfg.miningOpen = true →
    (openClock tr cfg.blockHeight.toNat).map (·.slot) = some cfg.currentRoundOpenSlot
  anchor : cfg.miningOpen = true →
    openTs tr (60 * (cfg.blockHeight.toNat / 60)) = some cfg.lastRetargetUnixTs

/-! ### The record of openings -/

theorem opened_concat (tr : Record) (t : Taken World Action) :
    opened (tr ++ [t]) = opened tr ++ (opensAt t).toList := by
  cases h : opensAt t <;> simp [opened, h]

/-- What was opened stays opened. -/
theorem openClock_append {tr : Record} {h : ℕ} {c : Clock} (hc : openClock tr h = some c)
    (tr' : Record) : openClock (tr ++ tr') h = some c := by
  obtain ⟨r, hr, rfl⟩ := Option.map_eq_some_iff.mp hc
  simp [openClock, opened, List.find?_append, show (tr.filterMap opensAt).find? _ = _ from hr]

theorem openTs_append {tr : Record} {h : ℕ} {ts : Int64} (hc : openTs tr h = some ts)
    (tr' : Record) : openTs (tr ++ tr') h = some ts := by
  obtain ⟨c, hcl, rfl⟩ := Option.map_eq_some_iff.mp hc
  rw [openTs, openClock_append hcl]
  rfl

/-- A round not opened before is opened by the step that says so. -/
theorem openClock_new {tr : Record} {t : Taken World Action} {h : ℕ} {c : Clock}
    (hnew : h ∉ (opened tr).map (·.1)) (ht : opensAt t = some (h, c)) :
    openClock (tr ++ [t]) h = some c := by
  have hnone : (opened tr).find? (fun r => r.1 = h) = none := by
    rw [List.find?_eq_none]
    intro r hr he
    exact hnew (List.mem_map.mpr ⟨r, hr, of_decide_eq_true he⟩)
  rw [openClock, opened_concat, ht, List.find?_append, hnone]
  simp

theorem Quiet.opensAt {l : Action} {L L' : Ledger} (h : Quiet rt l L L') (w w' : World) :
    opensAt ⟨w, l, w'⟩ = none := by
  cases l with
  | ok env ix evs => exact absurd rfl (h.label env ix evs)
  | err => rfl
  | outside => rfl

/-! ### The invariant -/

/-- A step that opens no round and keeps the timing fields. -/
theorem timing_frame {tr : Record} {t : Taken World Action} {cfg cfg' : EquiumConfig}
    (h : Timing tr cfg) (ht : opensAt t = none) (ho : cfg'.miningOpen = cfg.miningOpen)
    (hb : cfg'.blockHeight = cfg.blockHeight)
    (hs : cfg'.currentRoundOpenSlot = cfg.currentRoundOpenSlot)
    (hl : cfg'.lastRetargetUnixTs = cfg.lastRetargetUnixTs) : Timing (tr ++ [t]) cfg' where
  closed hc := by
    rw [opened_concat, ht, hb]
    simpa using h.closed (ho ▸ hc)
  rounds hop := by
    rw [opened_concat, ht, hb]
    simpa using h.rounds (ho ▸ hop)
  current hop := by
    obtain ⟨c, hc, hcs⟩ := Option.map_eq_some_iff.mp (h.current (ho ▸ hop))
    rw [hb, hs, openClock_append hc, ← hcs]
    rfl
  anchor hop := by
    rw [hb, hl]
    exact openTs_append (h.anchor (ho ▸ hop)) [t]

/-- Rounds not yet opened: the one after the current one. -/
theorem Timing.next_new {tr : Record} {cfg : EquiumConfig} (h : Timing tr cfg)
    (ho : cfg.miningOpen = true) : cfg.blockHeight.toNat + 1 ∉ (opened tr).map (·.1) := by
  rw [h.rounds ho]
  simp

/-- A transition opens the next round, and moves the anchor when a window starts. -/
theorem timing_advance {c : Crates} {tr : Record} {t : Taken World Action}
    {cfg cfg' : EquiumConfig} {env : Env} {ix : Ix} {evs : List Event} {L' : Ledger}
    {r : RoundTransition} (h : Timing tr cfg) (ho : cfg.miningOpen = true)
    (ha : AdvanceOk c cfg env.clock env.slotHashes r cfg')
    (hl : t.label = .ok env ix evs) (hix : ix.opensRound = true)
    (hpost : t.post = ⟨some cfg', L'⟩) : Timing (tr ++ [t]) cfg' := by
  have hh := ha.height
  have ht : opensAt t = some (cfg.blockHeight.toNat + 1, env.clock) := by
    simp [opensAt, hl, hix, hpost, hh]
  have hclock := openClock_new (h.next_new ho) ht
  have ho' : cfg'.miningOpen = true := ha.miningOpen.trans ho
  refine ⟨fun hc => ?_, fun _ => ?_, fun _ => ?_, fun _ => ?_⟩
  · rw [ho'] at hc
    cases hc
  · rw [opened_concat, ht, List.map_append, h.rounds ho, hh, List.range_succ (n := _ + 1)]
    rfl
  · rw [hh, hclock, ha.openSlot]
    rfl
  · rw [hh]
    by_cases hb : (cfg.blockHeight.toNat + 1) % 60 = 0
    · -- the new round starts a window: it is its own anchor
      have hround : 60 * ((cfg.blockHeight.toNat + 1) / 60) = cfg.blockHeight.toNat + 1 := by omega
      rw [hround, openTs, hclock, (ha.retarget hb).2.1]
      rfl
    · have hround : (cfg.blockHeight.toNat + 1) / 60 = cfg.blockHeight.toNat / 60 := by omega
      rw [hround, (ha.noRetarget hb).2.1]
      exact openTs_append (h.anchor ho) [t]

/-- Step lemma: every successful instruction keeps the timing. -/
theorem timing_step {tr : Record} {env : Env} {w : World} {ix : Ix} {evs : List Event}
    {cfg cfg' : EquiumConfig} {L L' : Ledger} (h : Timing tr cfg)
    (he : Effect rt env L (some cfg) ix cfg' L') :
    Timing (tr ++ [⟨w, .ok env ix evs, ⟨some cfg', L'⟩⟩]) cfg' := by
  cases he with
  | renounceAdmin a => exact timing_frame h rfl rfl rfl rfl rfl
  | setTarget a t => exact timing_frame h rfl rfl rfl rfl rfl
  | advanceEmptyRound a _ _ hopen hel hadv => exact timing_advance h hopen hadv rfl rfl rfl
  | mine a nonce soln _ _ d cumulative L₁ _ hacc hata hcum hcap htr hadv =>
    -- the transition starts from the config with the new payout: same timing fields
    have hsame : Timing tr { cfg with cumulativeMined := cumulative } :=
      ⟨h.closed, h.rounds, h.current, h.anchor⟩
    exact timing_advance hsame hacc.isOpen hadv rfl rfl rfl
  | fundVault a _ d _ hadmin hvault hclosed htr =>
    obtain ⟨hnone, hzero⟩ := h.closed hclosed
    have ht : opensAt ⟨w, .ok env (.fundVault a) evs, ⟨some (openedConfig cfg env.clock), L'⟩⟩ =
        some (0, env.clock) := by
      simp [opensAt, Ix.opensRound, openedConfig, hzero]
    have hclock := @openClock_new tr _ _ _ (by rw [hnone]; simp) ht
    have hb : (openedConfig cfg env.clock).blockHeight.toNat = 0 := by
      simp [openedConfig, hzero]
    refine ⟨(fun hc => by cases hc), fun _ => ?_, fun _ => ?_, fun _ => ?_⟩
    · rw [opened_concat, hnone, ht, hb]
      rfl
    · rw [hb, hclock]
      rfl
    · rw [hb, openTs, hclock]
      rfl

/-- Run lemma: the timing holds after every run; before `initialize` no round is open. -/
theorem timing_run {L : Ledger} {tr : Record} {w : World} (h : Run (Step rt) (genesis L) tr w) :
    (w.config = none → opened tr = []) ∧ ∀ cfg, w.config = some cfg → Timing tr cfg := by
  refine run_phases (N := fun tr _ => opened tr = []) (I := fun tr cfg _ => Timing tr cfg)
    rfl ?_ ?_ ?_ ?_ h
  · intro tr l L L' hq hN
    rw [opened_concat, hN, hq.opensAt]
    rfl
  · intro tr env ix evs L cfg' L' he hN
    cases he with
    | initializeEquium a args =>
      refine ⟨fun _ => ⟨?_, rfl⟩, (fun hc => by cases hc), (fun hc => by cases hc),
        fun hc => by cases hc⟩
      rw [opened_concat, hN]
      rfl
  · intro tr l cfg L L' hq ht
    exact timing_frame ht (hq.opensAt _ _) rfl rfl rfl rfl
  · intro tr env ix evs cfg L cfg' L' _ he ht
    exact timing_step ht he

/-! ### One window -/

/-- Saturation is harmless: the measured seconds and the integer difference fall in the same band. -/
theorem nextTarget_window (target : Bytes32) (cfg : EquiumConfig) (clock : Clock) :
    ∃ s : UInt64,
      (s.toNat : ℤ) = max 0 (clock.unixTimestamp.toInt - cfg.lastRetargetUnixTs.toInt) ∧
      nextTarget target (actualSeconds cfg clock) = nextTarget target s := by
  have h₁ := clock.unixTimestamp.toInt_lt
  have h₂ := clock.unixTimestamp.le_toInt
  have h₃ := cfg.lastRetargetUnixTs.toInt_lt
  have h₄ := cfg.lastRetargetUnixTs.le_toInt
  have hlt : clock.unixTimestamp.toInt - cfg.lastRetargetUnixTs.toInt < 2 ^ 64 := by omega
  have hact : (actualSeconds cfg clock).toNat = (max 0 (max (-2 ^ 63) (min (2 ^ 63 - 1)
      (clock.unixTimestamp.toInt - cfg.lastRetargetUnixTs.toInt)))).toNat := by
    rw [actualSeconds, maxZero_toNat, saturatingSub_toInt]
  generalize clock.unixTimestamp.toInt - cfg.lastRetargetUnixTs.toInt = δ at *
  have hs : (UInt64.ofNat (max 0 δ).toNat).toNat = (max 0 δ).toNat := by
    rw [UInt64.toNat_ofNat', Nat.mod_eq_of_lt]
    omega
  refine ⟨UInt64.ofNat (max 0 δ).toNat, by rw [hs]; omega, ?_⟩
  rcases lt_or_ge δ (2 ^ 63) with hδ | hδ
  · have heq : actualSeconds cfg clock = UInt64.ofNat (max 0 δ).toNat := by
      rw [← UInt64.toNat_inj, hact, hs]
      omega
    rw [heq]
  · -- only here does the subtraction saturate, and both readings are beyond the upper clamp
    rw [nextTarget_eq, nextTarget_eq, if_neg (by omega), if_pos (by omega), if_neg (by omega),
      if_pos (by omega)]

/-- What a closing instruction does to the target and the anchor. -/
theorem Effect.retargets {env : Env} {L L' : Ledger} {cfg cfg' : EquiumConfig} {ix : Ix}
    (he : Effect rt env L (some cfg) ix cfg' L') (hc : ix.closesRound = true) :
    cfg.miningOpen = true ∧ cfg'.blockHeight.toNat = cfg.blockHeight.toNat + 1 ∧
      (cfg'.blockHeight.toNat % 60 = 0 →
        nextTarget cfg.currentTarget (actualSeconds cfg env.clock) = some cfg'.currentTarget) ∧
      (cfg'.blockHeight.toNat % 60 ≠ 0 → cfg'.currentTarget = cfg.currentTarget) := by
  cases he with
  | mine a nonce soln _ _ d cumulative L₁ _ hacc hata hcum hcap htr hadv =>
    have hh := hadv.height
    exact ⟨hacc.isOpen, hh, fun hb => (hadv.retarget (hh ▸ hb)).1,
      fun hb => (hadv.noRetarget (hh ▸ hb)).1⟩
  | advanceEmptyRound a _ _ hopen hel hadv =>
    have hh := hadv.height
    exact ⟨hopen, hh, fun hb => (hadv.retarget (hh ▸ hb)).1,
      fun hb => (hadv.noRetarget (hh ▸ hb)).1⟩
  | _ => cases hc

/-- A recorded transition: the rounds it closed and opened, and what became of the target. -/
structure Transition (tr : Record) (env : Env) (cfg cfg' : EquiumConfig) : Prop where
  height : cfg'.blockHeight.toNat = cfg.blockHeight.toNat + 1
  opens : openClock tr cfg'.blockHeight.toNat = some env.clock
  previous : (openClock tr cfg.blockHeight.toNat).map (·.slot) = some cfg.currentRoundOpenSlot
  window : cfg'.blockHeight.toNat % 60 = 0 →
    openTs tr (cfg'.blockHeight.toNat - 60) = some cfg.lastRetargetUnixTs ∧
      nextTarget cfg.currentTarget (actualSeconds cfg env.clock) = some cfg'.currentTarget
  between : cfg'.blockHeight.toNat % 60 ≠ 0 → cfg'.currentTarget = cfg.currentTarget

/-- Every successful closing instruction found in a record is such a transition. -/
theorem transition_of_mem {L : Ledger} {tr : Record} {w : World} {t : Taken World Action}
    {env : Env} {ix : Ix} {evs : List Event} (h : Run (Step rt) (genesis L) tr w) (ht : t ∈ tr)
    (hl : t.label = .ok env ix evs) (hc : ix.closesRound = true) :
    ∃ cfg cfg', t.pre.config = some cfg ∧ t.post.config = some cfg' ∧
      Effect rt env t.pre.ledger (some cfg) ix cfg' t.post.ledger ∧ Transition tr env cfg cfg' := by
  obtain ⟨tr₁, tr₂, rfl, hr, hst⟩ := h.mem t ht
  rw [hl] at hst
  obtain ⟨-, cfg', L', hpost, he⟩ := hst.effect
  cases hpre : t.pre.config with
  | none =>
    rw [hpre] at he
    cases he with
    | initializeEquium => cases hc
  | some cfg =>
    rw [hpre] at he
    obtain ⟨hopen, hh, hre, hbe⟩ := he.retargets hc
    have htim := (timing_run hr).2 cfg hpre
    have hix : ix.opensRound = true := by
      cases ix <;> first | rfl | cases hc
    have hat : opensAt t = some (cfg'.blockHeight.toNat, env.clock) := by
      simp [opensAt, hl, hix, hpost]
    have hnew : cfg'.blockHeight.toNat ∉ (opened tr₁).map (·.1) := hh ▸ htim.next_new hopen
    refine ⟨cfg, cfg', rfl, by rw [hpost], by rw [hpost]; exact he, hh, ?_, ?_,
      fun hb => ⟨?_, hre hb⟩, hbe⟩
    · rw [← List.singleton_append, ← List.append_assoc]
      exact openClock_append (openClock_new hnew hat) tr₂
    · obtain ⟨c, hcl, hs⟩ := Option.map_eq_some_iff.mp (htim.current hopen)
      rw [openClock_append hcl, ← hs]
      rfl
    · have hround : cfg'.blockHeight.toNat - 60 = 60 * (cfg.blockHeight.toNat / 60) := by omega
      rw [hround]
      exact openTs_append (htim.anchor hopen) _

/-- Round 0 is opened by `fund_vault`: a transition opens a later one. -/
theorem opens_zero {L : Ledger} {tr : Record} {w : World} {t : Taken World Action} {c : Clock}
    (h : Run (Step rt) (genesis L) tr w) (ht : t ∈ tr) (hc : opensAt t = some (0, c)) :
    ∃ env a evs, t.label = .ok env (.fundVault a) evs := by
  unfold opensAt at hc
  split at hc
  · rename_i env ix evs hl
    split_ifs at hc with hix
    have hlater : ix.closesRound = true → False := fun hcl => by
      obtain ⟨cfg, cfg', -, hpost, -, hT⟩ := transition_of_mem h ht hl hcl
      have hh := hT.height
      simp only [hpost, Option.map_some, Option.some.injEq, Prod.mk.injEq] at hc
      omega
    cases ix with
    | fundVault a => exact ⟨env, a, evs, hl⟩
    | mine => exact (hlater rfl).elim
    | advanceEmptyRound => exact (hlater rfl).elim
    | _ => cases hix
  · cases hc

/-- RETARGET WINDOWS TILE: rounds are opened in order, each once, round 0 by `fund_vault`; the stored
    anchor is the timestamp at which round `60 * (height / 60)` was opened; and a transition into `H`
    applies `next_target` exactly when `60 ∣ H`, to the integer seconds between the openings of
    `H - 60` and `H`. -/
theorem retarget_windows_tile (L : Ledger) (tr : Record) (w : World)
    (h : Run (Step rt) (genesis L) tr w) :
    (∀ cfg, w.config = some cfg → cfg.miningOpen = true →
        (opened tr).map (·.1) = List.range (cfg.blockHeight.toNat + 1) ∧
        openTs tr (60 * (cfg.blockHeight.toNat / 60)) = some cfg.lastRetargetUnixTs) ∧
      (∀ t ∈ tr, ∀ c, opensAt t = some (0, c) →
        ∃ env a evs, t.label = .ok env (.fundVault a) evs) ∧
      ∀ t ∈ tr, ∀ env ix evs, t.label = .ok env ix evs → ix.closesRound = true →
        ∃ cfg cfg', t.pre.config = some cfg ∧ t.post.config = some cfg' ∧
          cfg'.blockHeight.toNat = cfg.blockHeight.toNat + 1 ∧
          (cfg'.blockHeight.toNat % 60 = 0 → ∃ (a b : Int64) (s : UInt64),
            openTs tr (cfg'.blockHeight.toNat - 60) = some a ∧
            openTs tr cfg'.blockHeight.toNat = some b ∧
            (s.toNat : ℤ) = max 0 (b.toInt - a.toInt) ∧
            nextTarget cfg.currentTarget s = some cfg'.currentTarget) ∧
          (cfg'.blockHeight.toNat % 60 ≠ 0 → cfg'.currentTarget = cfg.currentTarget) := by
  refine ⟨fun cfg hw ho => ?_, fun t ht c hc => opens_zero h ht hc,
    fun t ht env ix evs hl hc => ?_⟩
  · have htim := (timing_run h).2 cfg hw
    exact ⟨htim.rounds ho, htim.anchor ho⟩
  · obtain ⟨cfg, cfg', hpre, hpost, -, hT⟩ := transition_of_mem h ht hl hc
    refine ⟨cfg, cfg', hpre, hpost, hT.height, fun hb => ?_, hT.between⟩
    obtain ⟨ha, hnext⟩ := hT.window hb
    obtain ⟨s, hs, heq⟩ := nextTarget_window cfg.currentTarget cfg env.clock
    exact ⟨_, _, s, ha, by rw [openTs, hT.opens]; rfl, hs, heq ▸ hnext⟩

/-! A window on the demonstration cluster: nobody mines, every round times out after 150 slots, and
    the clock counts no second. -/

namespace Demo

def idleTxs : List (Env × Ix) :=
  [(env 5, .initializeEquium ⟨expectedAdmin, key 1, key 10, key 2⟩ ⟨maxTarget, 96, 5⟩),
   (env 6, .fundVault ⟨expectedAdmin, key 1, key 10, key 20, key 2⟩)] ++
  (List.range 59).map fun i =>
    (env (156 + 150 * UInt64.ofNat i), .advanceEmptyRound ⟨key 30, key 1, key 3⟩)

/-- Fifty-nine rounds have timed out. -/
def idleWorld : World := play runtime (genesis ledger) idleTxs

/-- The instruction that closes the sixtieth. -/
def lastIx : Ix := .advanceEmptyRound ⟨key 30, key 1, key 3⟩

/-- Round 60 is open, with a target below the one the window started from. -/
def hardened : Except Error (World × List Event) → Bool
  | .ok (⟨some cfg, _⟩, _) => cfg.blockHeight = 60 ∧ cfg.miningOpen ∧
    targetNat cfg.currentTarget < targetNat maxTarget
  | _ => false

/-- The run up to the retarget. -/
theorem idle_run : ∃ tr cfg cfg' L' evs,
    Run (Step runtime) (genesis ledger)
      (tr ++ [⟨idleWorld, .ok (env 9006) lastIx evs, ⟨some cfg', L'⟩⟩]) ⟨some cfg', L'⟩ ∧
    idleWorld.config = some cfg ∧ cfg.currentTarget = maxTarget ∧ cfg'.blockHeight = 60 ∧
    cfg'.miningOpen = true ∧ targetNat cfg'.currentTarget < targetNat maxTarget ∧
    clocks (tr ++ [⟨idleWorld, .ok (env 9006) lastIx evs, ⟨some cfg', L'⟩⟩]) =
      idleTxs.map (fun tx => tx.1.clock) ++ [(env 9006).clock] ∧
    ∀ t ∈ tr, ∀ env ix evs, t.label = .ok env ix evs → (env, ix) ∈ idleTxs := by
  obtain ⟨tr, hr, hc, hl⟩ := play_record runtime idleTxs (genesis ledger)
  change Run _ _ tr idleWorld at hr
  obtain ⟨cfg, hcfg, ht⟩ : ∃ cfg, idleWorld.config = some cfg ∧ cfg.currentTarget = maxTarget :=
    ⟨idleWorld.config.get (by decide +kernel), by simp, by decide +kernel⟩
  have hend : hardened (execute runtime (env 9006) idleWorld lastIx) = true := by decide +kernel
  unfold hardened at hend
  split at hend
  · rename_i cfg' L' evs hx
    obtain ⟨hh, hopen, hlow⟩ := of_decide_eq_true hend
    refine ⟨tr, cfg, cfg', L', evs, hr.snoc (Step.ok hx), hcfg, ht, hh, hopen, hlow, ?_, hl⟩
    rw [clocks_concat, hc]
    rfl
  · cases hend

end Demo

/-- Sixty rounds of the demonstration cluster: the window from round 0 to round 60 is measured and the
    anchor moves to round 60. -/
theorem retarget_windows_tile_demo : ∃ tr w cfg,
    Run (Step Demo.runtime) (genesis Demo.ledger) tr w ∧ w.config = some cfg ∧
    cfg.blockHeight = 60 ∧ targetNat cfg.currentTarget < targetNat maxTarget ∧
    (opened tr).map (·.1) = List.range 61 ∧ openTs tr 60 = some cfg.lastRetargetUnixTs ∧
    ∃ (a b : Int64) (s : UInt64), openTs tr 0 = some a ∧ openTs tr 60 = some b ∧
      (s.toNat : ℤ) = max 0 (b.toInt - a.toInt) ∧ nextTarget maxTarget s = some cfg.currentTarget := by
  obtain ⟨tr, cfg, cfg', L', evs, hr, hcfg, ht, hh, hopen, hlow, -, -⟩ := Demo.idle_run
  obtain ⟨hanchor, -, hwindow⟩ := @retarget_windows_tile Demo.runtime Demo.ledger _ _ hr
  have hheight : cfg'.blockHeight.toNat = 60 := by rw [hh]; rfl
  obtain ⟨c, c', hpre, hpost, -, hretarget, -⟩ := hwindow _
    (List.mem_append_right _ (List.mem_singleton_self _)) _ _ _ rfl rfl
  obtain rfl : cfg = c := Option.some.inj (hcfg.symm.trans hpre)
  obtain rfl : cfg' = c' := Option.some.inj hpost
  rw [hheight] at hretarget
  obtain ⟨a, b, s, ha, hb, hs, hnext⟩ := hretarget rfl
  obtain ⟨hopened, hlast⟩ := hanchor cfg' rfl hopen
  rw [hheight] at hopened hlast
  exact ⟨_, _, cfg', hr, rfl, hh, hlow, hopened, hlast, a, b, s, ha, hb, hs, ht ▸ hnext⟩

end Equium.Program
