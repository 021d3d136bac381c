import Equium.Program.Failures

/-! @src programs/equium/src/instructions/advance_empty_round.rs, round.rs, mine.rs |
    name:Progress | scheme:run-invariant

    A keeper is anyone who calls `advance_empty_round` again and again, 150 slots apart. A call fails
    only while the round is young, and then somebody else has closed a round since the last call. So
    every call stands for a closed round, whatever is mined, refused or sent in between. -/

namespace Equium.Program
open Schemes Equium.Core

variable {rt : Runtime}

/-- A call of `advance_empty_round` by this key, with success or without. -/
def callAt (keeper : Pubkey) (t : Taken World Action) : Option (Env × AdvanceEmptyRound) :=
  match t.label with
  | .ok env (.advanceEmptyRound a) _ => if a.caller = keeper then some (env, a) else none
  | .err env (.advanceEmptyRound a) _ => if a.caller = keeper then some (env, a) else none
  | _ => none

/-- The slots at which the key called, oldest first. -/
def callSlots (keeper : Pubkey) (tr : Record) : List UInt64 :=
  (tr.filterMap (callAt keeper)).map (·.1.clock.slot)

/-- The calls name the right accounts and find SlotHashes data the program takes. -/
def CallsInOrder (rt : Runtime) (keeper : Pubkey) (tr : Record) : Prop :=
  ∀ t ∈ tr, ∀ env a cfg, callAt keeper t = some (env, a) → t.pre.config = some cfg →
    AdvanceAccounts rt cfg a ∧ ∃ data, env.slotHashes = some data ∧ ¬ BadSlotHashes data

theorem callSlots_concat (keeper : Pubkey) (tr : Record) (t : Taken World Action) :
    callSlots keeper (tr ++ [t]) =
      callSlots keeper tr ++ ((callAt keeper t).map (·.1.clock.slot)).toList := by
  simp only [callSlots, List.filterMap_append, List.map_append]
  cases h : callAt keeper t <;> simp [h]

/-- Calls and the rounds they stand for: `closed` rounds were closed up to the last call, and if none
    since, the round was open by then. -/
structure Kept (keeper : Pubkey) (cfg₀ : EquiumConfig) (tr : Record) (cfg : EquiumConfig) : Prop where
  isOpen : cfg.miningOpen = true
  closed : ∃ h, h ≤ cfg.blockHeight.toNat ∧
    cfg₀.blockHeight.toNat + (callSlots keeper tr).length ≤ h ∧
    (cfg.blockHeight.toNat = h → ∃ s ∈ cfg₀.currentRoundOpenSlot :: callSlots keeper tr,
      cfg.currentRoundOpenSlot.toNat ≤ s.toNat)

variable {keeper : Pubkey} {cfg₀ cfg cfg' : EquiumConfig} {tr : Record} {t : Taken World Action}

/-- A step without a call that leaves the round alone. -/
theorem Kept.frame (h : Kept keeper cfg₀ tr cfg) (ht : callAt keeper t = none)
    (ho : cfg'.miningOpen = cfg.miningOpen) (hb : cfg'.blockHeight = cfg.blockHeight)
    (hs : cfg'.currentRoundOpenSlot = cfg.currentRoundOpenSlot) : Kept keeper cfg₀ (tr ++ [t]) cfg' := by
  have hslots : callSlots keeper (tr ++ [t]) = callSlots keeper tr := by
    rw [callSlots_concat, ht]
    exact List.append_nil _
  obtain ⟨h₁, h₂⟩ := h
  exact ⟨ho.trans h₁, by rwa [hslots, hb, hs]⟩

/-- A closed round stands for the call that closed it, or for the next one. -/
theorem Kept.close (h : Kept keeper cfg₀ tr cfg) (ho : cfg'.miningOpen = cfg.miningOpen)
    (hb : cfg'.blockHeight.toNat = cfg.blockHeight.toNat + 1)
    (ht : ∀ env a, callAt keeper t = some (env, a) → cfg'.currentRoundOpenSlot = env.clock.slot) :
    Kept keeper cfg₀ (tr ++ [t]) cfg' := by
  refine ⟨ho.trans h.isOpen, ?_⟩
  obtain ⟨n, hle, hcalls, -⟩ := h.closed
  rw [callSlots_concat]
  cases hc : callAt keeper t with
  | none =>
    refine ⟨n, by omega, ?_, fun heq => by omega⟩
    simpa using hcalls
  | some r =>
    obtain ⟨env, a⟩ := r
    refine ⟨cfg'.blockHeight.toNat, le_rfl, ?_, fun _ => ⟨env.clock.slot, by simp, ?_⟩⟩
    · simp only [Option.map_some, Option.toList_some, List.length_append, List.length_singleton]
      omega
    · rw [ht env a hc]

/-- A call that failed came too early, and stands for the round closed since the last one. -/
theorem Kept.refused (h : Kept keeper cfg₀ tr cfg) {env : Env} {a : AdvanceEmptyRound}
    (ht : callAt keeper t = some (env, a))
    (hyoung : env.clock.slot.toNat < cfg.currentRoundOpenSlot.toNat + 150)
    (hpast : cfg.currentRoundOpenSlot ≤ env.clock.slot)
    (hspaced : ∀ s ∈ cfg₀.currentRoundOpenSlot :: callSlots keeper tr,
      s.toNat + 150 ≤ env.clock.slot.toNat) : Kept keeper cfg₀ (tr ++ [t]) cfg := by
  refine ⟨h.isOpen, cfg.blockHeight.toNat, le_rfl, ?_, fun _ => ⟨env.clock.slot, ?_, ?_⟩⟩
  · obtain ⟨n, hle, hcalls, hsince⟩ := h.closed
    have hlt : n < cfg.blockHeight.toNat := by
      refine lt_of_le_of_ne hle fun heq => ?_
      obtain ⟨s, hs, hopen⟩ := hsince heq.symm
      have := hspaced s hs
      omega
    rw [callSlots_concat, ht]
    simp only [Option.map_some, Option.toList_some, List.length_append, List.length_singleton]
    omega
  · rw [callSlots_concat, ht]
    simp
  · exact UInt64.le_iff_toNat_le.mp hpast

/-- Step lemma: every step keeps the account, as long as the calls are in order and spaced. -/
theorem Kept.step {L : Ledger} {tr₀ : Record} {w w' : World} {l : Action}
    (h : Kept keeper cfg₀ tr cfg) (hr : Run (Step rt) (genesis L) (tr₀ ++ tr) w)
    (hw : w.config = some cfg) (hst : Step rt w l w')
    (hmono : SlotsNonDecreasing (tr₀ ++ (tr ++ [⟨w, l, w'⟩])))
    (horder : CallsInOrder rt keeper (tr ++ [⟨w, l, w'⟩]))
    (hspaced : (cfg₀.currentRoundOpenSlot :: callSlots keeper (tr ++ [⟨w, l, w'⟩])).Pairwise
      fun s s' => s.toNat + 150 ≤ s'.toNat)
    (hw' : w'.config = some cfg') (hh : cfg'.blockHeight.toNat < 2 ^ 64 - 378001) :
    Kept keeper cfg₀ (tr ++ [⟨w, l, w'⟩]) cfg' := by
  cases hst with
  | @ok env _ _ ix evs hx =>
    obtain ⟨-, after, L', rfl, he⟩ := execute_ok hx
    obtain rfl : cfg' = after := (Option.some.inj hw').symm
    rw [hw] at he
    cases he with
    | fundVault _ _ _ _ _ _ hclosed =>
      rw [h.isOpen] at hclosed
      cases hclosed
    | renounceAdmin => exact h.frame rfl rfl rfl rfl
    | setTarget => exact h.frame rfl rfl rfl rfl
    | mine _ _ _ _ _ _ _ _ _ _ _ _ _ _ hadv =>
      exact h.close hadv.miningOpen hadv.height (by simp [callAt])
    | advanceEmptyRound a _ _ _ _ hadv =>
      refine h.close hadv.miningOpen hadv.height fun env' a' hc => ?_
      rw [hadv.openSlot]
      simp only [callAt] at hc
      split_ifs at hc
      obtain ⟨rfl, -⟩ := Prod.mk.inj (Option.some.inj hc)
      rfl
  | @err env _ ix e hx =>
    obtain rfl := Option.some.inj (hw.symm.trans hw')
    cases hc : callAt keeper ⟨w, .err env ix e, w⟩ with
    | none => exact h.frame hc rfl rfl rfl
    | some r =>
      obtain ⟨env', a⟩ := r
      obtain ⟨rfl, rfl⟩ : ix = .advanceEmptyRound a ∧ env' = env := by
        simp only [callAt] at hc
        split at hc
        · rename_i heq
          cases heq
        · rename_i heq
          injection heq with h₁ h₂
          split_ifs at hc
          obtain ⟨rfl, rfl⟩ := Prod.mk.inj (Option.some.inj hc)
          exact ⟨h₂, h₁.symm⟩
        · cases hc
      obtain ⟨hacc, data, hdata, hgood⟩ := horder _ (by simp) env' a cfg hc hw
      rcases advanceEmptyRound_error hr hw hh hdata hacc hx with ⟨hcl, -⟩ | ⟨hyoung, -⟩ | ⟨hbad, -⟩
      · rw [h.isOpen] at hcl
        cases hcl
      · rw [← List.append_assoc] at hmono
        have hpacing := (pacing_run hr hmono.init).2 cfg hw
        obtain ⟨c, hcl, hslot⟩ := hpacing.read h.isOpen
        refine h.refused hc hyoung (hslot ▸ hmono.last hcl rfl) fun s hs => ?_
        rw [callSlots_concat, hc] at hspaced
        rw [← List.cons_append] at hspaced
        exact (List.pairwise_append.mp hspaced).2.2 s hs env'.clock.slot (by simp)
      · exact absurd hbad hgood
  | outside =>
    obtain rfl := Option.some.inj (hw.symm.trans hw')
    exact h.frame rfl rfl rfl rfl

/-- The height never goes back. -/
theorem Step.height_le {w w' : World} {l : Action} (h : Step rt w l w') (hw : w.config = some cfg) :
    ∃ cfg', w'.config = some cfg' ∧ cfg.blockHeight.toNat ≤ cfg'.blockHeight.toNat := by
  rcases h.ok_or_quiet with ⟨env, ix, evs, rfl⟩ | ⟨hpost, -⟩
  · obtain ⟨-, cfg', L', rfl, he⟩ := h.effect
    rw [hw] at he
    refine ⟨cfg', rfl, ?_⟩
    cases he with
    | mine _ _ _ _ _ _ _ _ _ _ _ _ _ _ hadv => exact hadv.height ▸ Nat.le_succ _
    | advanceEmptyRound _ _ _ _ _ hadv => exact hadv.height ▸ Nat.le_succ _
    | fundVault => exact le_rfl
    | renounceAdmin => exact le_rfl
    | setTarget => exact le_rfl
  · exact ⟨cfg, by rw [hpost]; exact hw, le_rfl⟩

/-- Run lemma: from an open state on, under a slot that never decreases. -/
theorem kept_run {L : Ledger} {tr₀ : Record} {w₀ w : World} (hr₀ : Run (Step rt) (genesis L) tr₀ w₀)
    (h₀ : w₀.config = some cfg₀) (hopen : cfg₀.miningOpen = true) (h : Run (Step rt) w₀ tr w)
    (hmono : SlotsNonDecreasing (tr₀ ++ tr)) (horder : CallsInOrder rt keeper tr)
    (hspaced : (cfg₀.currentRoundOpenSlot :: callSlots keeper tr).Pairwise
      fun s s' => s.toNat + 150 ≤ s'.toNat) :
    ∃ cfg, w.config = some cfg ∧
      (cfg.blockHeight.toNat < 2 ^ 64 - 378001 → Kept keeper cfg₀ tr cfg) := by
  refine h.inv (fun tr w => SlotsNonDecreasing (tr₀ ++ tr) → CallsInOrder rt keeper tr →
    (cfg₀.currentRoundOpenSlot :: callSlots keeper tr).Pairwise
      (fun s s' => s.toNat + 150 ≤ s'.toNat) → ∃ cfg, w.config = some cfg ∧
      (cfg.blockHeight.toNat < 2 ^ 64 - 378001 → Kept keeper cfg₀ tr cfg)) ?_ ?_ hmono horder hspaced
  · exact fun _ _ _ => ⟨cfg₀, h₀, fun _ => ⟨hopen, cfg₀.blockHeight.toNat, le_rfl, le_rfl, fun _ =>
      ⟨_, List.mem_cons_self, le_rfl⟩⟩⟩
  · intro tr w l w' hr ih hst hmono horder hspaced
    have hinit : SlotsNonDecreasing (tr₀ ++ tr) := by
      rw [← List.append_assoc] at hmono
      exact hmono.init
    have hspaced' := hspaced
    rw [callSlots_concat, ← List.cons_append] at hspaced'
    obtain ⟨cfg, hw, hkept⟩ := ih hinit (fun t ht => horder t (List.mem_append_left _ ht))
      (List.pairwise_append.mp hspaced').1
    obtain ⟨cfg', hw', hle⟩ := hst.height_le hw
    exact ⟨cfg', hw', fun hh => (hkept (by omega)).step (hr₀.append hr) hw hst hmono horder hspaced hw' hh⟩

/-- PROGRESS: in any run, from any open state on and whatever else happens, a keeper whose calls of
    `advance_empty_round` lie 150 slots apart, the first one 150 slots after the round was opened,
    sees at least one round closed for each call. -/
theorem rounds_progress (L : Ledger) (tr₀ tr : Record) (w₀ w : World)
    (hr₀ : Run (Step rt) (genesis L) tr₀ w₀) (h : Run (Step rt) w₀ tr w) (cfg₀ : EquiumConfig)
    (h₀ : w₀.config = some cfg₀) (hopen : cfg₀.miningOpen = true)
    (hmono : SlotsNonDecreasing (tr₀ ++ tr)) (keeper : Pubkey) (horder : CallsInOrder rt keeper tr)
    (hspaced : (cfg₀.currentRoundOpenSlot :: callSlots keeper tr).Pairwise
      fun s s' => s.toNat + 150 ≤ s'.toNat) :
    ∃ cfg, w.config = some cfg ∧ (cfg.blockHeight.toNat < 2 ^ 64 - 378001 →
      cfg₀.blockHeight.toNat + (callSlots keeper tr).length ≤ cfg.blockHeight.toNat) := by
  obtain ⟨cfg, hw, hkept⟩ := kept_run hr₀ h₀ hopen h hmono horder hspaced
  refine ⟨cfg, hw, fun hh => ?_⟩
  obtain ⟨n, hle, hcalls, -⟩ := (hkept hh).closed
  exact hcalls.trans hle

namespace Demo

/-- The cluster when mining has just opened, at slot 6. -/
def openWorld : World := play runtime (genesis ledger) (txs.take 2)

/-- The keeper's first call meets a round that a miner has opened at slot 100. -/
def keeperTxs : List (Env × Ix) :=
  [(env 100, .mine ⟨key 30, key 1, key 10, key 2, key 130, key 9, key 3⟩ (key 0) [1]),
   (env 156, .advanceEmptyRound ⟨key 40, key 1, key 3⟩),
   (env 400, .advanceEmptyRound ⟨key 40, key 1, key 3⟩),
   (env 550, .advanceEmptyRound ⟨key 40, key 1, key 3⟩)]

/-- The keeper's calls name the accounts of the demonstration cluster. -/
def callInOrder (t : Taken World Action) : Bool :=
  match callAt (key 40) t, t.pre.config with
  | some (env, a), some cfg => a.caller = key 40 ∧ a.config = key 1 ∧ a.slotHashes = key 3 ∧
    cfg.configBump = 255 ∧ env.slotHashes = some (List.replicate 48 1)
  | _, _ => true

theorem keeper_calls : (record runtime openWorld keeperTxs).all callInOrder = true := by
  decide +kernel

theorem keeper_inOrder : CallsInOrder runtime (key 40) (record runtime openWorld keeperTxs) := by
  intro t ht env a cfg hc hpre
  have hok := List.all_eq_true.mp keeper_calls t ht
  simp only [callInOrder, hc, hpre, Bool.decide_and, Bool.and_eq_true, decide_eq_true_eq] at hok
  obtain ⟨hcaller, hconfig, hslots, hbump, hdata⟩ := hok
  refine ⟨⟨?_, ?_, ?_, hslots⟩, _, hdata, ?_⟩
  · rw [hcaller]
    decide +kernel
  · rw [hconfig]
    decide +kernel
  · rw [hbump, hconfig]
    rfl
  · unfold BadSlotHashes
    decide

end Demo

/-- Three calls, three rounds closed: the first call was refused, for the round a miner closed. -/
theorem rounds_progress_demo : ∃ tr w cfg, Run (Step Demo.runtime) Demo.openWorld tr w ∧
    w.config = some cfg ∧ callSlots (Demo.key 40) tr = [156, 400, 550] ∧ 3 ≤ cfg.blockHeight.toNat := by
  obtain ⟨tr₀, hr₀, hc₀, -⟩ := play_record Demo.runtime (Demo.txs.take 2) (genesis Demo.ledger)
  have hr := record_run Demo.runtime Demo.keeperTxs Demo.openWorld
  have hcalls : callSlots (Demo.key 40) (record Demo.runtime Demo.openWorld Demo.keeperTxs) =
      [156, 400, 550] := by decide +kernel
  obtain ⟨cfg₀, h₀, hopen, hslot, hheight⟩ : ∃ cfg₀, Demo.openWorld.config = some cfg₀ ∧
      cfg₀.miningOpen = true ∧ cfg₀.currentRoundOpenSlot = 6 ∧ cfg₀.blockHeight = 0 :=
    ⟨Demo.openWorld.config.get (by decide +kernel), by simp, by decide +kernel, by decide +kernel,
      by decide +kernel⟩
  have hmono : SlotsNonDecreasing (tr₀ ++ record Demo.runtime Demo.openWorld Demo.keeperTxs) := by
    rw [SlotsNonDecreasing, clocks, List.filterMap_append]
    change (clocks tr₀ ++ clocks _).Pairwise _
    rw [hc₀, (record_labels Demo.runtime Demo.keeperTxs Demo.openWorld).1]
    decide
  obtain ⟨cfg, hw, hclosed⟩ := rounds_progress Demo.ledger tr₀ _ _ _ hr₀ hr cfg₀ h₀ hopen hmono
    (Demo.key 40) Demo.keeper_inOrder (by rw [hcalls, hslot]; decide)
  have hend : (play Demo.runtime Demo.openWorld Demo.keeperTxs).config.map (·.blockHeight) = some 3 := by
    decide +kernel
  have hh : cfg.blockHeight = 3 := by simpa [hw] using hend
  rw [hcalls, hheight, hh] at hclosed
  exact ⟨_, _, cfg, hr, hw, hcalls, hh ▸ hclosed (by decide)⟩

end Equium.Program
