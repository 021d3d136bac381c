import Equium.Program.Replay

/-! @src programs/equium/src/instructions/renounce_admin.rs, set_target.rs, fund_vault.rs |
    name:Renunciation | scheme:run-invariant

    After `renounce_admin` the stored admin is the all-zero key and the flag is set. `set_target` and
    a second renunciation meet the flag; `fund_vault` meets only the key, so it is the missing
    signature of the zero key that blocks it. -/

namespace Equium.Program
open Schemes Equium.Core

variable {rt : Runtime}

/-- The state of the admin fields after a renunciation. -/
def Renounced (cfg : EquiumConfig) : Prop := cfg.adminRenounced = true ∧ cfg.admin = defaultKey

/-- The fields that never change once the admin is gone. -/
structure Frozen (cfg cfg' : EquiumConfig) : Prop where
  mint : cfg'.mint = cfg.mint
  mineableVault : cfg'.mineableVault = cfg.mineableVault
  mineableVaultBump : cfg'.mineableVaultBump = cfg.mineableVaultBump
  configBump : cfg'.configBump = cfg.configBump
  genesisSlot : cfg'.genesisSlot = cfg.genesisSlot
  genesisUnixTs : cfg'.genesisUnixTs = cfg.genesisUnixTs
  equihashN : cfg'.equihashN = cfg.equihashN
  equihashK : cfg'.equihashK = cfg.equihashK
  admin : cfg'.admin = cfg.admin
  adminRenounced : cfg'.adminRenounced = cfg.adminRenounced
  miningOpen : cfg'.miningOpen = cfg.miningOpen

/-- What the target does when a round is closed with this clock reading. -/
def TargetMove (cfg cfg' : EquiumConfig) (clock : Clock) : Prop :=
  cfg'.blockHeight.toNat = cfg.blockHeight.toNat + 1 ∧
    if cfg'.blockHeight.toNat % 60 = 0 then
      nextTarget cfg.currentTarget (actualSeconds cfg clock) = some cfg'.currentTarget
    else cfg'.currentTarget = cfg.currentTarget

theorem Frozen.refl (cfg : EquiumConfig) : Frozen cfg cfg :=
  ⟨rfl, rfl, rfl, rfl, rfl, rfl, rfl, rfl, rfl, rfl, rfl⟩

theorem Frozen.trans {a b c : EquiumConfig} (h : Frozen a b) (h' : Frozen b c) : Frozen a c where
  mint := h'.mint.trans h.mint
  mineableVault := h'.mineableVault.trans h.mineableVault
  mineableVaultBump := h'.mineableVaultBump.trans h.mineableVaultBump
  configBump := h'.configBump.trans h.configBump
  genesisSlot := h'.genesisSlot.trans h.genesisSlot
  genesisUnixTs := h'.genesisUnixTs.trans h.genesisUnixTs
  equihashN := h'.equihashN.trans h.equihashN
  equihashK := h'.equihashK.trans h.equihashK
  admin := h'.admin.trans h.admin
  adminRenounced := h'.adminRenounced.trans h.adminRenounced
  miningOpen := h'.miningOpen.trans h.miningOpen

/-- A round transition touches none of the frozen fields. -/
theorem AdvanceOk.frozen {c : Crates} {cfg cfg' : EquiumConfig} {clock : Clock}
    {sh : Option (List UInt8)} {t : RoundTransition} (h : AdvanceOk c cfg clock sh t cfg') :
    Frozen cfg cfg' :=
  ⟨h.mint, h.mineableVault, h.mineableVaultBump, h.configBump, h.genesisSlot, h.genesisUnixTs,
    h.equihashN, h.equihashK, h.admin, h.adminRenounced, h.miningOpen⟩

theorem AdvanceOk.targetMove {c : Crates} {cfg cfg' : EquiumConfig} {clock : Clock}
    {sh : Option (List UInt8)} {t : RoundTransition} (h : AdvanceOk c cfg clock sh t cfg') :
    TargetMove cfg cfg' clock := by
  refine ⟨h.height, ?_⟩
  rw [h.height]
  split_ifs with hb
  · exact (h.retarget hb).1
  · exact (h.noRetarget hb).1

/-- Step lemma: after renunciation only the closing instructions succeed. -/
theorem renounced_step (hzero : rt.canSign defaultKey = false) {env : Env} {L L' : Ledger}
    {cfg cfg' : EquiumConfig} {ix : Ix} (hr : Renounced cfg) (hs : rt.canSign ix.signer = true)
    (he : Effect rt env L (some cfg) ix cfg' L') :
    ix.closesRound = true ∧ Frozen cfg cfg' ∧ TargetMove cfg cfg' env.clock := by
  obtain ⟨hflag, hadmin⟩ := hr
  cases he with
  | mine a nonce soln _ _ d cumulative L₁ _ hacc hata hcum hcap htr hadv =>
    -- the round transition starts from the config with the new payout: same frozen fields
    have hsame : Frozen cfg { cfg with cumulativeMined := cumulative } :=
      ⟨rfl, rfl, rfl, rfl, rfl, rfl, rfl, rfl, rfl, rfl, rfl⟩
    exact ⟨rfl, hsame.trans hadv.frozen, hadv.targetMove⟩
  | advanceEmptyRound a _ _ hopen hel hadv => exact ⟨rfl, hadv.frozen, hadv.targetMove⟩
  | fundVault a _ d _ ha hav hclosed htr =>
    have hsig : rt.canSign a.admin = true := hs
    rw [← ha, hadmin, hzero] at hsig
    cases hsig
  | renounceAdmin a _ ha hnot => rw [hflag] at hnot; cases hnot
  | setTarget a t _ ha hnot => rw [hflag] at hnot; cases hnot

/-- What holds of every step and of the state after a renunciation. -/
structure AfterRenounce (cfg₀ : EquiumConfig) (tr : Record) (w : World) : Prop where
  state : ∃ cfg, w.config = some cfg ∧ Renounced cfg ∧ Frozen cfg₀ cfg
  steps : ∀ t ∈ tr, ∃ cfg cfg', t.pre.config = some cfg ∧ t.post.config = some cfg' ∧
    ((∃ env ix evs, t.label = .ok env ix evs ∧ ix.closesRound = true ∧
        TargetMove cfg cfg' env.clock) ∨
      (∀ env ix evs, t.label ≠ .ok env ix evs) ∧ cfg'.currentTarget = cfg.currentTarget)

/-- Run lemma: from a renounced state on. -/
theorem renounced_run (hzero : rt.canSign defaultKey = false) {w₀ w : World} {tr : Record}
    {cfg₀ : EquiumConfig} (h₀ : w₀.config = some cfg₀) (hr₀ : Renounced cfg₀)
    (h : Run (Step rt) w₀ tr w) : AfterRenounce cfg₀ tr w := by
  refine h.inv (AfterRenounce cfg₀) ⟨⟨cfg₀, h₀, hr₀, .refl _⟩, by simp⟩ ?_
  rintro tr w l w' - ⟨⟨cfg, hcfg, hren, hfro⟩, hsteps⟩ hst
  have hcons : ∀ cfg', w'.config = some cfg' → Renounced cfg' → Frozen cfg₀ cfg' →
      ((∃ env ix evs, l = .ok env ix evs ∧ ix.closesRound = true ∧
        TargetMove cfg cfg' env.clock) ∨
      (∀ env ix evs, l ≠ .ok env ix evs) ∧ cfg'.currentTarget = cfg.currentTarget) →
      AfterRenounce cfg₀ (tr ++ [⟨w, l, w'⟩]) w' := by
    intro cfg' hcfg' hren' hfro' hmove
    refine ⟨⟨cfg', hcfg', hren', hfro'⟩, fun t ht => ?_⟩
    rcases List.mem_append.mp ht with ht | ht
    · exact hsteps t ht
    · rw [List.mem_singleton] at ht
      subst ht
      exact ⟨cfg, cfg', hcfg, hcfg', hmove⟩
  rcases hst.ok_or_quiet with ⟨env, ix, evs, rfl⟩ | ⟨hw', hq⟩
  · obtain ⟨hs, cfg', L', rfl, he⟩ := hst.effect
    rw [hcfg] at he
    obtain ⟨hcl, hfro', hmove⟩ := renounced_step hzero hren hs he
    exact hcons cfg' rfl ⟨hfro'.adminRenounced.trans hren.1, hfro'.admin.trans hren.2⟩
      (hfro.trans hfro') (.inl ⟨env, ix, evs, rfl, hcl, hmove⟩)
  · exact hcons cfg (by rw [hw']; exact hcfg) hren hfro (.inr ⟨hq.label, rfl⟩)

/-- NO ADMIN POWER SURVIVES: after a successful `renounce_admin`, in every continuation, only `mine`
    and `advance_empty_round` succeed (so no `set_target`, `fund_vault` or `renounce_admin`), the
    frozen fields keep their values, and the target moves only with a transition into a height
    divisible by 60, where it becomes `next_target` of the old value and the measured window. -/
theorem no_admin_after_renounce (hzero : rt.canSign defaultKey = false) (L : Ledger)
    (tr tr₁ tr₂ : Record) (w : World) (t : Taken World Action)
    (h : Run (Step rt) (genesis L) tr w) (hcut : tr = tr₁ ++ t :: tr₂) (env : Env)
    (a : RenounceAdmin) (evs : List Event) (hl : t.label = .ok env (.renounceAdmin a) evs) :
    (∃ cfg₀ cfg, t.post.config = some cfg₀ ∧ w.config = some cfg ∧ Frozen cfg₀ cfg) ∧
      (∀ t' ∈ tr₂, ∀ env ix evs, t'.label = .ok env ix evs → ix.closesRound = true) ∧
      ∀ t' ∈ tr₂, ∃ cfg cfg', t'.pre.config = some cfg ∧ t'.post.config = some cfg' ∧
        ((∃ env ix evs, t'.label = .ok env ix evs ∧ ix.closesRound = true ∧
            TargetMove cfg cfg' env.clock) ∨
          (∀ env ix evs, t'.label ≠ .ok env ix evs) ∧ cfg'.currentTarget = cfg.currentTarget) := by
  obtain ⟨hst, hrest⟩ := (hcut ▸ h).cut
  have hpost : ∃ cfg₀, t.post.config = some cfg₀ ∧ Renounced cfg₀ := by
    rw [hl] at hst
    obtain ⟨-, cfg', L', hpost, he⟩ := hst.effect
    refine ⟨cfg', hpost ▸ rfl, ?_⟩
    generalize t.pre.config = before at he
    cases he with
    | renounceAdmin => exact ⟨rfl, rfl⟩
  obtain ⟨cfg₀, h₀, hr₀⟩ := hpost
  obtain ⟨⟨cfg, hcfg, -, hfro⟩, hsteps⟩ := renounced_run hzero h₀ hr₀ hrest
  refine ⟨⟨cfg₀, cfg, h₀, hcfg, hfro⟩, fun t' ht' env ix evs hl' => ?_, hsteps⟩
  obtain ⟨-, -, -, -, ⟨env', ix', evs', hl'', hcl, -⟩ | ⟨hno, -⟩⟩ := hsteps t' ht'
  · rw [hl''] at hl'
    injection hl' with _ hix _
    rw [← hix]; exact hcl
  · exact absurd hl' (hno env ix evs)

/-- The demonstration run, continued after the renunciation with a refused `set_target` and a mined
    block. -/
theorem no_admin_after_renounce_demo : ∃ tr₁ t tr₂ w evs,
    Run (Step Demo.runtime) (genesis Demo.ledger) (tr₁ ++ t :: tr₂) w ∧
    t.label = .ok (Demo.env 401) (.renounceAdmin ⟨expectedAdmin, Demo.key 1⟩) evs ∧
    ∀ t' ∈ tr₂, ∀ env ix evs, t'.label = .ok env ix evs → ix.closesRound = true := by
  let late : List (Env × Ix) :=
    [(Demo.env 402, .setTarget ⟨expectedAdmin, Demo.key 1⟩ maxTarget),
     (Demo.env 403, .mine ⟨Demo.key 30, Demo.key 1, Demo.key 10, Demo.key 2, Demo.key 130,
       Demo.key 9, Demo.key 3⟩ (Demo.key 0) [1])]
  obtain ⟨tr₁, hr₁⟩ := play_run Demo.runtime (Demo.txs.take 4) (genesis Demo.ledger)
  have hok : (execute Demo.runtime (Demo.env 401)
      (play Demo.runtime (genesis Demo.ledger) (Demo.txs.take 4))
      (.renounceAdmin ⟨expectedAdmin, Demo.key 1⟩)).isOk = true := by decide +kernel
  cases hx : execute Demo.runtime (Demo.env 401)
      (play Demo.runtime (genesis Demo.ledger) (Demo.txs.take 4))
      (.renounceAdmin ⟨expectedAdmin, Demo.key 1⟩) with
  | error e => rw [hx] at hok; cases hok
  | ok r =>
    obtain ⟨w', evs⟩ := r
    obtain ⟨tr₂, hr₂⟩ := play_run Demo.runtime late w'
    have hrun := (hr₁.snoc (Step.ok hx)).append hr₂
    rw [List.append_assoc, List.singleton_append] at hrun
    exact ⟨tr₁, _, tr₂, _, evs, hrun, rfl, (@no_admin_after_renounce Demo.runtime
      (by decide +kernel) Demo.ledger _ tr₁ tr₂ _ _ hrun rfl _ _ evs rfl).2.1⟩

end Equium.Program
