import Equium.Program.Emission

/-! @src programs/equium/src/instructions/mine.rs, fund_vault.rs | name:Vault | scheme:run-invariant

    The vault balance lives in the token program, the payout counter in the config account.
    `VaultInv` ties them: before the opening the vault holds what third parties sent, after it the
    mineable supply less the payout plus what third parties sent. Only `fund_vault` and `mine` touch
    the vault, and neither can name it on the wrong side of a transfer: its owner is the config
    address, which signs for nobody else. -/

namespace Equium.Program
open Schemes Equium.Core

variable {rt : Runtime}

/-- `mining_open`, false before `initialize`. -/
def World.isOpen (w : World) : Bool :=
  match w.config with
  | some cfg => cfg.miningOpen
  | none => false

/-- What third parties sent to the vault over a run. -/
def deposits (tr : Record) : ℕ := (tr.map fun t => t.label.deposit).sum

/-- What the miner's token account gained in a successful `mine`. -/
def receivedAt (t : Taken World Action) : ℕ :=
  match t.label with
  | .ok _ (.mine a _ _) _ => t.post.ledger.balance a.minerAta - t.pre.ledger.balance a.minerAta
  | _ => 0

/-- What miners' token accounts gained over a run. -/
def received (tr : Record) : ℕ := (tr.map receivedAt).sum

/-- The steps that opened mining. -/
def openings (tr : Record) : Record := tr.filter fun t => !t.pre.isOpen && t.post.isOpen

/-- The vault account exists under the config address. -/
def VaultOwned (rt : Runtime) (L : Ledger) : Prop :=
  ∃ v, L.accounts rt.vaultPda = some v ∧ v.owner = rt.configPda

/-- The books of the vault, once the config exists. -/
structure VaultInv (rt : Runtime) (tr : Record) (cfg : EquiumConfig) (L : Ledger) : Prop where
  vault : cfg.mineableVault = rt.vaultPda
  owned : VaultOwned rt L
  closed : cfg.miningOpen = false → cfg.blockHeight = 0 ∧ cfg.cumulativeMined = 0 ∧
    L.balance rt.vaultPda = deposits tr
  isOpen : cfg.miningOpen = true → L.balance rt.vaultPda + cfg.cumulativeMined.toNat =
    mineableBase.toNat + deposits tr
  received : received tr = cfg.cumulativeMined.toNat
  openings : (openings tr).length = if cfg.miningOpen then 1 else 0

/-! ### The ledger side of `mine` and `fund_vault` -/

theorem balance_of_accounts {L L' : Ledger} {k : Pubkey} (h : L'.accounts k = L.accounts k) :
    L'.balance k = L.balance k := by
  simp [Ledger.balance, h]

/-- Creating the associated account moves no tokens, and the account belongs to the miner. -/
theorem initAtaIfNeeded_ok {L L₁ : Ledger} {a : Mine} (h : initAtaIfNeeded rt L a = .ok L₁) :
    (∀ k, L₁.balance k = L.balance k) ∧ (∀ k v, L.accounts k = some v → L₁.accounts k = some v) ∧
      ∃ t, L₁.accounts a.minerAta = some t ∧ t.owner = a.miner := by
  simp only [initAtaIfNeeded, bind_ok, require_ok] at h
  obtain ⟨-, -, h⟩ := h
  split at h
  · rename_i hnone
    obtain rfl := pure_ok.mp h
    refine ⟨fun k => ?_, fun k v hv => ?_, ⟨_, Ledger.set_self .., rfl⟩⟩
    · by_cases hk : k = a.minerAta
      · subst hk; simp [Ledger.balance, hnone]
      · exact balance_of_accounts (Ledger.set_ne _ _ hk)
    · have hk : k ≠ a.minerAta := by rintro rfl; rw [hnone] at hv; cases hv
      rw [Ledger.set_ne _ _ hk, hv]
  · rename_i t ht
    simp only [bind_ok, require_ok, decide_eq_true_eq, pure_ok] at h
    obtain ⟨-, -, -, howner, rfl⟩ := h
    exact ⟨fun _ => rfl, fun _ _ hv => hv, t, ht, howner⟩

/-- A transfer keeps the owner of every account. -/
theorem Moved.owned {L L' : Ledger} {t : TransferChecked} (h : Moved L t L')
    (ho : VaultOwned rt L) : VaultOwned rt L' := by
  obtain ⟨v, hv, howner⟩ := ho
  have hk := h.kept rt.vaultPda
  rw [hv] at hk
  cases hv' : L'.accounts rt.vaultPda with
  | none => simp [hv'] at hk
  | some v' =>
    simp only [hv', Option.map_some, Option.some.injEq, Prod.mk.injEq] at hk
    exact ⟨v', hv', by rw [hk.2, howner]⟩

/-- An account of a key that can sign is not the vault. -/
theorem ne_vault {L : Ledger} (laws : TokenLaws rt) (ho : VaultOwned rt L) {k : Pubkey}
    {t : TokenAccount} (ht : L.accounts k = some t) (hs : rt.canSign t.owner = true) :
    k ≠ rt.vaultPda := by
  rintro rfl
  obtain ⟨v, hv, howner⟩ := ho
  rw [hv, Option.some.injEq] at ht
  rw [← ht, howner, laws.pda] at hs
  cases hs

/-- `mine` pays the reward out of the vault into the miner's account, and nothing else. -/
theorem mine_moves (laws : TokenLaws rt) {L L₁ L' : Ledger} {cfg : EquiumConfig} {a : Mine}
    {d : UInt8} (ho : VaultOwned rt L) (hv : cfg.mineableVault = rt.vaultPda)
    (hav : cfg.mineableVault = a.mineableVault) (hs : rt.canSign a.miner = true)
    (hata : initAtaIfNeeded rt L a = .ok L₁)
    (ht : rt.transferChecked L₁ (rewardTransfer rt cfg a d) = some L') :
    L'.balance rt.vaultPda + cfg.currentEpochReward.toNat = L.balance rt.vaultPda ∧
      L'.balance a.minerAta = L.balance a.minerAta + cfg.currentEpochReward.toNat ∧
      VaultOwned rt L' := by
  obtain ⟨hbal, hkeep, t, hta, howner⟩ := initAtaIfNeeded_ok hata
  obtain ⟨v, hvv, hvo⟩ := ho
  have ho₁ : VaultOwned rt L₁ := ⟨v, hkeep _ _ hvv, hvo⟩
  have hm := laws.moved ht
  have hne : a.minerAta ≠ rt.vaultPda := ne_vault laws ho₁ hta (howner ▸ hs)
  have hsrc : (rewardTransfer rt cfg a d).source = rt.vaultPda := hav.symm.trans hv
  have hdst : (rewardTransfer rt cfg a d).destination = a.minerAta := rfl
  have hamt : (rewardTransfer rt cfg a d).amount = cfg.currentEpochReward := rfl
  have h₁ := hm.balance rt.vaultPda
  have h₂ := hm.balance a.minerAta
  rw [hsrc, hdst, hamt, hbal] at h₁ h₂
  rw [if_pos rfl, if_neg hne.symm, Nat.add_zero] at h₁
  rw [if_neg hne, if_pos rfl, Nat.add_zero] at h₂
  exact ⟨h₁, h₂, hm.owned ho₁⟩

/-- `fund_vault` moves the mineable supply into the vault. -/
theorem fund_moves (laws : TokenLaws rt) {L L' : Ledger} {cfg : EquiumConfig} {a : FundVault}
    {d : UInt8} (ho : VaultOwned rt L) (hv : cfg.mineableVault = rt.vaultPda)
    (hav : cfg.mineableVault = a.mineableVault) (hs : rt.canSign a.admin = true)
    (ht : rt.transferChecked L (fundTransfer a d) = some L') :
    L'.balance rt.vaultPda = L.balance rt.vaultPda + mineableBase.toNat ∧ VaultOwned rt L' := by
  have hm := laws.moved ht
  obtain ⟨s, hsrc, howner⟩ := hm.owner
  have hsrc' : L.accounts a.source = some s := hsrc
  have howner : s.owner = a.admin := howner
  have hne : a.source ≠ rt.vaultPda := ne_vault laws ho hsrc' (howner ▸ hs)
  have hdst : (fundTransfer a d).destination = rt.vaultPda := hav.symm.trans hv
  have hs' : (fundTransfer a d).source = a.source := rfl
  have hamt : (fundTransfer a d).amount = mineableBase := rfl
  have h := hm.balance rt.vaultPda
  rw [hdst, hs', hamt, if_neg hne.symm, if_pos rfl, Nat.add_zero] at h
  exact ⟨h, hm.owned ho⟩

/-! ### The invariant -/

@[simp] theorem deposits_concat (tr : Record) (t : Taken World Action) :
    deposits (tr ++ [t]) = deposits tr + t.label.deposit := by simp [deposits]

@[simp] theorem received_concat (tr : Record) (t : Taken World Action) :
    received (tr ++ [t]) = received tr + receivedAt t := by simp [received]

@[simp] theorem openings_concat (tr : Record) (t : Taken World Action) :
    (openings (tr ++ [t])).length =
      (openings tr).length + if !t.pre.isOpen && t.post.isOpen then 1 else 0 := by
  by_cases h : (!t.pre.isOpen && t.post.isOpen) = true <;> simp [openings, h]

theorem isOpen_of_config {w : World} {cfg : EquiumConfig} (h : w.config = some cfg) :
    w.isOpen = cfg.miningOpen := by simp [World.isOpen, h]

theorem Quiet.receivedAt {l : Action} {L L' : Ledger} (h : Quiet rt l L L') (w w' : World) :
    receivedAt ⟨w, l, w'⟩ = 0 := by
  cases l with
  | ok env ix evs => exact absurd rfl (h.label env ix evs)
  | err => rfl
  | outside => rfl

/-- A step that moves no tokens at the vault and keeps the counters and the gate. -/
theorem vault_frame {tr : Record} {w : World} {l : Action} {cfg cfg' : EquiumConfig}
    {L' : Ledger} (h : VaultInv rt tr cfg w.ledger) (hw : w.config = some cfg)
    (hv : cfg'.mineableVault = cfg.mineableVault) (ho : cfg'.miningOpen = cfg.miningOpen)
    (hc : cfg'.cumulativeMined = cfg.cumulativeMined)
    (hh : cfg.miningOpen = false → cfg'.blockHeight = cfg.blockHeight)
    (howned : VaultOwned rt L')
    (hb : L'.balance rt.vaultPda = w.ledger.balance rt.vaultPda + l.deposit)
    (hr : receivedAt ⟨w, l, ⟨some cfg', L'⟩⟩ = 0) :
    VaultInv rt (tr ++ [⟨w, l, ⟨some cfg', L'⟩⟩]) cfg' L' where
  vault := hv.trans h.vault
  owned := howned
  closed hcl := by
    rw [ho] at hcl
    obtain ⟨h₁, h₂, h₃⟩ := h.closed hcl
    exact ⟨by rw [hh hcl, h₁], by rw [hc, h₂], by rw [deposits_concat, hb, h₃]⟩
  isOpen hop := by
    have := h.isOpen (ho ▸ hop)
    rw [deposits_concat, hb, hc]
    dsimp only
    omega
  received := by rw [received_concat, hr, hc, h.received, Nat.add_zero]
  openings := by
    rw [openings_concat, h.openings, isOpen_of_config hw, isOpen_of_config rfl, ho]
    cases cfg.miningOpen <;> rfl

/-- Step lemma: every successful instruction keeps the vault's books. -/
theorem vault_step (laws : TokenLaws rt) {tr : Record} {env : Env} {w : World} {ix : Ix}
    {evs : List Event} {cfg cfg' : EquiumConfig} {L' : Ledger}
    (h : VaultInv rt tr cfg w.ledger) (hw : w.config = some cfg)
    (hs : rt.canSign ix.signer = true)
    (he : Effect rt env w.ledger (some cfg) ix cfg' L') :
    VaultInv rt (tr ++ [⟨w, .ok env ix evs, ⟨some cfg', L'⟩⟩]) cfg' L' := by
  cases he with
  | renounceAdmin a => exact vault_frame h hw rfl rfl rfl (fun _ => rfl) h.owned rfl rfl
  | setTarget a t => exact vault_frame h hw rfl rfl rfl (fun _ => rfl) h.owned rfl rfl
  | advanceEmptyRound a _ _ hopen hel hadv =>
    exact vault_frame h hw hadv.mineableVault hadv.miningOpen hadv.cumulativeMined
      (fun hc => by rw [hopen] at hc; cases hc) h.owned rfl rfl
  | fundVault a _ d _ hadmin hav hclosed htr =>
    obtain ⟨hbal, howned⟩ := fund_moves laws h.owned h.vault hav hs htr
    obtain ⟨-, hcum, hdep⟩ := h.closed hclosed
    refine ⟨h.vault, howned, (fun hc => by cases hc), fun _ => ?_, ?_, ?_⟩
    · rw [deposits_concat, hbal, hdep]
      simp only [openedConfig, hcum, Action.deposit]
      change _ + 0 = _
      omega
    · rw [received_concat, h.received]; rfl
    · rw [openings_concat, h.openings, isOpen_of_config hw, isOpen_of_config rfl, hclosed]; rfl
  | mine a nonce soln _ _ d cumulative L₁ _ hacc hata hcum hcap htr hadv =>
    obtain ⟨hbal, hgain, howned⟩ := mine_moves laws h.owned h.vault hacc.vault hs hata htr
    have hopen := h.isOpen hacc.isOpen
    have hcum' : cfg'.cumulativeMined.toNat =
        cfg.cumulativeMined.toNat + cfg.currentEpochReward.toNat := by
      rw [hadv.cumulativeMined]; exact hcum
    have hopen' : cfg'.miningOpen = true := hadv.miningOpen.trans hacc.isOpen
    refine ⟨hadv.mineableVault.trans h.vault, howned, fun hc => ?_, fun _ => ?_, ?_, ?_⟩
    · rw [hopen'] at hc; cases hc
    · rw [deposits_concat, hcum']
      simp only [Action.deposit]
      omega
    · rw [received_concat, h.received, hcum']
      simp only [receivedAt, hgain]
      omega
    · rw [openings_concat, h.openings, isOpen_of_config hw, isOpen_of_config rfl, hacc.isOpen,
        hopen']
      rfl

/-- Run lemma: the vault's books are right after every run that starts without a vault account. -/
theorem vault_run (laws : TokenLaws rt) {L : Ledger} {tr : Record} {w : World}
    (hL : L.accounts rt.vaultPda = none) (h : Run (Step rt) (genesis L) tr w) :
    (w.config = none → w.ledger.accounts rt.vaultPda = none ∧ deposits tr = 0 ∧ received tr = 0 ∧
      (openings tr).length = 0) ∧ ∀ cfg, w.config = some cfg → VaultInv rt tr cfg w.ledger := by
  refine run_phases (N := fun tr L => L.accounts rt.vaultPda = none ∧ deposits tr = 0 ∧
    received tr = 0 ∧ (openings tr).length = 0) (I := VaultInv rt) ⟨hL, rfl, rfl, rfl⟩ ?_ ?_ ?_ ?_ h
  · rintro tr l L L' hq ⟨hv, hd, hr, ho⟩
    obtain ⟨hv', hd'⟩ := hq.vault.absent hv
    refine ⟨hv', by rw [deposits_concat, hd, hd'], ?_, ?_⟩
    · rw [received_concat, hr, hq.receivedAt]
    · rw [openings_concat, ho]; rfl
  · rintro tr env ix evs L cfg' L' he ⟨-, hd, hr, ho⟩
    cases he with
    | initializeEquium a args hadmin hvault hfresh =>
      refine ⟨hvault, ⟨_, Ledger.set_self .., rfl⟩, fun _ => ⟨rfl, rfl, ?_⟩,
        fun hc => (by cases hc), ?_, ?_⟩
      · rw [deposits_concat, hd]; simp [Ledger.balance, Action.deposit]
      · rw [received_concat, hr]; rfl
      · rw [openings_concat, ho]
        simp [World.isOpen, genesisConfig]
  · intro tr l cfg L L' hq hinv
    obtain ⟨v, hv, howner⟩ := hinv.owned
    obtain ⟨v', hv', -, howner', hamt⟩ := hq.vault.present v hv
    exact vault_frame (w := ⟨some cfg, L⟩) hinv rfl rfl rfl rfl (fun _ => rfl)
      ⟨v', hv', howner'.trans howner⟩ (by simp [Ledger.balance, hv, hv', hamt]) (hq.receivedAt _ _)
  · intro tr env ix evs cfg L cfg' L' hs he hinv
    exact vault_step (w := ⟨some cfg, L⟩) laws hinv rfl hs he

/-! ### Solvency -/

theorem Effect.keeps_open {env : Env} {L L' : Ledger} {cfg cfg' : EquiumConfig} {ix : Ix}
    (he : Effect rt env L (some cfg) ix cfg' L') (ho : cfg.miningOpen = true) :
    cfg'.miningOpen = true := by
  cases he with
  | fundVault => rfl
  | mine _ _ _ _ _ _ _ _ _ _ _ _ _ _ hadv => exact hadv.miningOpen.trans ho
  | advanceEmptyRound _ _ _ _ _ hadv => exact hadv.miningOpen.trans ho
  | renounceAdmin => exact ho
  | setTarget => exact ho

/-- The gate never closes. -/
theorem Step.keeps_open {w w' : World} {l : Action} (h : Step rt w l w')
    (ho : w.isOpen = true) : w'.isOpen = true := by
  rcases h.ok_or_quiet with ⟨env, ix, evs, rfl⟩ | ⟨hw', -⟩
  · obtain ⟨-, cfg', L', rfl, he⟩ := h.effect
    cases hw : w.config with
    | none => simp [World.isOpen, hw] at ho
    | some cfg =>
      rw [hw] at he
      rw [isOpen_of_config hw] at ho
      exact he.keeps_open ho
  · rw [hw']
    exact ho

/-! Where a `token` error of `mine` cannot come from. -/

theorem loadConfig_token (w : World) (key : Pubkey) : loadConfig rt w key ≠ .error .token := by
  simp [loadConfig, bind_error, okOr_error, require_error, pure, Except.pure]

theorem initAtaIfNeeded_token (L : Ledger) (a : Mine) :
    initAtaIfNeeded rt L a ≠ .error .token := by
  unfold initAtaIfNeeded
  cases L.accounts a.minerAta <;> simp [bind_error, require_error, pure, Except.pure]

theorem verifySubmission_token (c : Crates) (n k : UInt32) (ch m : Bytes32) (h : UInt64)
    (nonce : Bytes32) (soln : List UInt8) (t : Bytes32) :
    verifySubmission c n k ch m h nonce soln t ≠ .error .token := by
  unfold verifySubmission
  rcases hv : verify c n k (buildInput ch m h) nonce soln t with (_ | _) | _ <;> simp [hv]

theorem readRecentSlotHash_token (data : Option (List UInt8)) :
    readRecentSlotHash data ≠ .error .token := by
  cases data with
  | none => simp [readRecentSlotHash, bind_error, okOr_error]
  | some d =>
    simp only [readRecentSlotHash, ne_eq, bind_error, okOr_error, okOr_ok, Option.some.injEq,
      reduceCtorEq, false_and, false_or, exists_eq_left']
    split_ifs <;> simp [throw, throwThe, MonadExceptOf.throw, pure, Except.pure]

theorem advanceRound_token (c : Crates) (cfg : EquiumConfig) (clock : Clock)
    (sh : Option (List UInt8)) (t : RoundTransition) :
    advanceRound c cfg clock sh t ≠ .error .token := by
  have hrec : ∀ cfg, recordTransition cfg t ≠ .error .token := by
    intro cfg
    cases t <;> simp [recordTransition, bind_error, okOr_error, pure, Except.pure]
  have hret : ∀ cfg h, retargetIfDue cfg clock h ≠ .error .token := by
    intro cfg h
    unfold retargetIfDue
    split_ifs <;> simp [bind_error, okOr_error, pure, Except.pure]
  have hhal : ∀ cfg h, halveIfDue cfg h ≠ .error .token := by
    intro cfg h
    unfold halveIfDue
    split_ifs <;> simp [bind_error, okOr_error, pure, Except.pure]
  simp [advanceRound, bind_error, okOr_error, readRecentSlotHash_token, hrec, hret, hhal, pure,
    Except.pure]

/-- The only refusal of the token program that `mine` can see comes after all of its own checks. -/
theorem mine_token_error {env : Env} {w : World} {a : Mine} {nonce : Bytes32} {soln : List UInt8}
    (h : mine rt env w a nonce soln = .error .token) : ∃ cfg, w.config = some cfg ∧
      cfg.miningOpen = true ∧
      cfg.cumulativeMined.toNat + cfg.currentEpochReward.toNat ≤ mineableBase.toNat := by
  simp only [mine, bind_error, require_error, okOr_error, require_ok, okOr_ok, loadConfig_token,
    initAtaIfNeeded_token, verifySubmission_token, advanceRound_token, loadConfig_ok, loadMint,
    loadToken, checkVaultSeeds, reduceCtorEq, and_false, false_or, pure,
    Except.pure] at h
  obtain ⟨cfg, ⟨-, hcfg, -⟩, -, -, -, -, -, -, -, -, -, -, -, -, -, -, -, hopen, -, -, -, -, cum,
    hcum, -, hcap, -⟩ := h
  have hcum := checkedAdd_some.mp hcum
  have hcap := UInt64.le_iff_toNat_le.mp (of_decide_eq_true hcap)
  exact ⟨cfg, hcfg, hopen, by omega⟩

/-- VAULT CONSERVATION: mining opens at most once and never closes; before that nothing has left
    the vault; afterwards the vault holds the mineable supply less the payout plus what third parties
    sent, and miners received exactly the payout; a refused transfer is never for lack of funds. -/
theorem vault_conservation (laws : TokenLaws rt) (L : Ledger) (tr : Record) (w : World)
    (hL : L.accounts rt.vaultPda = none) (h : Run (Step rt) (genesis L) tr w) :
    (openings tr).length ≤ 1 ∧
      (∀ t ∈ tr, t.pre.isOpen = true → t.post.isOpen = true) ∧
      (w.isOpen = false → w.ledger.balance rt.vaultPda = deposits tr ∧
        ∀ cfg, w.config = some cfg → cfg.blockHeight = 0 ∧ cfg.cumulativeMined = 0) ∧
      (∀ cfg, w.config = some cfg → cfg.miningOpen = true →
        cfg.cumulativeMined.toNat ≤ mineableBase.toNat ∧
        w.ledger.balance rt.vaultPda =
          mineableBase.toNat - cfg.cumulativeMined.toNat + deposits tr ∧
        received tr = cfg.cumulativeMined.toNat) ∧
      ∀ env a nonce soln, mine rt env w a nonce soln = .error .token → ∃ cfg,
        w.config = some cfg ∧ cfg.currentEpochReward.toNat ≤ w.ledger.balance rt.vaultPda := by
  obtain ⟨hnone, hsome⟩ := vault_run laws hL h
  have hle : ∀ cfg, w.config = some cfg →
      cfg.cumulativeMined.toNat ≤ mineableBase.toNat := fun cfg hw => by
    have := ((accounts_run h).2 cfg hw).capped
    rw [epochs_worth] at this
    omega
  refine ⟨?_, fun t ht ho => ?_, fun ho => ?_, fun cfg hw ho => ?_, fun env a nonce soln he => ?_⟩
  · cases hw : w.config with
    | none => rw [(hnone hw).2.2.2]; omega
    | some cfg => rw [(hsome cfg hw).openings]; split <;> omega
  · obtain ⟨-, -, -, -, hst⟩ := h.mem t ht
    exact hst.keeps_open ho
  · cases hw : w.config with
    | none =>
      obtain ⟨hv, hd, -, -⟩ := hnone hw
      exact ⟨by simp [Ledger.balance, hv, hd], by simp⟩
    | some cfg =>
      rw [isOpen_of_config hw] at ho
      obtain ⟨h₁, h₂, h₃⟩ := (hsome cfg hw).closed ho
      exact ⟨h₃, by rintro _ ⟨⟩; exact ⟨h₁, h₂⟩⟩
  · have hb := (hsome cfg hw).isOpen ho
    have := hle cfg hw
    exact ⟨this, by omega, (hsome cfg hw).received⟩
  · obtain ⟨cfg, hw, ho, hfit⟩ := mine_token_error he
    have hb := (hsome cfg hw).isOpen ho
    exact ⟨cfg, hw, by omega⟩

/-- The demonstration run: one reward left the vault and reached the miner. -/
theorem vault_conservation_demo : ∃ tr, Run (Step Demo.runtime) (genesis Demo.ledger) tr Demo.world ∧
    received tr = 25000000 ∧ Demo.world.ledger.balance Demo.runtime.vaultPda =
      18900000000000 - 25000000 + deposits tr := by
  obtain ⟨tr, hr⟩ := Demo.world_run
  have hopen : Demo.config.miningOpen = true := by rw [Demo.config_eq]
  have hcum : Demo.config.cumulativeMined.toNat = 25000000 := by rw [Demo.config_eq]; rfl
  obtain ⟨-, -, -, hall, -⟩ := vault_conservation Demo.runtime_laws Demo.ledger tr _
    (by decide +kernel) hr
  obtain ⟨-, hbal, hrec⟩ := hall Demo.config Demo.world_config hopen
  rw [hcum, mineableBase_toNat] at hbal
  exact ⟨tr, hr, by rw [hrec, hcum], hbal⟩

/-- SCHEDULE REFINEMENT: in every reachable state the running schedule is the closed form of the
    height, and every successful mine moves exactly `rewardAtHeight` of the height it closed out of
    the vault and into the miner's account. -/
theorem schedule_refines (laws : TokenLaws rt) (L : Ledger) (tr : Record) (w : World)
    (hL : L.accounts rt.vaultPda = none) (h : Run (Step rt) (genesis L) tr w) :
    (∀ cfg, w.config = some cfg → cfg.currentEpochReward = rewardAtHeight cfg.blockHeight ∧
        cfg.nextHalvingBlock.toNat = 378000 * (cfg.blockHeight.toNat / 378000 + 1) ∧
        cfg.nextRetargetBlock.toNat = 60 * (cfg.blockHeight.toNat / 60 + 1)) ∧
      ∀ t ∈ tr, ∀ env a nonce soln evs, t.label = .ok env (.mine a nonce soln) evs →
        ∃ cfg, t.pre.config = some cfg ∧
          t.post.ledger.balance rt.vaultPda + (rewardAtHeight cfg.blockHeight).toNat =
            t.pre.ledger.balance rt.vaultPda ∧
          t.post.ledger.balance a.minerAta =
            t.pre.ledger.balance a.minerAta + (rewardAtHeight cfg.blockHeight).toNat := by
  refine ⟨fun cfg hw => ?_, ?_⟩
  · obtain ⟨h₁, h₂, h₃⟩ := ((accounts_run h).2 cfg hw).schedule
    exact ⟨h₁, h₂, h₃⟩
  · intro t ht env a nonce soln evs hl
    obtain ⟨tr₁, -, -, hr, hst⟩ := h.mem t ht
    rw [hl] at hst
    obtain ⟨hs, cfg', L', hpost, he⟩ := hst.effect
    cases hw : t.pre.config with
    | none => rw [hw] at he; cases he
    | some cfg =>
      rw [hw] at he
      have hv := (vault_run laws hL hr).2 cfg hw
      have hsch := ((accounts_run hr).2 cfg hw).schedule
      cases he with
      | mine a nonce soln _ _ d cumulative L₁ _ hacc hata hcum hcap htr hadv =>
        obtain ⟨h₁, h₂, -⟩ := mine_moves laws hv.owned hv.vault hacc.vault hs hata htr
        rw [hsch.reward] at h₁ h₂
        rw [hpost]
        exact ⟨cfg, rfl, h₁, h₂⟩

/-- The demonstration run: after one mined and one skipped round the schedule is that of height 2. -/
theorem schedule_refines_demo : ∃ cfg, Demo.world.config = some cfg ∧ cfg.blockHeight = 2 ∧
    cfg.currentEpochReward = rewardAtHeight cfg.blockHeight := by
  obtain ⟨tr, hr⟩ := Demo.world_run
  have hh : Demo.config.blockHeight = 2 := by rw [Demo.config_eq]
  exact ⟨Demo.config, Demo.world_config, hh, ((schedule_refines Demo.runtime_laws Demo.ledger tr _
    (by decide +kernel) hr).1 Demo.config Demo.world_config).1⟩

end Equium.Program
