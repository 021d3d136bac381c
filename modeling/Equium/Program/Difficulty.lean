import Equium.Program.Admin
import Equium.Program.EmptyRounds

/-! @src programs/equium/src/round.rs, schedule.rs, instructions/set_target.rs, mine.rs |
    name:Difficulty over runs | scheme:run-invariant

    Between two `set_target` calls only the retargets move the target, one a window of 60 rounds, each
    by a factor between a half and two. The arithmetic rounds down, so a target of one can become zero;
    no hash is under zero, and rescaling zero gives zero. -/

namespace Equium.Program
open Schemes Equium.Core

variable {rt : Runtime}

/-- A successful `set_target`. -/
def seedsAt (t : Taken World Action) : Bool :=
  match t.label with
  | .ok _ (.setTarget _ _) _ => true
  | _ => false

/-- The windows that end between two configs. -/
def windows (cfg₀ cfg : EquiumConfig) : ℕ :=
  cfg.blockHeight.toNat / 60 - cfg₀.blockHeight.toNat / 60

/-- How far the target may be from an earlier one. -/
structure Drift (cfg₀ cfg : EquiumConfig) : Prop where
  height : cfg₀.blockHeight.toNat ≤ cfg.blockHeight.toNat
  lower : targetNat cfg₀.currentTarget / 2 ^ windows cfg₀ cfg ≤ targetNat cfg.currentTarget
  upper : targetNat cfg.currentTarget ≤ targetNat cfg₀.currentTarget * 2 ^ windows cfg₀ cfg

/-! ### One step -/

/-- One retarget stays within a half and twice the old target. -/
theorem nextTarget_factor {t t' : Bytes32} {s : UInt64} (h : nextTarget t s = some t') :
    targetNat t / 2 ≤ targetNat t' ∧ targetNat t' ≤ targetNat t * 2 := by
  obtain ⟨r, hr, hval⟩ := nextTarget_value t s
  obtain rfl := Option.some.inj (hr.symm.trans h)
  have hlt := targetNat_lt t
  have hlow : targetNat t * 1800 ≤ targetNat t * max 1800 (min 7200 s.toNat) :=
    Nat.mul_le_mul_left _ (le_max_left ..)
  have hhigh : targetNat t * max 1800 (min 7200 s.toNat) ≤ targetNat t * 7200 :=
    Nat.mul_le_mul_left _ (by omega)
  rw [hval]
  omega

/-- A retarget gives zero from zero, and from one when the window took less than its hour. -/
theorem nextTarget_zero_iff {t t' : Bytes32} {s : UInt64} (h : nextTarget t s = some t') :
    targetNat t' = 0 ↔ targetNat t = 0 ∨ targetNat t = 1 ∧ s.toNat < 3600 := by
  obtain ⟨r, hr, hval⟩ := nextTarget_value t s
  obtain rfl := Option.some.inj (hr.symm.trans h)
  have hscaled : targetNat r = 0 ↔ targetNat t * max 1800 (min 7200 s.toNat) < 3600 := by
    rw [hval]
    omega
  rw [hscaled]
  rcases Nat.lt_or_ge (targetNat t) 2 with hsmall | hbig
  · obtain h0 | h1 : targetNat t = 0 ∨ targetNat t = 1 := by omega
    · simp [h0]
    · rw [h1]
      omega
  · have hlow : 2 * 1800 ≤ targetNat t * max 1800 (min 7200 s.toNat) :=
      Nat.mul_le_mul hbig (le_max_left ..)
    omega

/-- Step lemma: apart from `set_target` an instruction closes a round or leaves the target alone. -/
theorem Effect.target_move {env : Env} {L L' : Ledger} {cfg cfg' : EquiumConfig} {ix : Ix}
    (he : Effect rt env L (some cfg) ix cfg' L') (hix : ∀ a t, ix ≠ .setTarget a t) :
    ix.closesRound = true ∧ TargetMove cfg cfg' env.clock ∨
      ix.closesRound = false ∧ cfg'.blockHeight = cfg.blockHeight ∧
        cfg'.currentTarget = cfg.currentTarget := by
  cases he with
  | mine a nonce soln _ _ d cumulative L₁ _ hacc hata hcum hcap htr hadv =>
    exact .inl ⟨rfl, hadv.targetMove⟩
  | advanceEmptyRound a _ _ hopen hel hadv => exact .inl ⟨rfl, hadv.targetMove⟩
  | fundVault => exact .inr ⟨rfl, rfl, rfl⟩
  | renounceAdmin => exact .inr ⟨rfl, rfl, rfl⟩
  | setTarget a t => exact absurd rfl (hix a t)

theorem Drift.refl (cfg : EquiumConfig) : Drift cfg cfg where
  height := le_rfl
  lower := by simp [windows]
  upper := by simp [windows]

/-- A step that moves neither the height nor the target. -/
theorem Drift.same {cfg₀ cfg cfg' : EquiumConfig} (h : Drift cfg₀ cfg)
    (hb : cfg'.blockHeight = cfg.blockHeight) (ht : cfg'.currentTarget = cfg.currentTarget) :
    Drift cfg₀ cfg' := by
  obtain ⟨hh, hlow, hup⟩ := h
  rw [windows] at hlow hup
  exact ⟨by rwa [hb], by rwa [windows, hb, ht], by rwa [windows, hb, ht]⟩

/-- Step lemma: closing a round widens the bounds by a factor of two exactly at a window's end. -/
theorem Drift.move {cfg₀ cfg cfg' : EquiumConfig} {clock : Clock} (h : Drift cfg₀ cfg)
    (hm : TargetMove cfg cfg' clock) : Drift cfg₀ cfg' := by
  obtain ⟨hh, hlow, hup⟩ := h
  obtain ⟨hb, ht⟩ := hm
  split_ifs at ht with hw
  · have hsucc : windows cfg₀ cfg' = windows cfg₀ cfg + 1 := by
      simp only [windows]
      omega
    obtain ⟨hhalf, htwice⟩ := nextTarget_factor ht
    refine ⟨by omega, ?_, ?_⟩
    · rw [hsucc, pow_succ, ← Nat.div_div_eq_div_mul]
      exact (Nat.div_le_div_right hlow).trans hhalf
    · rw [hsucc, pow_succ, ← mul_assoc]
      exact htwice.trans (Nat.mul_le_mul_right 2 hup)
  · have hsame : windows cfg₀ cfg' = windows cfg₀ cfg := by
      simp only [windows]
      omega
    exact ⟨by omega, by rwa [hsame, ht], by rwa [hsame, ht]⟩

/-! ### Stretches without a `set_target` -/

/-- What one step of such a stretch does to the config. -/
inductive Moves (t : Taken World Action) (cfg cfg' : EquiumConfig) : Prop
  | closed {env : Env} {ix : Ix} {evs : List Event} (hlabel : t.label = .ok env ix evs)
      (hix : ix.closesRound = true) (hmove : TargetMove cfg cfg' env.clock)
  | kept (hopen : minedAt t = none) (hskip : skippedAt t = none)
      (height : cfg'.blockHeight = cfg.blockHeight) (target : cfg'.currentTarget = cfg.currentTarget)

/-- Every step that is no `set_target` moves the config on in this way. -/
theorem Step.moves {t : Taken World Action} {cfg : EquiumConfig}
    (h : Step rt t.pre t.label t.post) (hpre : t.pre.config = some cfg) (hseed : seedsAt t = false) :
    ∃ cfg', t.post.config = some cfg' ∧ Moves t cfg cfg' := by
  obtain ⟨pre, label, post⟩ := t
  dsimp only at h hpre ⊢
  rcases h.ok_or_quiet with ⟨env, ix, evs, rfl⟩ | ⟨hpost, hq⟩
  · obtain ⟨-, cfg', L', rfl, he⟩ := h.effect
    rw [hpre] at he
    have hix : ∀ a t, ix ≠ .setTarget a t := by
      rintro a t rfl
      cases hseed
    refine ⟨cfg', rfl, ?_⟩
    rcases he.target_move hix with ⟨hc, hm⟩ | ⟨hc, hb, ht⟩
    · exact .closed rfl hc hm
    · refine .kept ?_ ?_ hb ht
      · cases ix <;> first | rfl | cases hc
      · cases ix <;> first | rfl | cases hc
  · obtain ⟨hm, hs⟩ := hq.closes pre post
    exact ⟨cfg, by rw [hpost]; exact hpre, .kept hm hs rfl rfl⟩

/-- Induction on a stretch without a `set_target`. -/
theorem stretch_inv {I : Record → EquiumConfig → Prop} {w₀ w : World} {tr : Record}
    {cfg₀ : EquiumConfig} (h₀ : w₀.config = some cfg₀) (hstart : I [] cfg₀)
    (hstep : ∀ tr t cfg cfg', Moves t cfg cfg' → t.pre.config = some cfg →
      Step rt t.pre t.label t.post → I tr cfg → I (tr ++ [t]) cfg')
    (h : Run (Step rt) w₀ tr w) (hseed : ∀ t ∈ tr, seedsAt t = false) :
    ∃ cfg, w.config = some cfg ∧ I tr cfg := by
  refine h.inv (fun tr w => (∀ t ∈ tr, seedsAt t = false) → ∃ cfg, w.config = some cfg ∧ I tr cfg)
    (fun _ => ⟨cfg₀, h₀, hstart⟩) ?_ hseed
  intro tr w l w' _ ih hst hseed
  obtain ⟨cfg, hw, hI⟩ := ih fun t ht => hseed t (List.mem_append_left _ ht)
  obtain ⟨cfg', hw', hm⟩ := Step.moves (t := ⟨w, l, w'⟩) hst hw (hseed _ (by simp))
  exact ⟨cfg', hw', hstep tr _ cfg cfg' hm hw hst hI⟩

/-- PACED: over any stretch of a run without a `set_target` the target changes at most by a factor of
    two, up or down, for each multiple of 60 the height has passed. -/
theorem difficulty_paced (w₀ w : World) (tr : Record) (h : Run (Step rt) w₀ tr w)
    (cfg₀ : EquiumConfig) (h₀ : w₀.config = some cfg₀) (hseed : ∀ t ∈ tr, seedsAt t = false) :
    ∃ cfg, w.config = some cfg ∧ cfg₀.blockHeight.toNat ≤ cfg.blockHeight.toNat ∧
      targetNat cfg₀.currentTarget / 2 ^ (cfg.blockHeight.toNat / 60 - cfg₀.blockHeight.toNat / 60) ≤
        targetNat cfg.currentTarget ∧
      targetNat cfg.currentTarget ≤
        targetNat cfg₀.currentTarget *
          2 ^ (cfg.blockHeight.toNat / 60 - cfg₀.blockHeight.toNat / 60) := by
  obtain ⟨cfg, hw, hd⟩ := stretch_inv (I := fun _ cfg => Drift cfg₀ cfg) h₀ (.refl cfg₀)
    (fun tr t cfg cfg' hm _ _ hd => by
      cases hm with
      | closed _ _ hmove => exact hd.move hmove
      | kept _ _ hb ht => exact hd.same hb ht) h hseed
  exact ⟨cfg, hw, hd.height, hd.lower, hd.upper⟩

namespace Demo

/-- Transactions without a `set_target` make a stretch without one. -/
theorem record_no_seed {rt : Runtime} {txs : List (Env × Ix)} (w : World)
    (h : ∀ tx ∈ txs, ∀ a t, tx.2 ≠ .setTarget a t) : ∀ t ∈ record rt w txs, seedsAt t = false := by
  rintro ⟨pre, l, post⟩ ht
  cases l with
  | ok env ix evs =>
    have hix := h _ ((record_labels rt txs w).2 _ ht env ix evs rfl)
    cases ix with
    | setTarget a t => exact absurd rfl (hix a t)
    | _ => rfl
  | err => rfl
  | outside => rfl

/-- The cluster just after `initialize`, with this target. -/
def started (target : Bytes32) : World :=
  play runtime (genesis ledger) [(env 5, .initializeEquium ⟨expectedAdmin, key 1, key 10, key 2⟩
    ⟨target, 96, 5⟩)]

/-- Mining opens and sixty rounds time out; then a submission, and the admin leaves. -/
def quietTxs : List (Env × Ix) :=
  (env 6, .fundVault ⟨expectedAdmin, key 1, key 10, key 20, key 2⟩) ::
    ((List.range 60).map fun i =>
      (env (156 + 150 * UInt64.ofNat i), .advanceEmptyRound ⟨key 30, key 1, key 3⟩)) ++
  [(env 9007, .mine ⟨key 30, key 1, key 10, key 2, key 130, key 9, key 3⟩ (key 0) [1]),
   (env 9008, .renounceAdmin ⟨expectedAdmin, key 1⟩)]

theorem quietTxs_no_seed : ∀ tx ∈ quietTxs, ∀ a t, tx.2 ≠ .setTarget a t := by
  intro tx htx a t
  simp only [quietTxs, List.cons_append, List.mem_cons, List.mem_append, List.mem_map,
    List.mem_range, List.not_mem_nil, or_false] at htx
  rcases htx with rfl | ⟨i, -, rfl⟩ | rfl | rfl <;> simp

end Demo

/-- Sixty rounds of a stalled clock: the target is at least half of what it was. -/
theorem difficulty_paced_demo : ∃ w tr cfg, Run (Step Demo.runtime) (Demo.started maxTarget) tr w ∧
    w.config = some cfg ∧ (2 ^ 256 - 1) / 2 ≤ targetNat cfg.currentTarget := by
  obtain ⟨cfg₀, h₀, hheight, htarget⟩ : ∃ cfg₀, (Demo.started maxTarget).config = some cfg₀ ∧
      cfg₀.blockHeight = 0 ∧ cfg₀.currentTarget = maxTarget :=
    ⟨(Demo.started maxTarget).config.get (by decide +kernel), by simp, by decide +kernel,
      by decide +kernel⟩
  obtain ⟨cfg, hw, -, hlow, -⟩ := @difficulty_paced Demo.runtime _ _ _
    (record_run Demo.runtime Demo.quietTxs _) cfg₀ h₀ (Demo.record_no_seed _ Demo.quietTxs_no_seed)
  have hend : (play Demo.runtime (Demo.started maxTarget) Demo.quietTxs).config.map
      (·.blockHeight) = some 61 := by decide +kernel
  have hh : cfg.blockHeight = 61 := by simpa [hw] using hend
  rw [hh, hheight, htarget, targetNat_maxTarget] at hlow
  exact ⟨_, _, cfg, record_run Demo.runtime Demo.quietTxs _, hw, hlow⟩

/-! ### The zero target -/

/-- No hash is under the zero target. -/
theorem not_under_zero {h t : Bytes32} (hz : targetNat t = 0) : hashUnderTarget h t = false := by
  rw [← Bool.not_eq_true, hashUnderTarget_iff, hz]
  exact Nat.not_lt_zero _

/-- Step lemma: a zero target stays zero, and nothing is mined under it. -/
theorem Moves.zero {t : Taken World Action} {cfg cfg' : EquiumConfig} (hm : Moves t cfg cfg')
    (hst : Step rt t.pre t.label t.post) (hpre : t.pre.config = some cfg)
    (hz : targetNat cfg.currentTarget = 0) : targetNat cfg'.currentTarget = 0 ∧ minedAt t = none := by
  refine ⟨?_, ?_⟩
  · cases hm with
    | closed _ _ hmove =>
      obtain ⟨-, ht⟩ := hmove
      split_ifs at ht with hw
      · exact (nextTarget_zero_iff ht).mpr (.inl hz)
      · rw [ht, hz]
    | kept _ _ _ ht => rw [ht, hz]
  · rw [Option.eq_none_iff_forall_ne_some]
    intro c hc
    obtain ⟨env, a, nonce, soln, evs, cfg', L', -, hpre', -, -, he⟩ := minedAt_step hc hst
    obtain rfl := Option.some.inj (hpre.symm.trans hpre')
    cases he with
    | mine _ _ _ _ _ _ _ _ _ hacc =>
      have hunder := hacc.under
      rw [not_under_zero hz] at hunder
      cases hunder

/-- Run lemma: until a `set_target`, the target stays zero and nothing is mined. -/
theorem zero_stretch {w₀ w : World} {tr : Record} {cfg₀ : EquiumConfig}
    (h : Run (Step rt) w₀ tr w) (h₀ : w₀.config = some cfg₀) (hz : targetNat cfg₀.currentTarget = 0)
    (hseed : ∀ t ∈ tr, seedsAt t = false) :
    ∃ cfg, w.config = some cfg ∧ targetNat cfg.currentTarget = 0 ∧ minedHeights tr = [] := by
  refine stretch_inv (I := fun tr cfg => targetNat cfg.currentTarget = 0 ∧ minedHeights tr = []) h₀
    ⟨hz, rfl⟩ ?_ h hseed
  rintro tr t cfg cfg' hm hpre hst ⟨hz, hnil⟩
  obtain ⟨hz', hnone⟩ := hm.zero hst hpre hz
  exact ⟨hz', by rw [minedHeights_concat, hnil, hnone]; rfl⟩

/-- How a target other than zero becomes zero. -/
theorem Step.becomes_zero {t : Taken World Action} {cfg cfg' : EquiumConfig}
    (h : Step rt t.pre t.label t.post) (hpre : t.pre.config = some cfg)
    (hpost : t.post.config = some cfg') (hnz : targetNat cfg.currentTarget ≠ 0)
    (hz : targetNat cfg'.currentTarget = 0) : seedsAt t = true ∨
      ∃ env ix evs, t.label = .ok env ix evs ∧ ix.closesRound = true ∧
        cfg'.blockHeight.toNat % 60 = 0 ∧ targetNat cfg.currentTarget = 1 ∧
        env.clock.unixTimestamp.toInt - cfg.lastRetargetUnixTs.toInt < 3600 := by
  rcases Bool.eq_false_or_eq_true (seedsAt t) with hs | hs
  · exact .inl hs
  obtain ⟨c, hc, hm⟩ := Step.moves h hpre hs
  obtain rfl := Option.some.inj (hpost.symm.trans hc)
  cases hm with
  | kept _ _ _ ht =>
    rw [ht] at hz
    exact absurd hz hnz
  | @closed env ix evs hl hix hmove =>
    obtain ⟨-, ht⟩ := hmove
    split_ifs at ht with hw
    · obtain ⟨s, hs, heq⟩ := nextTarget_window cfg.currentTarget cfg env.clock
      obtain h0 | ⟨hone, hsec⟩ := (nextTarget_zero_iff (heq ▸ ht)).mp hz
      · exact absurd h0 hnz
      · exact .inr ⟨env, ix, evs, hl, hix, hw, hone, by omega⟩
    · rw [ht] at hz
      exact absurd hz hnz

/-- Once the admin is gone no `set_target` succeeds. -/
theorem renounced_no_seed {w₀ w : World} {tr : Record} {cfg₀ : EquiumConfig}
    (h : Run (Step rt) w₀ tr w) (h₀ : w₀.config = some cfg₀) (hr : cfg₀.adminRenounced = true) :
    (∀ t ∈ tr, seedsAt t = false) ∧
      ∃ cfg, w.config = some cfg ∧ cfg.adminRenounced = true := by
  refine h.inv (fun tr w => (∀ t ∈ tr, seedsAt t = false) ∧
    ∃ cfg, w.config = some cfg ∧ cfg.adminRenounced = true) ⟨by simp, cfg₀, h₀, hr⟩ ?_
  rintro tr w l w' - ⟨hall, cfg, hw, hr⟩ hst
  have hstep : seedsAt ⟨w, l, w'⟩ = false ∧
      ∃ cfg', w'.config = some cfg' ∧ cfg'.adminRenounced = true := by
    rcases hst.ok_or_quiet with ⟨env, ix, evs, rfl⟩ | ⟨hpost, hq⟩
    · obtain ⟨-, cfg', L', rfl, he⟩ := hst.effect
      rw [hw] at he
      cases he with
      | mine _ _ _ _ _ _ _ _ _ _ _ _ _ _ hadv => exact ⟨rfl, cfg', rfl, hadv.adminRenounced.trans hr⟩
      | advanceEmptyRound _ _ _ _ _ hadv => exact ⟨rfl, cfg', rfl, hadv.adminRenounced.trans hr⟩
      | fundVault => exact ⟨rfl, _, rfl, hr⟩
      | renounceAdmin => exact ⟨rfl, _, rfl, rfl⟩
      | setTarget _ _ _ _ hnot => rw [hr] at hnot; cases hnot
    · refine ⟨?_, cfg, by rw [hpost]; exact hw, hr⟩
      cases l with
      | ok env ix evs => exact absurd rfl (hq.label env ix evs)
      | err => rfl
      | outside => rfl
  obtain ⟨hseed, hcfg⟩ := hstep
  refine ⟨fun t ht => ?_, hcfg⟩
  rcases List.mem_append.mp ht with ht | ht
  · exact hall t ht
  · rw [List.mem_singleton] at ht
    rw [ht, hseed]

/-- ZERO IS FINAL: a step takes a target other than zero to zero only by a `set_target` or by a retarget
    from one over a window of less than its 3600 seconds. From then on, until a `set_target`, the target
    stays zero, nothing is mined and nothing is paid; and after a renunciation there is no
    `set_target`. -/
theorem zero_target_final (L : Ledger) (tr tr₁ tr₂ : Record) (w : World) (t : Taken World Action)
    (h : Run (Step rt) (genesis L) tr w) (hcut : tr = tr₁ ++ t :: tr₂) (cfg₀ : EquiumConfig)
    (h₀ : t.post.config = some cfg₀) (hz : targetNat cfg₀.currentTarget = 0) :
    (∀ cfg, t.pre.config = some cfg → targetNat cfg.currentTarget ≠ 0 → seedsAt t = true ∨
        ∃ env ix evs, t.label = .ok env ix evs ∧ ix.closesRound = true ∧
          cfg₀.blockHeight.toNat % 60 = 0 ∧ targetNat cfg.currentTarget = 1 ∧
          env.clock.unixTimestamp.toInt - cfg.lastRetargetUnixTs.toInt < 3600) ∧
      ((∀ t' ∈ tr₂, seedsAt t' = false) → ∃ cfg, w.config = some cfg ∧
        targetNat cfg.currentTarget = 0 ∧ minedHeights tr₂ = [] ∧
        cfg.cumulativeMined = cfg₀.cumulativeMined) ∧
      (cfg₀.adminRenounced = true → ∀ t' ∈ tr₂, seedsAt t' = false) := by
  subst hcut
  obtain ⟨hst, hrest⟩ := h.cut
  refine ⟨fun cfg hpre hnz => hst.becomes_zero hpre h₀ hnz hz, fun hseed => ?_,
    fun hr => (renounced_no_seed hrest h₀ hr).1⟩
  obtain ⟨cfg, hw, hz', hnil⟩ := zero_stretch hrest h₀ hz hseed
  refine ⟨cfg, hw, hz', hnil, UInt64.toNat_inj.mp ?_⟩
  -- the payout is what the mined heights are worth, and no height was mined since
  have hpaid := ((accounts_run h).2 cfg hw).cumulative
  have hbefore := ((accounts_run (h.before.snoc hst)).2 cfg₀ h₀).cumulative
  have hheights : minedHeights (tr₁ ++ t :: tr₂) = minedHeights (tr₁ ++ [t]) ++ minedHeights tr₂ := by
    rw [List.append_cons, minedHeights, List.filterMap_append, List.map_append]
    rfl
  rw [hpaid, hheights, hnil, List.append_nil, hbefore]

/-- A cluster started with the zero target: sixty rounds time out, the submission is refused. -/
theorem zero_target_final_demo : ∃ t tr₂ w cfg, Run (Step Demo.runtime) (genesis Demo.ledger) (t :: tr₂) w ∧
    w.config = some cfg ∧ targetNat cfg.currentTarget = 0 ∧ minedHeights tr₂ = [] := by
  have hok : (execute Demo.runtime (Demo.env 5) (genesis Demo.ledger)
      (.initializeEquium ⟨expectedAdmin, Demo.key 1, Demo.key 10, Demo.key 2⟩
        ⟨Demo.key 0, 96, 5⟩)).isOk = true := by decide +kernel
  cases hx : execute Demo.runtime (Demo.env 5) (genesis Demo.ledger)
      (.initializeEquium ⟨expectedAdmin, Demo.key 1, Demo.key 10, Demo.key 2⟩
        ⟨Demo.key 0, 96, 5⟩) with
  | error e => rw [hx] at hok; cases hok
  | ok r =>
    obtain ⟨w₁, evs⟩ := r
    have hw₁ : w₁ = Demo.started (Demo.key 0) := by rw [Demo.started, play, hx]; rfl
    have hrun := (Run.nil.snoc (Step.ok hx)).append (record_run Demo.runtime Demo.quietTxs w₁)
    obtain ⟨cfg₀, h₀, hz⟩ : ∃ cfg₀, (Demo.started (Demo.key 0)).config = some cfg₀ ∧
        targetNat cfg₀.currentTarget = 0 :=
      ⟨(Demo.started (Demo.key 0)).config.get (by decide +kernel), by simp, by decide +kernel⟩
    obtain ⟨-, hstay, -⟩ := @zero_target_final Demo.runtime Demo.ledger _ [] _ _ _ hrun rfl cfg₀
      (hw₁ ▸ h₀) hz
    obtain ⟨cfg, hw, hz', hnil, -⟩ := hstay (Demo.record_no_seed _ Demo.quietTxs_no_seed)
    exact ⟨_, _, _, cfg, hrun, hw, hz', hnil⟩

end Equium.Program
