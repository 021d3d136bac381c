import Equium.Program.Retarget

/-! @src programs/equium/src/instructions/advance_empty_round.rs, round.rs, fund_vault.rs |
    name:Empty rounds | scheme:run-invariant

    The timeout is measured from a field that three instructions rewrite. Under a clock whose slot
    never decreases that field only grows, and by at least 150 with every empty round, so empty
    rounds are paced by slots whatever is mined in between. What an idle window does to the target is
    another matter: the retarget measures it in seconds. -/

namespace Equium.Program
open Schemes Equium.Core

variable {rt : Runtime}

/-! ### Readings of the record -/

/-- The slot never decreases over a run. -/
def SlotsNonDecreasing (tr : Record) : Prop := (clocks tr).Pairwise fun c c' => c.slot ≤ c'.slot

/-- The timestamp never decreases over a run. -/
def TimestampsNonDecreasing (tr : Record) : Prop :=
  (clocks tr).Pairwise fun c c' => c.unixTimestamp ≤ c'.unixTimestamp

def Ix.isFundVault : Ix → Bool
  | .fundVault _ => true
  | _ => false

def Ix.isAdvanceEmptyRound : Ix → Bool
  | .advanceEmptyRound _ => true
  | _ => false

/-- The slot at which a step executed an instruction of a kind with success. -/
def slotAt (kind : Ix → Bool) (t : Taken World Action) : Option UInt64 :=
  match t.label with
  | .ok env ix _ => if kind ix then some env.clock.slot else none
  | _ => none

/-- The slots of the successful instructions of a kind, oldest first. -/
def slotsOf (kind : Ix → Bool) (tr : Record) : List UInt64 := tr.filterMap (slotAt kind)

theorem slotsOf_concat (kind : Ix → Bool) (tr : Record) (t : Taken World Action) :
    slotsOf kind (tr ++ [t]) = slotsOf kind tr ++ (slotAt kind t).toList := by
  cases h : slotAt kind t <;> simp [slotsOf, h]

theorem SlotsNonDecreasing.init {tr : Record} {t : Taken World Action}
    (h : SlotsNonDecreasing (tr ++ [t])) : SlotsNonDecreasing tr := by
  rw [SlotsNonDecreasing, clocks_concat] at h
  exact (List.pairwise_append.mp h).1

/-- The clock of the last step is not behind any earlier one. -/
theorem SlotsNonDecreasing.last {tr : Record} {t : Taken World Action} {c c' : Clock}
    (h : SlotsNonDecreasing (tr ++ [t])) (hc : c ∈ clocks tr) (hc' : clockAt t = some c') :
    c.slot ≤ c'.slot := by
  rw [SlotsNonDecreasing, clocks_concat, hc'] at h
  exact (List.pairwise_append.mp h).2.2 c hc c' (by simp)

theorem Quiet.slotAt {l : Action} {L L' : Ledger} (h : Quiet rt l L L') (kind : Ix → Bool)
    (w w' : World) : slotAt kind ⟨w, l, w'⟩ = none := by
  cases l with
  | ok env ix evs => exact absurd rfl (h.label env ix evs)
  | err => rfl
  | outside => rfl

/-- Run lemma: `empty_rounds` counts the rounds that were skipped. -/
theorem empties_run {L : Ledger} {tr : Record} {w : World} {cfg : EquiumConfig}
    (h : Run (Step rt) (genesis L) tr w) (hw : w.config = some cfg) :
    cfg.emptyRounds.toNat = (skippedHeights tr).length := by
  refine (run_phases (N := fun tr _ => skippedHeights tr = [])
    (I := fun tr cfg _ => cfg.emptyRounds.toNat = (skippedHeights tr).length)
    rfl ?_ ?_ ?_ ?_ h).2 cfg hw
  · intro tr l L L' hq hN
    rw [skippedHeights_concat, hN, (hq.closes _ _).2]
    rfl
  · intro tr env ix evs L cfg' L' he hN
    cases he with
    | initializeEquium a args =>
      rw [skippedHeights_concat, hN]
      rfl
  · intro tr l cfg L L' hq hI
    rw [skippedHeights_concat, (hq.closes _ _).2, hI]
    simp
  · intro tr env ix evs cfg L cfg' L' _ he hI
    rw [skippedHeights_concat, List.length_append, ← hI]
    cases he with
    | mine _ _ _ _ _ _ _ _ _ _ _ _ _ _ hadv => exact hadv.empties
    | advanceEmptyRound _ _ _ _ _ hadv => exact hadv.empties
    | fundVault => rfl
    | renounceAdmin => rfl
    | setTarget => rfl

/-! ### The invariant -/

/-- The books of the empty rounds. -/
structure Pacing (tr : Record) (cfg : EquiumConfig) : Prop where
  counted : cfg.emptyRounds.toNat = (slotsOf Ix.isAdvanceEmptyRound tr).length
  spaced : (slotsOf Ix.isAdvanceEmptyRound tr).Pairwise fun s s' => s.toNat + 150 ≤ s'.toNat
  closed : cfg.miningOpen = false →
    slotsOf Ix.isFundVault tr = [] ∧ slotsOf Ix.isAdvanceEmptyRound tr = []
  passed : ∀ s ∈ slotsOf Ix.isAdvanceEmptyRound tr, s ≤ cfg.currentRoundOpenSlot
  read : cfg.miningOpen = true → ∃ c ∈ clocks tr, c.slot = cfg.currentRoundOpenSlot
  paced : cfg.miningOpen = true → ∃ s, slotsOf Ix.isFundVault tr = [s] ∧
    s.toNat + 150 * (slotsOf Ix.isAdvanceEmptyRound tr).length ≤ cfg.currentRoundOpenSlot.toNat

/-- A step that neither funds nor closes a round keeps the books. -/
theorem pacing_frame {tr : Record} {t : Taken World Action} {cfg cfg' : EquiumConfig}
    (h : Pacing tr cfg) (hf : slotAt Ix.isFundVault t = none)
    (he : slotAt Ix.isAdvanceEmptyRound t = none)
    (hc : cfg'.emptyRounds = cfg.emptyRounds) (ho : cfg'.miningOpen = cfg.miningOpen)
    (hle : cfg.miningOpen = false ∨ cfg.currentRoundOpenSlot ≤ cfg'.currentRoundOpenSlot)
    (hr : cfg.miningOpen = true → ∃ c ∈ clocks (tr ++ [t]), c.slot = cfg'.currentRoundOpenSlot) :
    Pacing (tr ++ [t]) cfg' where
  counted := by rw [hc, slotsOf_concat, he]; simpa using h.counted
  spaced := by rw [slotsOf_concat, he]; simpa using h.spaced
  closed hcl := by
    rw [slotsOf_concat, slotsOf_concat, hf, he]
    simpa using h.closed (ho ▸ hcl)
  passed s hs := by
    rw [slotsOf_concat, he] at hs
    rcases hle with hcl | hle
    · rw [(h.closed hcl).2] at hs
      simp at hs
    · exact UInt64.le_trans (h.passed s (by simpa using hs)) hle
  read hop := hr (ho ▸ hop)
  paced hop := by
    obtain ⟨s, hfund, hpace⟩ := h.paced (ho ▸ hop)
    refine ⟨s, by rw [slotsOf_concat, hf, hfund]; rfl, ?_⟩
    rw [slotsOf_concat, he]
    rcases hle with hcl | hle
    · rw [ho, hcl] at hop
      cases hop
    · have := UInt64.le_iff_toNat_le.mp hle
      simp only [Option.toList_none, List.append_nil]
      omega

/-- A successful `advance_empty_round` adds one empty round, 150 slots after everything before. -/
theorem pacing_empty {tr : Record} {env : Env} {w : World} {a : AdvanceEmptyRound}
    {evs : List Event} {cfg cfg' : EquiumConfig} {L' : Ledger} (h : Pacing tr cfg)
    (ho : cfg.miningOpen = true)
    (hel : cfg.currentRoundOpenSlot.toNat + roundTimeoutSlots.toNat ≤ env.clock.slot.toNat)
    (ha : AdvanceOk rt.toCrates cfg env.clock env.slotHashes .empty cfg') :
    Pacing (tr ++ [⟨w, .ok env (.advanceEmptyRound a) evs, ⟨some cfg', L'⟩⟩]) cfg' := by
  have hel : cfg.currentRoundOpenSlot.toNat + 150 ≤ env.clock.slot.toNat := hel
  have hs : slotAt Ix.isAdvanceEmptyRound
      ⟨w, .ok env (.advanceEmptyRound a) evs, ⟨some cfg', L'⟩⟩ = some env.clock.slot := rfl
  have hf : slotAt Ix.isFundVault
      ⟨w, .ok env (.advanceEmptyRound a) evs, ⟨some cfg', L'⟩⟩ = none := rfl
  have hpast : ∀ s ∈ slotsOf Ix.isAdvanceEmptyRound tr, s.toNat + 150 ≤ env.clock.slot.toNat := by
    intro s hmem
    have := UInt64.le_iff_toNat_le.mp (h.passed s hmem)
    omega
  refine ⟨?_, ?_, fun hc => ?_, fun s hmem => ?_, fun _ => ⟨env.clock, ?_, ha.openSlot.symm⟩,
    fun _ => ?_⟩
  · rw [slotsOf_concat, hs, ha.empties, h.counted]
    simp [RoundTransition.empties]
  · rw [slotsOf_concat, hs]
    refine List.pairwise_append.mpr ⟨h.spaced, by simp, fun s hmem s' hs' => ?_⟩
    obtain rfl : s' = env.clock.slot := by simpa using hs'
    exact hpast s hmem
  · rw [ha.miningOpen, ho] at hc
    cases hc
  · rw [slotsOf_concat, hs, List.mem_append] at hmem
    rw [ha.openSlot, UInt64.le_iff_toNat_le]
    rcases hmem with hmem | hmem
    · have := hpast s hmem
      omega
    · obtain rfl : s = env.clock.slot := by simpa using hmem
      exact Nat.le_refl _
  · rw [clocks_concat]
    simp [clockAt]
  · obtain ⟨s, hfund, hpace⟩ := h.paced ho
    refine ⟨s, by rw [slotsOf_concat, hf, hfund]; rfl, ?_⟩
    rw [slotsOf_concat, hs, ha.openSlot, List.length_append]
    simp only [Option.toList_some, List.length_singleton]
    omega

/-- Step lemma: every successful instruction keeps the books, if its clock is not behind. -/
theorem pacing_step {tr : Record} {env : Env} {w : World} {ix : Ix} {evs : List Event}
    {cfg cfg' : EquiumConfig} {L L' : Ledger} (h : Pacing tr cfg)
    (hmono : SlotsNonDecreasing (tr ++ [⟨w, .ok env ix evs, ⟨some cfg', L'⟩⟩]))
    (he : Effect rt env L (some cfg) ix cfg' L') :
    Pacing (tr ++ [⟨w, .ok env ix evs, ⟨some cfg', L'⟩⟩]) cfg' := by
  have hkeep : ∀ t, cfg.miningOpen = true → ∃ c ∈ clocks (tr ++ [t]),
      c.slot = cfg.currentRoundOpenSlot := fun t ho => by
    obtain ⟨c, hc, hs⟩ := h.read ho
    exact ⟨c, by rw [clocks_concat]; exact List.mem_append_left _ hc, hs⟩
  cases he with
  | renounceAdmin a =>
    exact pacing_frame h rfl rfl rfl rfl (.inr (UInt64.le_refl _)) (hkeep _)
  | setTarget a t => exact pacing_frame h rfl rfl rfl rfl (.inr (UInt64.le_refl _)) (hkeep _)
  | advanceEmptyRound a _ _ hopen hel hadv => exact pacing_empty h hopen hel hadv
  | mine a nonce soln _ _ d cumulative L₁ _ hacc hata hcum hcap htr hadv =>
    -- a mined round reopens at the current slot, which is not behind the old one
    obtain ⟨c, hc, hs⟩ := h.read hacc.isOpen
    have hle : cfg.currentRoundOpenSlot ≤ cfg'.currentRoundOpenSlot := by
      rw [hadv.openSlot, ← hs]
      exact hmono.last hc rfl
    refine pacing_frame h rfl rfl ?_ hadv.miningOpen (.inr hle) fun _ =>
      ⟨env.clock, by rw [clocks_concat]; simp [clockAt], hadv.openSlot.symm⟩
    exact UInt64.toNat_inj.mp hadv.empties
  | fundVault a _ d _ hadmin hvault hclosed htr =>
    obtain ⟨hnf, hne⟩ := h.closed hclosed
    have hs : slotAt Ix.isAdvanceEmptyRound
        ⟨w, .ok env (.fundVault a) evs, ⟨some (openedConfig cfg env.clock), L'⟩⟩ = none := rfl
    have hempty : slotsOf Ix.isAdvanceEmptyRound (tr ++
        [⟨w, .ok env (.fundVault a) evs, ⟨some (openedConfig cfg env.clock), L'⟩⟩]) = [] := by
      rw [slotsOf_concat, hne, hs]
      rfl
    refine ⟨?_, ?_, (fun hc => by cases hc), ?_, fun _ => ⟨env.clock, ?_, rfl⟩, fun _ => ?_⟩
    · rw [hempty, ← hne]
      exact h.counted
    · rw [hempty]
      exact .nil
    · rw [hempty]
      simp
    · rw [clocks_concat]
      simp [clockAt]
    · refine ⟨env.clock.slot, by rw [slotsOf_concat, hnf]; rfl, ?_⟩
      rw [hempty]
      exact Nat.le_refl _

/-- Run lemma: under a slot that never decreases the books hold after every run. -/
theorem pacing_run {L : Ledger} {tr : Record} {w : World} (h : Run (Step rt) (genesis L) tr w)
    (hmono : SlotsNonDecreasing tr) :
    (w.config = none → slotsOf Ix.isAdvanceEmptyRound tr = []) ∧
      ∀ cfg, w.config = some cfg → Pacing tr cfg := by
  have hall := run_phases (N := fun tr _ => slotsOf Ix.isFundVault tr = [] ∧
      slotsOf Ix.isAdvanceEmptyRound tr = [])
    (I := fun tr cfg _ => SlotsNonDecreasing tr → Pacing tr cfg) ⟨rfl, rfl⟩ ?_ ?_ ?_ ?_ h
  · exact ⟨fun hw => (hall.1 hw).2, fun cfg hw => hall.2 cfg hw hmono⟩
  · rintro tr l L L' hq ⟨hf, he⟩
    rw [slotsOf_concat, slotsOf_concat, hf, he, hq.slotAt, hq.slotAt]
    exact ⟨rfl, rfl⟩
  · rintro tr env ix evs L cfg' L' he ⟨hf, hemp⟩ -
    cases he with
    | initializeEquium a args =>
      have hnone : slotsOf Ix.isAdvanceEmptyRound (tr ++ [⟨⟨none, L⟩,
          .ok env (.initializeEquium a args) evs, ⟨some (genesisConfig rt env.clock a args),
            L.set rt.vaultPda ⟨a.mint, rt.configPda, 0⟩⟩⟩]) = [] := by
        rw [slotsOf_concat, hemp]
        rfl
      refine ⟨?_, ?_, fun _ => ⟨?_, hnone⟩, ?_, (fun hc => by cases hc), fun hc => by cases hc⟩
      · rw [hnone]
        rfl
      · rw [hnone]
        exact .nil
      · rw [slotsOf_concat, hf]
        rfl
      · rw [hnone]
        simp
  · intro tr l cfg L L' hq hI hmono
    have hp := hI hmono.init
    refine pacing_frame hp (hq.slotAt _ _ _) (hq.slotAt _ _ _) rfl rfl
      (.inr (UInt64.le_refl _)) fun ho => ?_
    obtain ⟨c, hc, hs⟩ := hp.read ho
    exact ⟨c, by rw [clocks_concat]; exact List.mem_append_left _ hc, hs⟩
  · intro tr env ix evs cfg L cfg' L' _ he hI hmono
    exact pacing_step (hI hmono.init) hmono he

/-- EMPTY ROUNDS ARE PACED: under a slot that never decreases, every open state has as many rounds as
    successful mines and empty rounds, its round opened at least 150 slots after the opening of
    mining for every empty round so far, and any two successful `advance_empty_round` lie at least
    150 slots apart. -/
theorem empty_rounds_paced (L : Ledger) (tr : Record) (w : World)
    (h : Run (Step rt) (genesis L) tr w) (hmono : SlotsNonDecreasing tr) :
    (∀ cfg, w.config = some cfg → cfg.miningOpen = true →
        cfg.blockHeight.toNat = (minedHeights tr).length + cfg.emptyRounds.toNat ∧
        ∃ s, slotsOf Ix.isFundVault tr = [s] ∧
          s.toNat + 150 * cfg.emptyRounds.toNat ≤ cfg.currentRoundOpenSlot.toNat) ∧
      (slotsOf Ix.isAdvanceEmptyRound tr).Pairwise fun s s' => s.toNat + 150 ≤ s'.toNat := by
  obtain ⟨hnone, hsome⟩ := pacing_run h hmono
  refine ⟨fun cfg hw ho => ?_, ?_⟩
  · have hp := hsome cfg hw
    have hclosed := ((accounts_run h).2 cfg hw).closed.length_eq
    rw [List.length_map, List.length_append, List.length_range, ← empties_run h hw] at hclosed
    exact ⟨hclosed.symm, hp.counted ▸ hp.paced ho⟩
  · cases hw : w.config with
    | none =>
      rw [hnone hw]
      exact .nil
    | some cfg => exact (hsome cfg hw).spaced

/-- The demonstration run: two rounds, one mined and one empty, opened from slot 6 on. -/
theorem empty_rounds_paced_demo : ∃ tr,
    Run (Step Demo.runtime) (genesis Demo.ledger) tr Demo.world ∧ (minedHeights tr).length = 1 ∧
    ∃ s, slotsOf Ix.isFundVault tr = [s] ∧
      s.toNat + 150 ≤ Demo.config.currentRoundOpenSlot.toNat := by
  obtain ⟨tr, hr, hc, -⟩ := play_record Demo.runtime Demo.txs (genesis Demo.ledger)
  have hmono : SlotsNonDecreasing tr := by
    rw [SlotsNonDecreasing, hc]
    decide
  have hh : Demo.config.blockHeight.toNat = 2 := by rw [Demo.config_eq]; rfl
  have he : Demo.config.emptyRounds.toNat = 1 := by rw [Demo.config_eq]; rfl
  obtain ⟨hsum, hpaced⟩ := (@empty_rounds_paced Demo.runtime Demo.ledger tr _ hr hmono).1
    Demo.config Demo.world_config (by rw [Demo.config_eq])
  rw [hh, he] at hsum
  rw [he] at hpaced
  exact ⟨tr, hr, by omega, hpaced⟩

/-! ### Idle windows -/

/-- The instructions an idle window may contain. -/
def Ix.isIdle : Ix → Bool
  | .mine _ _ _ => false
  | .setTarget _ _ => false
  | _ => true

/-- No solution was accepted and no target set in the 60 rounds before `H`. -/
def IdleWindow (tr : Record) (H : ℕ) : Prop :=
  ∀ t ∈ tr, ∀ cfg env ix evs, t.pre.config = some cfg → t.label = .ok env ix evs →
    cfg.miningOpen = true → H ≤ cfg.blockHeight.toNat + 60 → cfg.blockHeight.toNat < H →
    ix.isIdle = true

/-- A retarget step: the transition of a run into a height divisible by 60. -/
structure RetargetAt (tr : Record) (t : Taken World Action) (env : Env)
    (cfg cfg' : EquiumConfig) : Prop where
  mem : t ∈ tr
  closes : ∃ ix evs, t.label = .ok env ix evs ∧ ix.closesRound = true
  pre : t.pre.config = some cfg
  post : t.post.config = some cfg'
  boundary : cfg'.blockHeight.toNat % 60 = 0

/-- Every round below the height was closed by a recorded instruction. -/
theorem closed_by {L : Ledger} {tr : Record} {w : World} {cfg : EquiumConfig}
    (h : Run (Step rt) (genesis L) tr w) (hw : w.config = some cfg) {i : ℕ}
    (hi : i < cfg.blockHeight.toNat) : ∃ t ∈ tr, ∃ env ix evs c, t.label = .ok env ix evs ∧
      ix.closesRound = true ∧ t.pre.config = some c ∧ c.blockHeight.toNat = i := by
  have hmem := ((accounts_run h).2 cfg hw).closed.mem_iff.mpr (List.mem_range.mpr hi)
  have hfind : ∃ t ∈ tr, ∃ c, (minedAt t = some c ∨ skippedAt t = some c) ∧
      c.blockHeight.toNat = i := by
    simp only [minedHeights, skippedHeights, List.mem_map, List.mem_append,
      List.mem_filterMap] at hmem
    obtain ⟨-, ⟨c, ⟨t, ht, hc⟩, rfl⟩ | ⟨c, ⟨t, ht, hc⟩, rfl⟩, rfl⟩ := hmem
    · exact ⟨t, ht, c, .inl hc, rfl⟩
    · exact ⟨t, ht, c, .inr hc, rfl⟩
  obtain ⟨t, ht, c, hc, rfl⟩ := hfind
  refine ⟨t, ht, ?_⟩
  rcases hl : t.label with ⟨env, ix, evs⟩ | _ | _
  · cases ix with
    | mine a nonce soln =>
      exact ⟨env, _, evs, c, rfl, rfl, by simpa [minedAt, skippedAt, hl] using hc, rfl⟩
    | advanceEmptyRound a =>
      exact ⟨env, _, evs, c, rfl, rfl, by simpa [minedAt, skippedAt, hl] using hc, rfl⟩
    | _ => simp [minedAt, skippedAt, hl] at hc
  · simp [minedAt, skippedAt, hl] at hc
  · simp [minedAt, skippedAt, hl] at hc

/-- A round closed by timeout was open for at least 150 slots. -/
theorem idle_round {L : Ledger} {tr : Record} {w : World} {cfg : EquiumConfig} {H i : ℕ}
    (h : Run (Step rt) (genesis L) tr w) (hw : w.config = some cfg) (hidle : IdleWindow tr H)
    (hi : i < cfg.blockHeight.toNat) (hlo : H ≤ i + 60) (hhi : i < H) :
    ∃ a b, openClock tr i = some a ∧ openClock tr (i + 1) = some b ∧
      a.slot.toNat + 150 ≤ b.slot.toNat := by
  obtain ⟨t, ht, env, ix, evs, c, hl, hcl, hpre, rfl⟩ := closed_by h hw hi
  obtain ⟨c', cfg', hpre', -, he, hT⟩ := transition_of_mem h ht hl hcl
  obtain rfl : c = c' := by rwa [hpre, Option.some.injEq] at hpre'
  have hok := hidle t ht c env ix evs hpre hl (he.retargets hcl).1 hlo hhi
  obtain ⟨a, ha, hs⟩ := Option.map_eq_some_iff.mp hT.previous
  refine ⟨a, env.clock, ha, hT.height ▸ hT.opens, ?_⟩
  generalize t.pre.ledger = L₁ at he
  generalize t.post.ledger = L₂ at he
  cases he with
  | advanceEmptyRound _ _ _ hopen hel hadv =>
    rw [hs]
    exact hel
  | mine => cases hok
  | _ => cases hcl

/-- Over an idle stretch every round adds at least 150 slots. -/
theorem idle_rounds {L : Ledger} {tr : Record} {w : World} {cfg : EquiumConfig} {H : ℕ}
    (h : Run (Step rt) (genesis L) tr w) (hw : w.config = some cfg) (hidle : IdleWindow tr H)
    (hH : H ≤ cfg.blockHeight.toNat) (lo : ℕ) (hlo : H = lo + 60) (k : ℕ) (hk : k + 1 ≤ 60) :
    ∃ a b, openClock tr lo = some a ∧ openClock tr (lo + (k + 1)) = some b ∧
      a.slot.toNat + 150 * (k + 1) ≤ b.slot.toNat := by
  induction k with
  | zero => exact idle_round h hw hidle (by omega) (by omega) (by omega)
  | succ k ih =>
    obtain ⟨a, b, ha, hb, hab⟩ := ih (by omega)
    obtain ⟨b', c, hb', hc, hbc⟩ :=
      idle_round (i := lo + (k + 1)) h hw hidle (by omega) (by omega) (by omega)
    obtain rfl : b = b' := by rwa [hb, Option.some.injEq] at hb'
    exact ⟨a, c, ha, hc, by omega⟩

/-- Rescaling lowers a number unless the ratio is at least one. -/
theorem scaled_le_iff {T M num den : ℕ} (hT : T ≤ M) (hden : 0 < den) :
    T ≤ min M (T * num / den) ↔ T = 0 ∨ den ≤ num := by
  rw [le_min_iff, Nat.le_div_iff_mul_le hden]
  rcases Nat.eq_zero_or_pos T with rfl | hpos
  · simp
  · simp [hT, hpos.ne', hpos]

/-- A retarget keeps or raises the target exactly when the window took its 3600 seconds. -/
theorem nextTarget_le_iff {t t' : Bytes32} {s : UInt64} (h : nextTarget t s = some t') :
    targetNat t ≤ targetNat t' ↔ targetNat t = 0 ∨ 3600 ≤ s.toNat := by
  have hscaled : ∀ num den : UInt64, 0 < den.toNat → scaleTarget t num den = some t' →
      (targetNat t ≤ targetNat t' ↔ targetNat t = 0 ∨ den.toNat ≤ num.toNat) := by
    intro num den hden hs
    obtain ⟨r, hr, hval⟩ := scaleTarget_eq t num hden
    obtain rfl : r = t' := by rwa [hr, Option.some.injEq] at hs
    rw [hval]
    exact scaled_le_iff (Nat.le_sub_one_of_lt (targetNat_lt t)) hden
  rw [nextTarget_eq] at h
  split_ifs at h with hlow hhigh
  · rw [hscaled 1 2 (by decide) h]
    have hno : ¬ (2 : UInt64).toNat ≤ (1 : UInt64).toNat := by decide
    simp only [hno, or_false]
    omega
  · rw [hscaled 2 1 (by decide) h]
    have hyes : (1 : UInt64).toNat ≤ (2 : UInt64).toNat := by decide
    simp only [hyes, or_true, true_iff]
    omega
  · exact hscaled s 3600 (by decide) h

/-- IDLE WINDOWS: a window whose 60 rounds all timed out lasts at least 9000 slots, and the retarget
    at its end keeps or raises the target exactly when the clock counted at least 3600 seconds over
    it (a zero target stays zero). -/
theorem idle_window_retarget (L : Ledger) (tr : Record) (w : World)
    (h : Run (Step rt) (genesis L) tr w) (t : Taken World Action) (env : Env)
    (cfg cfg' : EquiumConfig) (hre : RetargetAt tr t env cfg cfg')
    (hidle : IdleWindow tr cfg'.blockHeight.toNat) :
    ∃ a b, openClock tr (cfg'.blockHeight.toNat - 60) = some a ∧
      openClock tr cfg'.blockHeight.toNat = some b ∧ a.slot.toNat + 9000 ≤ b.slot.toNat ∧
      (targetNat cfg.currentTarget ≤ targetNat cfg'.currentTarget ↔
        targetNat cfg.currentTarget = 0 ∨
          3600 ≤ b.unixTimestamp.toInt - a.unixTimestamp.toInt) := by
  obtain ⟨hmem, ⟨ix, evs, hl, hcl⟩, hpre, hpost, hb⟩ := hre
  obtain ⟨c, c', hc, hc', -, hT⟩ := transition_of_mem h hmem hl hcl
  obtain rfl : cfg = c := by rwa [hpre, Option.some.injEq] at hc
  obtain rfl : cfg' = c' := by rwa [hpost, Option.some.injEq] at hc'
  have hh := hT.height
  -- the prefix of the run that ends with the retarget
  obtain ⟨tr₁, tr₂, hcut, hr, hst⟩ := h.mem t hmem
  have hidle₁ : IdleWindow (tr₁ ++ [t]) cfg'.blockHeight.toNat := fun t' ht' => by
    refine hidle t' ?_
    rw [hcut, ← List.singleton_append, ← List.append_assoc]
    exact List.mem_append_left _ ht'
  obtain ⟨a, b, ha, hb', hab⟩ := idle_rounds (hr.snoc hst) hpost hidle₁ le_rfl
    (cfg'.blockHeight.toNat - 60) (by omega) 59 le_rfl
  have hopen : openClock tr (cfg'.blockHeight.toNat - 60) = some a := by
    rw [hcut, ← List.singleton_append, ← List.append_assoc]
    exact openClock_append ha tr₂
  have hclose : openClock tr cfg'.blockHeight.toNat = some b := by
    rw [hcut, ← List.singleton_append, ← List.append_assoc]
    refine openClock_append ?_ tr₂
    rwa [show cfg'.blockHeight.toNat - 60 + (59 + 1) = cfg'.blockHeight.toNat by omega] at hb'
  obtain rfl : env.clock = b := by rw [hT.opens, Option.some.injEq] at hclose; exact hclose
  obtain ⟨hanchor, hnext⟩ := hT.window hb
  have hlast : a.unixTimestamp = cfg.lastRetargetUnixTs := by
    rw [openTs, hopen, Option.map_some, Option.some.injEq] at hanchor
    exact hanchor
  obtain ⟨s, hs, heq⟩ := nextTarget_window cfg.currentTarget cfg env.clock
  refine ⟨a, env.clock, hopen, hclose, hab, ?_⟩
  rw [nextTarget_le_iff (heq ▸ hnext), hlast]
  omega

/-- The idle window of the demonstration cluster ends with a lower target. -/
theorem idle_demo : ∃ tr t cfg cfg' w, Run (Step Demo.runtime) (genesis Demo.ledger) tr w ∧
    SlotsNonDecreasing tr ∧ TimestampsNonDecreasing tr ∧ RetargetAt tr t (Demo.env 9006) cfg cfg' ∧
    IdleWindow tr cfg'.blockHeight.toNat ∧
    targetNat cfg'.currentTarget < targetNat cfg.currentTarget := by
  obtain ⟨tr, cfg, cfg', L', evs, hr, hcfg, ht, hh, -, hlow, hc, hl⟩ := Demo.idle_run
  refine ⟨_, _, cfg, cfg', _, hr, ?_, ?_,
    ⟨List.mem_append_right _ (List.mem_singleton_self _), ⟨_, _, rfl, rfl⟩, hcfg, rfl,
      by rw [hh]; rfl⟩, ?_, ht ▸ hlow⟩
  · rw [SlotsNonDecreasing, hc]
    decide +kernel
  · rw [TimestampsNonDecreasing, hc]
    decide +kernel
  · intro t' ht' _ env ix _ _ hlab _ _ _
    rcases List.mem_append.mp ht' with ht' | ht'
    · have hall : ∀ tx ∈ Demo.idleTxs, tx.2.isIdle = true := by decide +kernel
      exact hall _ (hl t' ht' env ix _ hlab)
    · rw [List.mem_singleton] at ht'
      subst ht'
      cases hlab
      rfl

/-- An idle window can make mining harder: 60 rounds time out over 9000 slots of a stalled clock. -/
theorem idle_window_hardens : ¬ ∀ (L : Ledger) (tr : Record) (w : World),
    Run (Step Demo.runtime) (genesis L) tr w → SlotsNonDecreasing tr → TimestampsNonDecreasing tr →
    ∀ t env cfg cfg', RetargetAt tr t env cfg cfg' → IdleWindow tr cfg'.blockHeight.toNat →
      targetNat cfg.currentTarget ≤ targetNat cfg'.currentTarget := by
  intro hall
  obtain ⟨tr, t, cfg, cfg', w, hr, hs, hts, hre, hidle, hlow⟩ := idle_demo
  exact absurd (hall _ tr w hr hs hts t _ cfg cfg' hre hidle) (by omega)

/-- The idle window of the demonstration cluster lasts 9000 slots. -/
theorem idle_window_retarget_demo : ∃ tr t cfg cfg' w a b,
    Run (Step Demo.runtime) (genesis Demo.ledger) tr w ∧
    RetargetAt tr t (Demo.env 9006) cfg cfg' ∧ IdleWindow tr cfg'.blockHeight.toNat ∧
    openClock tr (cfg'.blockHeight.toNat - 60) = some a ∧
    openClock tr cfg'.blockHeight.toNat = some b ∧ a.slot.toNat + 9000 ≤ b.slot.toNat := by
  obtain ⟨tr, t, cfg, cfg', w, hr, -, -, hre, hidle, -⟩ := idle_demo
  obtain ⟨a, b, ha, hb, hab, -⟩ :=
    @idle_window_retarget Demo.runtime Demo.ledger tr w hr t _ cfg cfg' hre hidle
  exact ⟨tr, t, cfg, cfg', w, a, b, hr, hre, hidle, ha, hb, hab⟩

end Equium.Program
