import Equium.Program.Emission

/-! @src programs/equium/src/instructions/mine.rs, round.rs, crates/equihash-core/src/challenge.rs |
    name:One winner per round | scheme:run-invariant

    Submissions may have been prepared against any older round; what counts is the block they are
    verified against when they land. Heights only grow and each is closed once (`Accounts.closed`),
    and the input block determines the height, so no block is ever verified against twice. -/

namespace Equium.Program
open Schemes Equium.Core

variable {rt : Runtime}

/-- The input block an accepted `mine` was verified against. -/
def inputAt (t : Taken World Action) : Option (Vector UInt8 iLen) :=
  match t.label with
  | .ok _ (.mine a _ _) _ =>
    t.pre.config.map fun cfg => buildInput cfg.currentChallenge a.miner cfg.blockHeight
  | _ => none

/-- The instructions that close a round. -/
def Ix.closesRound : Ix → Bool
  | .mine _ _ _ => true
  | .advanceEmptyRound _ => true
  | _ => false

/-- The block of an accepted submission carries the height that was closed. -/
theorem inputAt_minedAt {t : Taken World Action} {b : Vector UInt8 iLen} (h : inputAt t = some b) :
    ∃ cfg m, minedAt t = some cfg ∧ b = buildInput cfg.currentChallenge m cfg.blockHeight := by
  unfold inputAt at h
  split at h
  · rename_i env a nonce soln evs hl
    obtain ⟨cfg, hcfg, rfl⟩ := Option.map_eq_some_iff.mp h
    exact ⟨cfg, a.miner, by simp [minedAt, hl, hcfg], rfl⟩
  · cases h

/-- An accepted submission was verified against its block and the target of the round. -/
theorem inputAt_verified {t : Taken World Action} {b : Vector UInt8 iLen}
    (hst : Step rt t.pre t.label t.post) (h : inputAt t = some b) :
    ∃ env a nonce soln evs cfg, t.label = .ok env (.mine a nonce soln) evs ∧
      t.pre.config = some cfg ∧
      rt.isValidSolution cfg.equihashN cfg.equihashK b.toList nonce soln = true ∧
      hashUnderTarget (solutionHash rt.toCrates soln b) cfg.currentTarget = true := by
  obtain ⟨cfg, m, hm, -⟩ := inputAt_minedAt h
  obtain ⟨env, a, nonce, soln, evs, cfg', L', hl, hpre, -, -, he⟩ := minedAt_step hm hst
  have hb : b = buildInput cfg.currentChallenge a.miner cfg.blockHeight := by
    simp only [inputAt, hl, hpre, Option.map_some, Option.some.injEq] at h
    exact h.symm
  cases he with
  | mine _ _ _ _ _ _ _ _ _ hacc =>
    exact ⟨env, a, nonce, soln, evs, cfg, hl, hpre, hb ▸ hacc.valid, hb ▸ hacc.under⟩

/-- Blocks of different rounds differ, whoever mined them. -/
theorem inputs_nodup {tr : Record} (h : (minedHeights tr).Nodup) :
    (tr.filterMap inputAt).Nodup := by
  rw [minedHeights, List.Nodup, List.pairwise_map, List.pairwise_filterMap] at h
  rw [List.Nodup, List.pairwise_filterMap]
  refine h.imp fun {t t'} hne b hb b' hb' heq => ?_
  obtain ⟨cfg, m, hm, rfl⟩ := inputAt_minedAt hb
  obtain ⟨cfg', m', hm', rfl⟩ := inputAt_minedAt hb'
  exact hne cfg hm cfg' hm' (buildInput_inj heq).2.2

/-- A successful closing instruction moves to the next height. -/
theorem Effect.height_succ {env : Env} {L L' : Ledger} {cfg₀ : Option EquiumConfig}
    {cfg' : EquiumConfig} {ix : Ix} (he : Effect rt env L cfg₀ ix cfg' L')
    (hc : ix.closesRound = true) :
    ∃ cfg, cfg₀ = some cfg ∧ cfg'.blockHeight.toNat = cfg.blockHeight.toNat + 1 := by
  cases he with
  | mine _ _ _ cfg _ _ _ _ _ _ _ _ _ _ hadv => exact ⟨cfg, rfl, hadv.height⟩
  | advanceEmptyRound _ cfg _ _ _ hadv => exact ⟨cfg, rfl, hadv.height⟩
  | _ => cases hc

/-- ONE WINNER, NO REPLAY: every success moves the height by one, every height below the current
    one was closed by exactly one success, every accepted submission was verified against the input
    block of its round, these blocks are pairwise different, and the block layout is injective. -/
theorem one_winner_per_round (L : Ledger) (tr : Record) (w : World)
    (h : Run (Step rt) (genesis L) tr w) :
    (∀ t ∈ tr, ∀ env ix evs, t.label = .ok env ix evs → ix.closesRound = true →
        ∃ cfg cfg', t.pre.config = some cfg ∧ t.post.config = some cfg' ∧
          cfg'.blockHeight.toNat = cfg.blockHeight.toNat + 1) ∧
      (∀ cfg, w.config = some cfg → ∀ i, i < cfg.blockHeight →
        (minedHeights tr ++ skippedHeights tr).count i = 1) ∧
      (tr.filterMap inputAt).Nodup ∧
      (∀ t ∈ tr, ∀ b, inputAt t = some b → ∃ env a nonce soln evs cfg,
        t.label = .ok env (.mine a nonce soln) evs ∧ t.pre.config = some cfg ∧
        rt.isValidSolution cfg.equihashN cfg.equihashK b.toList nonce soln = true ∧
        hashUnderTarget (solutionHash rt.toCrates soln b) cfg.currentTarget = true) ∧
      ∀ (c c' m m' : Bytes32) (i i' : UInt64),
        buildInput c m i = buildInput c' m' i' → c = c' ∧ m = m' ∧ i = i' := by
  obtain ⟨hnone, hsome⟩ := accounts_run h
  have hnodup : ∀ cfg, w.config = some cfg → (minedHeights tr ++ skippedHeights tr).Nodup :=
    fun cfg hw => List.Nodup.of_map _ ((hsome cfg hw).closed.nodup_iff.mpr List.nodup_range)
  refine ⟨?_, fun cfg hw i hi => ?_, ?_, fun t ht b hb => ?_, fun _ _ _ _ _ _ => buildInput_inj⟩
  · intro t ht env ix evs hl hc
    obtain ⟨-, -, -, -, hst⟩ := h.mem t ht
    rw [hl] at hst
    obtain ⟨-, cfg', L', hpost, he⟩ := hst.effect
    obtain ⟨cfg, hcfg, hh⟩ := he.height_succ hc
    exact ⟨cfg, cfg', hcfg, hpost ▸ rfl, hh⟩
  · refine List.count_eq_one_of_mem (hnodup cfg hw) ?_
    have hmem := (hsome cfg hw).closed.mem_iff (a := i.toNat)
    rw [List.mem_range, List.mem_map_of_injective fun _ _ => UInt64.toNat_inj.mp] at hmem
    exact hmem.mpr (UInt64.lt_iff_toNat_lt.mp hi)
  · cases hw : w.config with
    | none =>
      refine inputs_nodup ?_
      rw [(hnone hw).1]
      exact List.nodup_nil
    | some cfg => exact inputs_nodup (hnodup cfg hw).of_append_left
  · obtain ⟨-, -, -, -, hst⟩ := h.mem t ht
    exact inputAt_verified hst hb

/-- The demonstration run: heights 0 and 1 were each closed once. -/
theorem one_winner_per_round_demo : ∃ tr, Run (Step Demo.runtime) (genesis Demo.ledger) tr Demo.world ∧
    (minedHeights tr ++ skippedHeights tr).count 1 = 1 := by
  obtain ⟨tr, hr⟩ := Demo.world_run
  exact ⟨tr, hr, (@one_winner_per_round Demo.runtime Demo.ledger tr _ hr).2.1 Demo.config
    Demo.world_config 1 (by rw [Demo.config_eq]; decide)⟩

end Equium.Program
