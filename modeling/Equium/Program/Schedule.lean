import Equium.Core.Target
import Equium.Program.State

/-! @src programs/equium/src/schedule.rs | name:Halving and retarget schedule

    Pure functions of the height and the last window. The on-chain program keeps its own running
    copy of the schedule (`round.rs`); `rewardAtHeight` is the closed form it has to agree with. -/

namespace Equium.Program
open Schemes Equium.Core

/-- The block reward at a height, in one shift; zero from the 64th halving on. -/
def rewardAtHeight (height : UInt64) : UInt64 :=
  let halvings := height / halvingIntervalBlocks
  if halvings ≥ 64 then 0 else initialBlockRewardBase >>> halvings

def isHalvingBoundary (height : UInt64) : Bool :=
  height > 0 && height % halvingIntervalBlocks == 0

def isRetargetBoundary (height : UInt64) : Bool :=
  height > 0 && height % retargetIntervalBlocks == 0

/-- The new difficulty target from the elapsed seconds of the last window, ratio in [1/2, 2]. -/
def nextTarget (oldTarget : Bytes32) (actualSeconds : UInt64) : Option Bytes32 :=
  let expected := retargetTargetSeconds
  if actualSeconds = 0 then scaleTarget oldTarget retargetMinNum retargetMinDen
  else if saturatingMul actualSeconds retargetMinDen < saturatingMul expected retargetMinNum then
    scaleTarget oldTarget retargetMinNum retargetMinDen
  else if saturatingMul actualSeconds retargetMaxDen > saturatingMul expected retargetMaxNum then
    scaleTarget oldTarget retargetMaxNum retargetMaxDen
  else scaleTarget oldTarget actualSeconds expected

/-- The reward over the naturals: the initial reward halved once per interval passed. -/
theorem rewardAtHeight_toNat (h : UInt64) :
    (rewardAtHeight h).toNat = 25000000 / 2 ^ (h.toNat / 378000) := by
  have hdiv : (h / halvingIntervalBlocks).toNat = h.toNat / 378000 := by
    rw [UInt64.toNat_div]; rfl
  unfold rewardAtHeight
  simp only
  split
  · rename_i hge
    have hge : 64 ≤ h.toNat / 378000 := by
      rw [← hdiv]; exact UInt64.le_iff_toNat_le.mp hge
    have hpow : 25000000 < 2 ^ (h.toNat / 378000) :=
      lt_of_lt_of_le (by omega : 25000000 < 2 ^ 64) (Nat.pow_le_pow_right (by omega) hge)
    rw [Nat.div_eq_of_lt hpow]; rfl
  · rename_i hlt
    have hlt : h.toNat / 378000 < 64 := by
      rw [← hdiv]
      by_contra hc
      exact hlt (UInt64.le_iff_toNat_le.mpr (by simpa using Nat.not_lt.mp hc))
    rw [UInt64.toNat_shiftRight, hdiv, Nat.mod_eq_of_lt hlt, Nat.shiftRight_eq_div_pow]
    rfl

/-- The four branches of `next_target` are three bands of the elapsed time. -/
theorem nextTarget_eq (t : Bytes32) (a : UInt64) : nextTarget t a =
    if a.toNat < 1800 then scaleTarget t 1 2
    else if 7200 < a.toNat then scaleTarget t 2 1 else scaleTarget t a 3600 := by
  have ha := a.toNat_lt
  have hlow : saturatingMul a retargetMinDen < saturatingMul retargetTargetSeconds retargetMinNum ↔
      a.toNat < 1800 := by
    rw [UInt64.lt_iff_toNat_lt, saturatingMul_toNat, saturatingMul_toNat]
    change min (2 ^ 64 - 1) (a.toNat * 2) < min (2 ^ 64 - 1) (3600 * 1) ↔ _
    omega
  have hhigh : saturatingMul a retargetMaxDen > saturatingMul retargetTargetSeconds retargetMaxNum ↔
      7200 < a.toNat := by
    rw [gt_iff_lt, UInt64.lt_iff_toNat_lt, saturatingMul_toNat, saturatingMul_toNat]
    change min (2 ^ 64 - 1) (3600 * 2) < min (2 ^ 64 - 1) (a.toNat * 1) ↔ _
    omega
  unfold nextTarget
  simp only [hlow, hhigh]
  by_cases h0 : a = 0
  · rw [if_pos h0, if_pos (by rw [h0]; decide)]
    rfl
  · rw [if_neg h0]
    rfl

/-- What `next_target` computes: the elapsed time, clamped to a half and to twice the window, over
    the window. -/
theorem nextTarget_value (t : Bytes32) (a : UInt64) : ∃ r, nextTarget t a = some r ∧
    targetNat r = min (2 ^ 256 - 1) (targetNat t * max 1800 (min 7200 a.toNat) / 3600) := by
  rw [nextTarget_eq]
  split_ifs with hlow hhigh
  · obtain ⟨r, hr, hval⟩ := @scaleTarget_eq t 1 2 (by decide)
    refine ⟨r, hr, hval.trans ?_⟩
    have hclamp : max 1800 (min 7200 a.toNat) = 1 * 1800 := by omega
    rw [hclamp, ← mul_assoc]
    exact congrArg _ (Nat.mul_div_mul_right _ 2 (by decide : 0 < 1800)).symm
  · obtain ⟨r, hr, hval⟩ := @scaleTarget_eq t 2 1 (by decide)
    refine ⟨r, hr, hval.trans ?_⟩
    have hclamp : max 1800 (min 7200 a.toNat) = 2 * 3600 := by omega
    rw [hclamp, ← mul_assoc]
    exact congrArg _ (Nat.mul_div_mul_right _ 1 (by decide : 0 < 3600)).symm
  · obtain ⟨r, hr, hval⟩ := @scaleTarget_eq t a 3600 (by decide)
    have hclamp : max 1800 (min 7200 a.toNat) = a.toNat := by omega
    exact ⟨r, hr, by rw [hval, hclamp]; rfl⟩

/-- CLAMPED: `next_target` is one formula over all five branches, monotone in the old target and in
    the elapsed time. -/
theorem nextTarget_clamped (t : Bytes32) (a : UInt64) :
    (nextTarget t a).map targetNat =
        some (min (2 ^ 256 - 1) (targetNat t * max 1800 (min 7200 a.toNat) / 3600)) ∧
      ∀ t' a' r r', targetNat t ≤ targetNat t' → a ≤ a' →
        nextTarget t a = some r → nextTarget t' a' = some r' → targetNat r ≤ targetNat r' := by
  obtain ⟨s, hs, hval⟩ := nextTarget_value t a
  refine ⟨by rw [hs, Option.map_some, hval], fun t' a' r r' ht ha hr hr' => ?_⟩
  obtain ⟨s', hs', hval'⟩ := nextTarget_value t' a'
  obtain rfl := Option.some.inj (hs.symm.trans hr)
  obtain rfl := Option.some.inj (hs'.symm.trans hr')
  have ha := UInt64.le_iff_toNat_le.mp ha
  have hclamp : max 1800 (min 7200 a.toNat) ≤ max 1800 (min 7200 a'.toNat) := by omega
  rw [hval, hval']
  exact min_le_min_left _ (Nat.div_le_div_right (Nat.mul_le_mul ht hclamp))

/-- A window in a quarter of an hour halves the easiest target, one in an hour keeps it. -/
theorem nextTarget_clamped_fast :
    (nextTarget maxTarget 900).map targetNat = some ((2 ^ 256 - 1) / 2) ∧
      targetNat (#v[(127 : UInt8)] ++ Vector.replicate 31 (255 : UInt8)) ≤ targetNat maxTarget := by
  obtain ⟨hvalue, hmono⟩ := nextTarget_clamped maxTarget 900
  refine ⟨?_, hmono maxTarget 3600 _ _ le_rfl (by decide) (by decide +kernel) (by decide +kernel)⟩
  rw [hvalue, targetNat_maxTarget]
  rfl

theorem isHalvingBoundary_iff (h : UInt64) :
    isHalvingBoundary h = true ↔ 0 < h.toNat ∧ h.toNat % 378000 = 0 := by
  simp only [isHalvingBoundary, Bool.and_eq_true, decide_eq_true_eq, beq_iff_eq,
    ← UInt64.toNat_inj, UInt64.toNat_mod, gt_iff_lt, UInt64.lt_iff_toNat_lt]
  rfl

theorem isRetargetBoundary_iff (h : UInt64) :
    isRetargetBoundary h = true ↔ 0 < h.toNat ∧ h.toNat % 60 = 0 := by
  simp only [isRetargetBoundary, Bool.and_eq_true, decide_eq_true_eq, beq_iff_eq,
    ← UInt64.toNat_inj, UInt64.toNat_mod, gt_iff_lt, UInt64.lt_iff_toNat_lt]
  rfl

end Equium.Program
