import Mathlib.Algebra.BigOperators.Intervals
import Mathlib.Algebra.Order.BigOperators.Group.Finset
import Mathlib.Tactic.Ring

/-! Scheme sum: a schedule that is constant on blocks of `m` steps, summed over the steps. -/

namespace Equium.Schemes
open Finset

/-- `K` whole blocks: every value counts `m` times. -/
theorem sum_div_blocks {m : ℕ} (hm : 0 < m) (f : ℕ → ℕ) (K : ℕ) :
    ∑ i ∈ range (m * K), f (i / m) = m * ∑ i ∈ range K, f i := by
  induction K with
  | zero => simp
  | succ K ih =>
    have hblock : ∑ i ∈ range m, f ((m * K + i) / m) = m * f K := by
      rw [sum_congr rfl fun i hi => by
        rw [Nat.mul_add_div hm, Nat.div_eq_of_lt (mem_range.mp hi), Nat.add_zero]]
      simp
    rw [Nat.mul_succ, sum_range_add, ih, hblock, sum_range_succ, Nat.mul_add]

/-- If the schedule is zero from block `K` on, no number of steps sums to more than `K` blocks. -/
theorem sum_div_le {m K : ℕ} (hm : 0 < m) {f : ℕ → ℕ} (hf : ∀ i, K ≤ i → f i = 0) (n : ℕ) :
    ∑ i ∈ range n, f (i / m) ≤ m * ∑ i ∈ range K, f i := by
  rw [← sum_div_blocks hm f K]
  rcases Nat.le_total n (m * K) with h | h
  · exact sum_le_sum_of_subset (range_subset_range.mpr h)
  · rw [← sum_range_add_sum_Ico _ h, Nat.add_eq_left.mpr]
    refine sum_eq_zero fun i hi => hf _ ?_
    rw [Nat.le_div_iff_mul_le hm, Nat.mul_comm]
    exact (mem_Ico.mp hi).1

end Equium.Schemes
