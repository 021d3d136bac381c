import Mathlib.Algebra.BigOperators.Group.List.Basic
import Mathlib.Algebra.Order.Ring.Int

/-! Scheme histogram: entries counted into numbered slots, and the counts over adjoining intervals.

    `tally` is the loop that skips an entry or adds one to its slot. Counts over intervals that adjoin
    add up to the count over all of them. -/

namespace Equium.Schemes

variable {α : Type*}

/-- One pass over the entries: an entry without a slot is skipped. -/
def tally (slot : α → Option ℕ) (xs : List α) (counts : List ℕ) : List ℕ :=
  xs.foldl (fun counts x => (slot x).elim counts fun i => counts.modify i (· + 1)) counts

theorem tally_length (slot : α → Option ℕ) (xs : List α) (counts : List ℕ) :
    (tally slot xs counts).length = counts.length := by
  induction xs generalizing counts with
  | nil => rfl
  | cons x xs ih =>
    rw [tally, List.foldl_cons, ← tally, ih]
    cases slot x with
    | none => rfl
    | some i => exact List.length_modify _ _ _

/-- A slot is raised once for each of its entries. -/
theorem tally_getElem? (slot : α → Option ℕ) (xs : List α) (counts : List ℕ) (i : ℕ) :
    (tally slot xs counts)[i]? =
      counts[i]?.map (· + xs.countP fun x => slot x = some i) := by
  induction xs generalizing counts with
  | nil => simp [tally]
  | cons x xs ih =>
    rw [tally, List.foldl_cons, ← tally, ih, List.countP_cons]
    cases hx : slot x with
    | none => simp
    | some j =>
      by_cases hj : j = i
      · subst hj
        simp only [Option.elim_some, List.getElem?_modify_eq, decide_true, if_true]
        cases counts[j]? with
        | none => rfl
        | some n =>
          simp [Nat.add_assoc, Nat.add_comm 1]
      · simp [hj, List.getElem?_modify_ne]

/-- A condition that splits in two is counted in two. -/
theorem countP_split {p q r : α → Bool} {xs : List α}
    (h : ∀ x ∈ xs, (if r x then 1 else 0) = (if p x then 1 else 0) + if q x then 1 else 0) :
    xs.countP r = xs.countP p + xs.countP q := by
  induction xs with
  | nil => rfl
  | cons x xs ih =>
    rw [List.countP_cons, List.countP_cons, List.countP_cons,
      ih fun y hy => h y (List.mem_cons_of_mem x hy), h x List.mem_cons_self]
    omega

/-- The counts over `n` adjoining intervals of one width are the count from the first to the last. -/
theorem sum_countP_intervals (value : α → ℤ) (xs : List α) (a width : ℤ) (hw : 0 ≤ width) (n : ℕ) :
    ((List.range n).map fun i : ℕ =>
      xs.countP fun x => a + width * i ≤ value x ∧ value x < a + width * i + width).sum =
    xs.countP fun x => a ≤ value x ∧ value x < a + width * n := by
  induction n with
  | zero =>
    simp only [List.range_zero, List.map_nil, List.sum_nil]
    symm
    rw [List.countP_eq_zero]
    intro x _
    simp
  | succ n ih =>
    rw [List.range_succ, List.map_append, List.sum_append, ih, List.map_singleton, List.sum_singleton]
    symm
    refine countP_split fun x _ => ?_
    have hpos : 0 ≤ width * n := Int.mul_nonneg hw (Int.natCast_nonneg n)
    have hsucc : width * ((n + 1 : ℕ) : ℤ) = width * n + width := by
      rw [Int.natCast_succ, Int.mul_add, Int.mul_one]
    rw [hsucc]
    simp only [decide_eq_true_eq]
    split_ifs <;> omega

end Equium.Schemes
