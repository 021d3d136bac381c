import Mathlib.Algebra.BigOperators.Group.List.Basic
import Mathlib.Algebra.Order.BigOperators.Group.List
import Mathlib.Algebra.Order.Ring.Nat

/-! Scheme groups: entries totalled by key.

    The totals over all keys that occur add up to the total over all entries (`sum_totals`). -/

namespace Equium.Schemes

variable {α κ : Type*} [DecidableEq κ] {key : α → κ} {f : α → ℕ} {xs ys : List α}

/-- The total of `f` over the entries of one key. -/
def totalOf (key : α → κ) (f : α → ℕ) (k : κ) (xs : List α) : ℕ :=
  (xs.map fun x => if key x = k then f x else 0).sum

theorem totalOf_perm (h : xs.Perm ys) (k : κ) : totalOf key f k xs = totalOf key f k ys :=
  (h.map _).sum_eq

theorem totalOf_append (k : κ) (xs ys : List α) :
    totalOf key f k (xs ++ ys) = totalOf key f k xs + totalOf key f k ys := by simp [totalOf]

theorem totalOf_cons (k : κ) (x : α) (xs : List α) :
    totalOf key f k (x :: xs) = (if key x = k then f x else 0) + totalOf key f k xs := by
  simp [totalOf]

/-- Only the entries of the key count. -/
theorem totalOf_filter (k : κ) (xs : List α) :
    totalOf key f k xs = ((xs.filter fun x => key x = k).map f).sum := by
  induction xs with
  | nil => rfl
  | cons x xs ih =>
    rw [totalOf_cons, ih]
    by_cases hk : key x = k
    · simp [hk]
    · simp [hk]

/-- An entry is part of its key's total. -/
theorem le_totalOf {x : α} (hx : x ∈ xs) : f x ≤ totalOf key f (key x) xs := by
  have hmem : f x ∈ xs.map fun y => if key y = key x then f y else 0 :=
    List.mem_map.mpr ⟨x, hx, if_pos rfl⟩
  exact List.single_le_sum (fun _ _ => Nat.zero_le _) _ hmem

/-- Entries that each count one. -/
theorem totalOf_one (k : κ) (xs : List α) :
    totalOf key (fun _ => 1) k xs = xs.countP fun x => key x = k := by
  induction xs with
  | nil => rfl
  | cons x xs ih =>
    rw [totalOf_cons, ih, List.countP_cons, Nat.add_comm]
    simp

/-- Entries renamed along an injection of the keys. -/
theorem totalOf_map {β μ : Type*} [DecidableEq μ] {g : β → α} {key' : β → μ} {rename : μ → κ}
    (hinj : Function.Injective rename) (hkey : ∀ y, key (g y) = rename (key' y)) (k : μ)
    (ys : List β) : totalOf key f (rename k) (ys.map g) = totalOf key' (fun y => f (g y)) k ys := by
  rw [totalOf, List.map_map, totalOf]
  refine congrArg List.sum (List.map_congr_left fun y _ => ?_)
  rw [Function.comp_apply, hkey y]
  exact if_congr hinj.eq_iff rfl rfl

/-- One entry is in the total of its own key only. -/
theorem sum_single (k : κ) (n : ℕ) {ks : List κ} (hn : ks.Nodup) (hmem : n ≠ 0 → k ∈ ks) :
    (ks.map fun k' => if k = k' then n else 0).sum = n := by
  induction ks with
  | nil =>
    by_contra hne
    exact List.not_mem_nil (hmem fun hz => hne hz.symm)
  | cons k' ks ih =>
    obtain ⟨hnot, hrest⟩ := List.nodup_cons.mp hn
    rw [List.map_cons, List.sum_cons]
    by_cases hk : k = k'
    · subst hk
      have hzero : (ks.map fun k' => if k = k' then n else 0).sum = 0 := by
        refine List.sum_eq_zero fun m hm => ?_
        obtain ⟨k', hk', rfl⟩ := List.mem_map.mp hm
        exact if_neg (fun he : k = k' => hnot (he ▸ hk'))
      rw [if_pos rfl, hzero, Nat.add_zero]
    · rw [if_neg hk, Nat.zero_add]
      exact ih hrest fun hz => (List.mem_cons.mp (hmem hz)).resolve_left hk

/-- TOTALS: the totals of the keys add up to the total. -/
theorem sum_totals {ks : List κ} (hn : ks.Nodup) (hkeys : ∀ x ∈ xs, f x ≠ 0 → key x ∈ ks) :
    (ks.map fun k => totalOf key f k xs).sum = (xs.map f).sum := by
  induction xs with
  | nil => simp [totalOf]
  | cons x xs ih =>
    simp only [totalOf_cons]
    rw [List.sum_map_add, sum_single (key x) (f x) hn (hkeys x List.mem_cons_self),
      ih fun y hy => hkeys y (List.mem_cons_of_mem x hy), List.map_cons, List.sum_cons]

end Equium.Schemes
