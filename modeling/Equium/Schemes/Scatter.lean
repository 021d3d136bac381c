import Mathlib.Data.List.Nodup
import Mathlib.Logic.Function.Basic
import Mathlib.Algebra.Order.Ring.Nat

/-! Scheme scatter: stores to numbered cells, in any order.

    When every cell has at most one store, the order of the stores does not matter
    (`store_of_mem`). A scatter that covers the first `N` cells once each leaves its values there
    whatever the order (`storeCount_any_order`, `scatter_any_order`). -/

namespace Equium.Schemes

variable {V : Type*}

/-- The stores take effect one after the other. -/
def store (mem : ℕ → V) (ws : List (ℕ × V)) : ℕ → V :=
  ws.foldl (fun mem w => Function.update mem w.1 w.2) mem

/-- The number of stores to a cell. -/
def storeCount (ws : List (ℕ × V)) (a : ℕ) : ℕ := ws.countP fun w => w.1 = a

theorem storeCount_eq (ws : List (ℕ × V)) (a : ℕ) : storeCount ws a = (ws.map (·.1)).count a := by
  rw [storeCount, List.count, List.countP_map]
  refine List.countP_congr fun w _ => ?_
  simp

theorem storeCount_append (ws ws' : List (ℕ × V)) (a : ℕ) :
    storeCount (ws ++ ws') a = storeCount ws a + storeCount ws' a := List.countP_append

theorem storeCount_pos {ws : List (ℕ × V)} {a : ℕ} : 0 < storeCount ws a ↔ a ∈ ws.map (·.1) := by
  rw [storeCount_eq, List.count_pos_iff]

theorem store_of_not_mem {mem : ℕ → V} {ws : List (ℕ × V)} {a : ℕ} (h : a ∉ ws.map (·.1)) :
    store mem ws a = mem a := by
  induction ws generalizing mem with
  | nil => rfl
  | cons w ws ih =>
    rw [List.map_cons, List.mem_cons, not_or] at h
    exact (ih h.2).trans (Function.update_of_ne h.1 _ _)

/-- The value of the only store to a cell stays. -/
theorem store_of_mem {mem : ℕ → V} {ws : List (ℕ × V)} (hn : (ws.map (·.1)).Nodup) {a : ℕ} {v : V}
    (h : (a, v) ∈ ws) : store mem ws a = v := by
  induction ws generalizing mem with
  | nil => cases h
  | cons w ws ih =>
    obtain ⟨hnew, hn⟩ := List.nodup_cons.mp hn
    rcases List.mem_cons.mp h with rfl | h
    · exact (store_of_not_mem hnew).trans (Function.update_self _ _ _)
    · exact ih hn h

section
variable {N : ℕ} {qs ws : List (ℕ × V)}

/-- Every order of stores that cover the first `N` cells once each covers them so. -/
theorem storeCount_any_order (hq : qs.map (·.1) = List.range N) (hp : ws.Perm qs) (a : ℕ) :
    storeCount ws a = if a < N then 1 else 0 := by
  rw [storeCount_eq, (hp.map _).count_eq, hq]
  split_ifs with ha
  · exact List.count_eq_one_of_mem List.nodup_range (List.mem_range.mpr ha)
  · exact List.count_eq_zero_of_not_mem (mt List.mem_range.mp ha)

/-- What it leaves there are the values of the stores. -/
theorem scatter_any_order (hq : qs.map (·.1) = List.range N) (hp : ws.Perm qs) (mem : ℕ → V) :
    (List.range N).map (store mem ws) = qs.map (·.2) := by
  have hn : (ws.map (·.1)).Nodup := by
    rw [(hp.map _).nodup_iff, hq]
    exact List.nodup_range
  rw [← hq, List.map_map]
  exact List.map_congr_left fun w hw => store_of_mem hn (hp.mem_iff.mpr hw)

end

end Equium.Schemes
