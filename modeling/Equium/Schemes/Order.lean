import Equium.Schemes.Pairs

/-! Scheme order: what a strict order on the entries of a list becomes under a stable sort, under
    `pairs` and under a search for the first match.

    Sorting by a key turns an order into the order by key and then as before (`mergeSort_stable`);
    the pairs of an ordered list are in lexicographic order (`pairs_pairwise`); and a search that
    stops at the first match finds the least one (`find?_least`). -/

namespace Equium.Schemes

variable {α : Type*} {R : α → α → Prop}

/-- Entries that the sort does not separate keep their order. -/
theorem mergeSort_stable {le : α → α → Bool} (htrans : ∀ a b c, le a b → le b c → le a c)
    (htotal : ∀ a b, le a b || le b a) {xs : List α} (hn : xs.Nodup) (h : xs.Pairwise R) :
    (xs.mergeSort le).Pairwise fun a b => le a b = true ∧ (le b a = true → R a b) := by
  have hperm := List.mergeSort_perm xs le
  have hsorted := List.pairwise_mergeSort htrans htotal xs
  rw [List.pairwise_iff_forall_sublist] at h hsorted ⊢
  intro a b hab
  refine ⟨hsorted hab, fun hba => h (mem_pairs.mp ?_)⟩
  have hpair := mem_pairs.mpr hab
  obtain ⟨ha, hb⟩ := mem_of_mem_pairs hpair
  have hn' := hperm.nodup_iff.mpr hn
  rcases mem_pairs_or (hperm.mem_iff.mp ha) (hperm.mem_iff.mp hb) (ne_of_mem_pairs hn' hpair)
    with hin | hin
  · exact hin
  · -- `b` stood before `a`, so it still does
    have hswap := List.pair_sublist_mergeSort htrans htotal hba (mem_pairs.mp hin)
    exact absurd (mem_pairs.mpr hswap) (not_mem_pairs_swap hn' hpair)

/-- The pairs of an ordered list, by their first entry and then by their second. -/
theorem pairs_pairwise {xs : List α} (h : xs.Pairwise R) : (pairs xs).Pairwise (Prod.Lex R R) := by
  induction xs with
  | nil => exact List.Pairwise.nil
  | cons x xs ih =>
    obtain ⟨hx, hxs⟩ := List.pairwise_cons.mp h
    refine List.pairwise_append.mpr ⟨?_, ih hxs, ?_⟩
    · exact List.pairwise_map.mpr (hxs.imp fun hr => Prod.Lex.right x hr)
    · rintro _ hp ⟨a, b⟩ hq
      obtain ⟨y, -, rfl⟩ := List.mem_map.mp hp
      exact Prod.Lex.left _ _ (hx a (mem_of_mem_pairs hq).1)

/-- The first match of an ordered list is before every other match. -/
theorem find?_least {p : α → Bool} {x : α} {xs : List α} (h : xs.Pairwise R)
    (hf : xs.find? p = some x) : x ∈ xs ∧ p x = true ∧ ∀ y ∈ xs, p y = true → y = x ∨ R x y := by
  induction xs with
  | nil => cases hf
  | cons z zs ih =>
    obtain ⟨hz, hzs⟩ := List.pairwise_cons.mp h
    rw [List.find?_cons] at hf
    by_cases hp : p z = true
    · rw [hp] at hf
      obtain rfl := Option.some.inj hf
      exact ⟨List.mem_cons_self, hp, fun y hy _ => (List.mem_cons.mp hy).imp_right (hz y)⟩
    · rw [Bool.not_eq_true] at hp
      rw [hp] at hf
      obtain ⟨hx, hpx, hall⟩ := ih hzs hf
      refine ⟨List.mem_cons_of_mem _ hx, hpx, fun y hy hpy => ?_⟩
      rcases List.mem_cons.mp hy with rfl | hy
      · rw [hp] at hpy
        cases hpy
      · exact hall y hy hpy

end Equium.Schemes
