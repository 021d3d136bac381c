import Mathlib.Data.List.Induction
import Mathlib.Data.List.Perm.Basic
import Mathlib.Data.List.Sort

/-! Scheme by-key: entries folded into a map that keeps the order in which its keys came, and the top of
    a ranking.

    A key's value is the fold over its own entries (`foldByKey_folded`); two rankings of the same entries
    show the same scores, and nothing below the cut beats what is above it. -/

namespace Equium.Schemes

variable {α β κ : Type*} [DecidableEq κ] (key : α → κ) (init : α → β) (add : β → α → β)

/-- One more entry: it is added to the value of its key, or its key comes last. -/
def foldOne (x : α) : List (κ × β) → List (κ × β)
  | [] => [(key x, init x)]
  | (k, v) :: m => if k = key x then (k, add v x) :: m else (k, v) :: foldOne x m

def foldByKey (xs : List α) : List (κ × β) := xs.foldl (fun m x => foldOne key init add x m) []

/-- The map holds one value for each key of `xs`, folded from the entries of that key. -/
structure Folded (xs : List α) (m : List (κ × β)) : Prop where
  nodup : (m.map Prod.fst).Nodup
  keys : ∀ k, k ∈ m.map Prod.fst ↔ ∃ x ∈ xs, key x = k
  values : ∀ p ∈ m, ∃ x rest, xs.filter (fun y => key y = p.1) = x :: rest ∧ p.2 = rest.foldl add (init x)

variable {key init add} {xs : List α} {m : List (κ × β)}

theorem foldOne_keys (x : α) (m : List (κ × β)) : (foldOne key init add x m).map Prod.fst =
    if key x ∈ m.map Prod.fst then m.map Prod.fst else m.map Prod.fst ++ [key x] := by
  induction m with
  | nil => rfl
  | cons p m ih =>
    obtain ⟨k, v⟩ := p
    rw [foldOne]
    by_cases hk : k = key x
    · simp [hk]
    · rw [if_neg hk, List.map_cons, ih, List.map_cons]
      have hmem : key x ∈ k :: m.map Prod.fst ↔ key x ∈ m.map Prod.fst := by
        simp [Ne.symm hk]
      by_cases hin : key x ∈ m.map Prod.fst
      · rw [if_pos hin, if_pos (hmem.mpr hin)]
      · rw [if_neg hin, if_neg (mt hmem.mp hin)]
        rfl

/-- An entry of the new map is an old one of another key, or the one of this key. -/
theorem mem_foldOne {x : α} {p : κ × β} (hn : (m.map Prod.fst).Nodup)
    (hp : p ∈ foldOne key init add x m) :
    (p ∈ m ∧ p.1 ≠ key x) ∨ (∃ v, (key x, v) ∈ m ∧ p = (key x, add v x)) ∨
      (key x ∉ m.map Prod.fst ∧ p = (key x, init x)) := by
  induction m with
  | nil => exact .inr (.inr ⟨List.not_mem_nil, List.mem_singleton.mp hp⟩)
  | cons q m ih =>
    obtain ⟨k, v⟩ := q
    obtain ⟨hk', hn'⟩ := List.nodup_cons.mp hn
    rw [foldOne] at hp
    by_cases hk : k = key x
    · rw [if_pos hk] at hp
      subst hk
      rcases List.mem_cons.mp hp with rfl | hp
      · exact .inr (.inl ⟨v, List.mem_cons_self, rfl⟩)
      · exact .inl ⟨List.mem_cons_of_mem _ hp, fun he => hk' (List.mem_map.mpr ⟨p, hp, he⟩)⟩
    · rw [if_neg hk] at hp
      rcases List.mem_cons.mp hp with rfl | hp
      · exact .inl ⟨List.mem_cons_self, hk⟩
      · rcases ih hn' hp with ⟨hin, hne⟩ | ⟨w, hin, rfl⟩ | ⟨hout, rfl⟩
        · exact .inl ⟨List.mem_cons_of_mem _ hin, hne⟩
        · exact .inr (.inl ⟨w, List.mem_cons_of_mem _ hin, rfl⟩)
        · refine .inr (.inr ⟨?_, rfl⟩)
          rw [List.map_cons, List.mem_cons, not_or]
          exact ⟨fun he => hk he.symm, hout⟩

/-- Step lemma: one more entry. -/
theorem Folded.snoc (h : Folded key init add xs m) (x : α) :
    Folded key init add (xs ++ [x]) (foldOne key init add x m) where
  nodup := by
    rw [foldOne_keys]
    split_ifs with hin
    · exact h.nodup
    · exact List.nodup_append.mpr ⟨h.nodup, List.nodup_singleton _, fun a ha b hb he => by
        rw [List.mem_singleton.mp hb] at he
        exact hin (he ▸ ha)⟩
  keys k := by
    rw [foldOne_keys]
    have hold := h.keys k
    have hx := h.keys (key x)
    split_ifs with hin
    · rw [hold]
      constructor
      · rintro ⟨y, hy, rfl⟩
        exact ⟨y, List.mem_append_left _ hy, rfl⟩
      · rintro ⟨y, hy, rfl⟩
        rcases List.mem_append.mp hy with hy | hy
        · exact ⟨y, hy, rfl⟩
        · rw [List.mem_singleton.mp hy]
          exact hx.mp hin
    · rw [List.mem_append, List.mem_singleton, hold]
      constructor
      · rintro (⟨y, hy, rfl⟩ | rfl)
        · exact ⟨y, List.mem_append_left _ hy, rfl⟩
        · exact ⟨x, List.mem_append_right _ (List.mem_singleton_self x), rfl⟩
      · rintro ⟨y, hy, rfl⟩
        rcases List.mem_append.mp hy with hy | hy
        · exact .inl ⟨y, hy, rfl⟩
        · exact .inr (by rw [List.mem_singleton.mp hy])
  values p hp := by
    rw [List.filter_append]
    rcases mem_foldOne h.nodup hp with ⟨hin, hne⟩ | ⟨v, hin, rfl⟩ | ⟨hout, rfl⟩
    · obtain ⟨y, rest, hfilter, hv⟩ := h.values p hin
      refine ⟨y, rest, ?_, hv⟩
      rw [hfilter, List.filter_cons_of_neg (by simpa using Ne.symm hne), List.filter_nil,
        List.append_nil]
    · obtain ⟨y, rest, hfilter, rfl⟩ := h.values _ hin
      refine ⟨y, rest ++ [x], ?_, by rw [List.foldl_append]; rfl⟩
      rw [hfilter, List.filter_cons_of_pos (by simp), List.filter_nil]
      rfl
    · refine ⟨x, [], ?_, rfl⟩
      have hnone : xs.filter (fun y => key y = key x) = [] :=
        List.filter_eq_nil_iff.mpr fun y hy he =>
          hout ((h.keys (key x)).mpr ⟨y, hy, of_decide_eq_true he⟩)
      rw [hnone, List.filter_cons_of_pos (by simp), List.filter_nil]
      rfl

/-- BY KEY: every key is there once, with the fold over its own entries. -/
theorem foldByKey_folded (xs : List α) : Folded key init add xs (foldByKey key init add xs) := by
  induction xs using List.reverseRecOn with
  | nil => exact ⟨List.nodup_nil, by simp [foldByKey], fun p hp => absurd hp List.not_mem_nil⟩
  | append_singleton xs x ih =>
    rw [foldByKey, List.foldl_append]
    exact ih.snoc x

/-- The value of a key, if there is an entry of it. -/
theorem Folded.lookup (h : Folded key init add xs m) (k : κ) :
    m.lookup k = match xs.filter (fun y => key y = k) with
      | [] => none
      | x :: rest => some (rest.foldl add (init x)) := by
  cases hk : m.lookup k with
  | none =>
    rw [List.lookup_eq_none_iff] at hk
    have hnone : xs.filter (fun y => key y = k) = [] := by
      refine List.filter_eq_nil_iff.mpr fun y hy he => ?_
      obtain ⟨p, hp, hpk⟩ := List.mem_map.mp ((h.keys k).mpr ⟨y, hy, of_decide_eq_true he⟩)
      have hne := hk p hp
      rw [hpk] at hne
      simp at hne
    rw [hnone]
  | some v =>
    obtain ⟨m₁, m₂, hm, -⟩ := List.lookup_eq_some_iff.mp hk
    have hp : (k, v) ∈ m := by simp [hm]
    obtain ⟨x, rest, hfilter, hv⟩ := h.values _ hp
    rw [show (v : β) = (k, v).2 from rfl, hv, hfilter]

/-- Entries counted by key. -/
theorem lookup_count (xs : List α) (k : κ) :
    ((foldByKey key (fun _ => 1) (fun n _ => n + 1) xs).lookup k).getD 0 =
      xs.countP fun x => key x = k := by
  rw [(foldByKey_folded xs).lookup, List.countP_eq_length_filter]
  have hcount : ∀ (ys : List α) (n : ℕ), ys.foldl (fun n _ => n + 1) n = n + ys.length := by
    intro ys
    induction ys with
    | nil => exact fun n => rfl
    | cons y ys ih =>
      intro n
      rw [List.foldl_cons, ih, List.length_cons]
      omega
  cases xs.filter fun x => key x = k with
  | nil => rfl
  | cons x rest =>
    dsimp only [Option.getD_some]
    rw [hcount, List.length_cons, Nat.add_comm]

/-! ### Rankings -/

variable {score : α → ℕ} {ys : List α}

/-- A stable sort, the highest score first. -/
def rankBy (score : α → ℕ) (xs : List α) : List α := xs.mergeSort fun a b => score b ≤ score a

theorem rankBy_perm (score : α → ℕ) (xs : List α) : (rankBy score xs).Perm xs := List.mergeSort_perm _ _

theorem rankBy_sorted (score : α → ℕ) (xs : List α) :
    (rankBy score xs).Pairwise fun a b => score b ≤ score a := by
  refine (List.pairwise_mergeSort (fun a b c => ?_) (fun a b => ?_) xs).imp of_decide_eq_true
  · simp only [decide_eq_true_eq]
    exact fun hab hbc => hbc.trans hab
  · simp only [Bool.or_eq_true, decide_eq_true_eq]
    exact Nat.le_total _ _

/-- Two rankings of the same entries show the same scores. -/
theorem ranking_scores (hp : xs.Perm ys) (hx : xs.Pairwise fun a b => score b ≤ score a)
    (hy : ys.Pairwise fun a b => score b ≤ score a) : xs.map score = ys.map score :=
  (hp.map score).eq_of_pairwise (fun _ _ _ _ h h' => Nat.le_antisymm h' h)
    (List.pairwise_map.mpr hx) (List.pairwise_map.mpr hy)

/-- What is below the cut does not beat what is above. -/
theorem below_cut {n : ℕ} (h : xs.Pairwise fun a b => score b ≤ score a) {a b : α}
    (ha : a ∈ xs.take n) (hb : b ∈ xs) (hout : b ∉ xs.take n) : score b ≤ score a := by
  rw [← List.take_append_drop n xs, List.pairwise_append] at h
  rw [← List.take_append_drop n xs] at hb
  exact h.2.2 a ha b ((List.mem_append.mp hb).resolve_left hout)

end Equium.Schemes
