import Mathlib.Data.List.Nodup

/-! Scheme paging: an append-only history, read through a listing that is newest first.

    A listing is cut by two cursors, each the key of an entry: `olderThan` starts behind one, `newerThan`
    stops in front of one. Where keys are unique, a cursor splits the history, and what a cursor cuts off
    does not change when the history grows. `slices` is the loop that takes `n` entries at a time;
    `pagesBack` lists whole pages, the last one first. -/

namespace Equium.Schemes

variable {α κ : Type*} [DecidableEq κ] (key : α → κ)

/-- The part of a newest-first list behind a cursor. -/
def olderThan (before : Option κ) (xs : List α) : List α :=
  match before with
  | none => xs
  | some k => (xs.dropWhile fun x => key x ≠ k).tail

/-- The part of a newest-first list in front of a cursor. -/
def newerThan (after : Option κ) (xs : List α) : List α :=
  match after with
  | none => xs
  | some k => xs.takeWhile fun x => key x ≠ k

/-- The oldest part of a history up to and including a cursor; nothing without one. -/
def upTo (cursor : Option κ) (history : List α) : List α :=
  match cursor with
  | none => []
  | some k => (history.reverse.dropWhile fun x => key x ≠ k).reverse

variable {key}

/-- Where keys are unique, no entry after `x` has its key. -/
theorem key_ne_of_nodup {a b : List α} {x : α} (h : ((a ++ x :: b).map key).Nodup) :
    ∀ y ∈ b.reverse, decide (key y ≠ key x) = true := by
  intro y hy
  rw [List.map_append, List.map_cons] at h
  have hx := (List.nodup_cons.mp (List.nodup_append.mp h).2.1).1
  rw [decide_eq_true_eq]
  intro he
  exact hx (he ▸ List.mem_map_of_mem (List.mem_reverse.mp hy))

theorem olderThan_split {a b : List α} {x : α} (h : ((a ++ x :: b).map key).Nodup) :
    olderThan key (some (key x)) (a ++ x :: b).reverse = a.reverse := by
  rw [List.reverse_append, List.reverse_cons, List.append_assoc, olderThan,
    List.dropWhile_append_of_pos (key_ne_of_nodup h)]
  simp

theorem newerThan_split {a b : List α} {x : α} (h : ((a ++ x :: b).map key).Nodup) :
    newerThan key (some (key x)) (a ++ x :: b).reverse = b.reverse := by
  rw [List.reverse_append, List.reverse_cons, List.append_assoc, newerThan,
    List.takeWhile_append_of_pos (key_ne_of_nodup h)]
  simp

theorem upTo_split {a b : List α} {x : α} (h : ((a ++ x :: b).map key).Nodup) :
    upTo key (some (key x)) (a ++ x :: b) = a ++ [x] := by
  rw [upTo, List.reverse_append, List.reverse_cons, List.append_assoc,
    List.dropWhile_append_of_pos (key_ne_of_nodup h)]
  simp

/-- A cursor at the last entry of a prefix cuts off that prefix; no cursor stands for the empty one. -/
theorem newerThan_initial {a b : List α} (h : ((a ++ b).map key).Nodup) :
    newerThan key (a.getLast?.map key) (a ++ b).reverse = b.reverse := by
  rcases List.eq_nil_or_concat a with rfl | ⟨a, x, rfl⟩
  · rfl
  · rw [List.concat_eq_append, List.append_assoc, List.singleton_append] at h
    rw [List.concat_eq_append, List.getLast?_concat, Option.map_some, List.append_assoc,
      List.singleton_append]
    exact newerThan_split h

theorem upTo_initial {a b : List α} (h : ((a ++ b).map key).Nodup) :
    upTo key (a.getLast?.map key) (a ++ b) = a := by
  rcases List.eq_nil_or_concat a with rfl | ⟨a, x, rfl⟩
  · rfl
  · rw [List.concat_eq_append, List.append_assoc, List.singleton_append] at h
    rw [List.concat_eq_append, List.getLast?_concat, Option.map_some, List.append_assoc,
      List.singleton_append]
    exact upTo_split h

/-- A cursor at the first entry of a suffix cuts off that suffix. -/
theorem olderThan_suffix {a b c : List α} (h : ((a ++ (b ++ c)).map key).Nodup) (hb : b ≠ []) :
    olderThan key (b.head?.map key) (a ++ (b ++ c)).reverse = a.reverse := by
  obtain ⟨x, b, rfl⟩ := List.exists_cons_of_ne_nil hb
  exact olderThan_split h

omit [DecidableEq κ] in
/-- No key occurs twice, in whatever direction the list is read. -/
theorem nodup_map_reverse {xs : List α} : (xs.reverse.map key).Nodup ↔ (xs.map key).Nodup := by
  rw [List.map_reverse, List.nodup_reverse]

/-- Behind its last entry, a prefix of a newest-first list is followed by the rest. -/
theorem olderThan_cons {p q : List α} {x : α} (h : ((p ++ x :: q).map key).Nodup) :
    olderThan key (some (key x)) (p ++ x :: q) = q := by
  have hrev : p ++ x :: q = (q.reverse ++ x :: p.reverse).reverse := by simp
  rw [hrev] at h ⊢
  rw [olderThan_split (nodup_map_reverse.mp h), List.reverse_reverse]

/-- What is behind a cursor of the history stays there when the history grows. -/
theorem olderThan_grow {history new : List α} {k : κ} (hk : k ∈ history.map key)
    (h : ((history ++ new).map key).Nodup) :
    olderThan key (some k) (history ++ new).reverse = olderThan key (some k) history.reverse := by
  obtain ⟨x, hx, rfl⟩ := List.mem_map.mp hk
  obtain ⟨a, b, rfl⟩ := List.append_of_mem hx
  rw [List.append_assoc, List.cons_append] at h ⊢
  rw [olderThan_split h, olderThan_split]
  rw [← List.cons_append, ← List.append_assoc, List.map_append] at h
  exact (List.nodup_append.mp h).1

theorem olderThan_suffix_self (cursor : Option κ) (xs : List α) : olderThan key cursor xs <:+ xs := by
  cases cursor with
  | none => exact List.suffix_refl xs
  | some k => exact (List.tail_suffix _).trans (List.dropWhile_suffix _)

/-- Behind the last entry of a page stands what the page leaves out. -/
theorem olderThan_page {xs rest : List α} {cursor : Option κ} {n : ℕ} (h : (xs.map key).Nodup)
    (hr : olderThan key cursor xs = rest) (hne : rest.take n ≠ []) :
    olderThan key ((rest.take n).getLast?.map key) xs = rest.drop n := by
  obtain ⟨pre, hpre⟩ := olderThan_suffix_self cursor xs
  rw [hr] at hpre
  rcases List.eq_nil_or_concat (rest.take n) with hnil | ⟨p, x, hp⟩
  · exact absurd hnil hne
  · rw [List.concat_eq_append] at hp
    have hxs : xs = (pre ++ p) ++ x :: rest.drop n := by
      rw [← hpre, List.append_assoc]
      nth_rewrite 1 [← List.take_append_drop n rest]
      rw [hp]
      simp
    rw [hp, List.getLast?_concat, Option.map_some, hxs]
    exact olderThan_cons (hxs ▸ h)

/-- Taking the first `n` values of a partial map stops at the entry that gave the last of them. -/
theorem filterMap_take_split {β : Type*} {f : α → Option β} {xs : List α} {n : ℕ}
    (h : (xs.filterMap f).take n ≠ []) : ∃ p x q y, xs = p ++ x :: q ∧ f x = some y ∧
      (p ++ [x]).filterMap f = (xs.filterMap f).take n ∧
      ((xs.filterMap f).take n).getLast? = some y := by
  induction xs generalizing n with
  | nil => simp at h
  | cons x xs ih =>
    cases n with
    | zero => simp at h
    | succ n =>
      cases hx : f x with
      | none =>
        rw [List.filterMap_cons_none hx] at h ⊢
        obtain ⟨p, z, q, y, rfl, hz, hp, hlast⟩ := ih h
        refine ⟨x :: p, z, q, y, rfl, hz, ?_, hlast⟩
        rw [List.cons_append, List.filterMap_cons_none hx, hp]
      | some v =>
        rw [List.filterMap_cons_some hx, List.take_succ_cons]
        by_cases hnil : (xs.filterMap f).take n = []
        · rw [hnil]
          exact ⟨[], x, xs, v, rfl, hx, by simp [hx], rfl⟩
        · obtain ⟨p, z, q, y, rfl, hz, hp, hlast⟩ := ih hnil
          refine ⟨x :: p, z, q, y, rfl, hz, ?_, ?_⟩
          · rw [List.cons_append, List.filterMap_cons_some hx, hp]
          · rw [List.getLast?_cons, hlast]
            rfl

/-- The newest `n` entries of a history, and the older ones they leave out. -/
theorem exists_newest (n : ℕ) (xs : List α) : ∃ old page, xs = old ++ page ∧
    xs.reverse.take n = page.reverse ∧ xs.reverse.drop n = old.reverse ∧
    (page.length < n → old = []) := by
  refine ⟨xs.take (xs.length - n), xs.drop (xs.length - n), (List.take_append_drop _ xs).symm,
    List.take_reverse, List.drop_reverse, ?_⟩
  intro h
  rw [List.length_drop] at h
  rw [List.take_eq_nil_iff]
  omega

/-- The consecutive slices of length `n`. -/
def slices (n : ℕ) (xs : List α) : List (List α) :=
  (List.range ((xs.length + n - 1) / n)).map fun i => (xs.drop (i * n)).take n

/-- The slices are the list, cut up. -/
theorem slices_flatten {n : ℕ} (hn : 0 < n) (xs : List α) : (slices n xs).flatten = xs := by
  have hprefix : ∀ m, ((List.range m).map fun i => (xs.drop (i * n)).take n).flatten =
      xs.take (m * n) := by
    intro m
    induction m with
    | zero => simp
    | succ m ih =>
      rw [List.range_succ, List.map_append, List.flatten_append, ih, Nat.succ_mul, List.take_add]
      simp
  rw [slices, hprefix]
  refine List.take_of_length_le ?_
  have hdiv := Nat.div_add_mod (xs.length + n - 1) n
  have hmod := Nat.mod_lt (xs.length + n - 1) hn
  rw [Nat.mul_comm] at hdiv
  omega

/-! ### Pages taken back to front -/

/-- The first `m` pages of `n` entries, the last of them first. -/
def pagesBack (n : ℕ) (xs : List α) : ℕ → List α
  | 0 => []
  | m + 1 => (xs.drop (n * m)).take n ++ pagesBack n xs m

/-- A search over pages taken back to front ends in the last page with a match: it finds there what a
    search from that page on finds, behind it there is no match, and without any match it is the first. -/
theorem pagesBack_search {β : Type*} {g : List α → Option β} (hnil : g [] = none)
    (happend : ∀ xs ys, g (xs ++ ys) = (g xs).or (g ys)) (n : ℕ) (xs : List α) (m : ℕ) :
    ∃ j ≤ m, g (pagesBack n xs m) = g ((xs.take (n * m)).drop (n * j)) ∧
      (∀ i, j < i → g ((xs.take (n * m)).drop (n * i)) = none) ∧
      (g (pagesBack n xs m) = none → j = 0) := by
  induction m with
  | zero =>
    refine ⟨0, Nat.le_refl 0, by simp [pagesBack], fun i _ => ?_, fun _ => rfl⟩
    rw [Nat.mul_zero, List.take_zero, List.drop_nil, hnil]
  | succ m ih =>
    obtain ⟨j, hj, hfound, hbehind, hzero⟩ := ih
    -- the new page comes behind what was there, also behind a border
    have hsplit : ∀ i ≤ m, (xs.take (n * (m + 1))).drop (n * i) =
        (xs.take (n * m)).drop (n * i) ++ (xs.drop (n * m)).take n := by
      intro i hi
      rw [Nat.mul_succ, List.take_add, List.drop_append]
      by_cases hlen : n * i ≤ (xs.take (n * m)).length
      · rw [Nat.sub_eq_zero_of_le hlen, List.drop_zero]
      · have hmul := Nat.mul_le_mul_left n hi
        have hshort : xs.length ≤ n * m := by
          rw [List.length_take] at hlen
          omega
        rw [List.drop_eq_nil_of_le hshort]
        simp
    rw [pagesBack, happend]
    cases hpage : g ((xs.drop (n * m)).take n) with
    | none =>
      refine ⟨j, Nat.le_succ_of_le hj, ?_, ?_, hzero⟩
      · rw [hsplit j hj, happend, hpage, Option.or_none, Option.none_or, hfound]
      · intro i hi
        by_cases him : i ≤ m
        · rw [hsplit i him, happend, hbehind i hi, hpage]
          rfl
        · have hmul := Nat.mul_le_mul_left n (Nat.lt_of_not_le him)
          rw [List.drop_eq_nil_of_le (Nat.le_trans (List.length_take_le _ _) hmul), hnil]
    | some b =>
      refine ⟨m, Nat.le_succ m, ?_, ?_, fun h => by cases h⟩
      · have hall := hsplit m (Nat.le_refl m)
        rw [List.drop_eq_nil_of_le (List.length_take_le (n * m) xs), List.nil_append] at hall
        rw [hall, hpage]
        rfl
      · intro i hi
        have hmul := Nat.mul_le_mul_left n hi
        rw [List.drop_eq_nil_of_le (Nat.le_trans (List.length_take_le _ _) hmul), hnil]

end Equium.Schemes
