import Equium.Solver.Wagner

/-! @src crates/equihash-core/src/solver.rs | name:Equihash subtrees | scheme:induction on rounds

    What the rounds are for, stated without them: a level-`r` subtree over a table of leaves is an
    index tuple of length `2^r` without repetitions in which, at every level, the left half starts
    with the smaller index and the XORs of the halves agree on that level's bytes. One `round` turns
    exactly the level-`r` subtrees into exactly the level-`r + 1` subtrees (`Level.round`). -/

namespace Equium.Solver
open Schemes Equium.Core

/-! ### XOR of byte strings -/

def zeros (m : ℕ) : List UInt8 := List.replicate m 0

@[simp] theorem zeros_length (m : ℕ) : (zeros m).length = m := List.length_replicate

@[simp] theorem xor_length (a b : List UInt8) : (xor a b).length = min a.length b.length := by
  simp [xor]

theorem xor_append {a b c d : List UInt8} (h : a.length = c.length) :
    xor (a ++ b) (c ++ d) = xor a c ++ xor b d := by
  rw [xor, List.zipWith_append h]
  rfl

theorem xor_comm (a b : List UInt8) : xor a b = xor b a := by
  rw [xor, xor, List.zipWith_comm]
  simp only [UInt8.xor_comm]

theorem xor_self (a : List UInt8) : xor a a = zeros a.length := by
  induction a with
  | nil => rfl
  | cons x xs ih =>
    simp only [xor, zeros, List.zipWith_cons_cons, List.length_cons, List.replicate_succ,
      UInt8.xor_self] at ih ⊢
    rw [ih]

theorem xor_zeros (a : List UInt8) : xor (zeros a.length) a = a := by
  induction a with
  | nil => rfl
  | cons x xs ih =>
    simp only [xor, zeros, List.length_cons, List.replicate_succ, List.zipWith_cons_cons,
      UInt8.zero_xor] at ih ⊢
    rw [ih]

theorem xor_assoc : ∀ a b c : List UInt8, xor (xor a b) c = xor a (xor b c)
  | [], _, _ => by simp [xor]
  | _ :: _, [], _ => by simp [xor]
  | _ :: _, _ :: _, [] => by simp [xor]
  | x :: xs, y :: ys, z :: zs => by
    have := xor_assoc xs ys zs
    simp only [xor, List.zipWith_cons_cons, UInt8.xor_assoc] at this ⊢
    rw [this]

theorem zeros_add (a b : ℕ) : zeros (a + b) = zeros a ++ zeros b := List.replicate_add _ _ _

/-! ### Tables and subtrees -/

/-- A table of leaves for a search with `k` rounds of `cbytes` bytes each. -/
structure LeafTable where
  cbytes : ℕ
  k : ℕ
  count : ℕ
  leaf : UInt32 → List UInt8
  cbytes_pos : 0 < cbytes
  count_le : count ≤ 2 ^ 32
  leaf_length : ∀ i : UInt32, i.toNat < count → (leaf i).length = (k + 1) * cbytes

variable (T : LeafTable)

/-- The XOR of the leaves of a tuple. -/
def LeafTable.xorOf : List UInt32 → List UInt8
  | [] => zeros ((T.k + 1) * T.cbytes)
  | i :: is => xor (T.leaf i) (LeafTable.xorOf is)

/-- The bytes on which halves must agree when they are joined into a level-`r + 1` subtree. -/
def LeafTable.level (r : ℕ) (bytes : List UInt8) : List UInt8 :=
  (bytes.drop (r * T.cbytes)).take T.cbytes

/-- Order and collisions at every level of a tuple read as a binary tree. -/
def LeafTable.Tree : ℕ → List UInt32 → Prop
  | 0, t => t.length = 1
  | r + 1, t => t.length = 2 ^ (r + 1) ∧ LeafTable.Tree r (t.take (2 ^ r)) ∧
      LeafTable.Tree r (t.drop (2 ^ r)) ∧
      (t.take (2 ^ r)).headD 0 < (t.drop (2 ^ r)).headD 0 ∧
      T.level r (T.xorOf (t.take (2 ^ r))) = T.level r (T.xorOf (t.drop (2 ^ r)))

/-- A valid level-`r` subtree: leaves of the table, all different, in order, colliding. -/
structure LeafTable.Subtree (r : ℕ) (t : List UInt32) : Prop where
  leaves : ∀ i ∈ t, i.toNat < T.count
  distinct : t.Nodup
  tree : T.Tree r t

variable {T} {r : ℕ} {t a b : List UInt32}

theorem LeafTable.Tree.length : ∀ {r : ℕ} {t : List UInt32}, T.Tree r t → t.length = 2 ^ r
  | 0, _, h => h
  | _ + 1, _, h => h.1

theorem LeafTable.Subtree.length (h : T.Subtree r t) : t.length = 2 ^ r := h.tree.length

theorem LeafTable.Subtree.ne_nil (h : T.Subtree r t) : t ≠ [] := by
  intro ht
  have := h.length
  rw [ht, List.length_nil] at this
  exact absurd this (Nat.two_pow_pos r).ne

theorem subtree_iff : T.Subtree r t ↔ (∀ i ∈ t, i.toNat < T.count) ∧ t.Nodup ∧ T.Tree r t :=
  ⟨fun h => ⟨h.leaves, h.distinct, h.tree⟩, fun ⟨h₁, h₂, h₃⟩ => ⟨h₁, h₂, h₃⟩⟩

instance LeafTable.decTree (T : LeafTable) : ∀ r t, Decidable (T.Tree r t)
  | 0, t => inferInstanceAs (Decidable (t.length = 1))
  | r + 1, t =>
    have := LeafTable.decTree T r (t.take (2 ^ r))
    have := LeafTable.decTree T r (t.drop (2 ^ r))
    inferInstanceAs (Decidable (_ ∧ _ ∧ _ ∧ _ ∧ _))

instance (T : LeafTable) (r : ℕ) (t : List UInt32) : Decidable (T.Subtree r t) :=
  -- over the entries of `t`, not over all `2 ^ 32` indices
  have := List.decidableBAll (fun i : UInt32 => i.toNat < T.count) t
  decidable_of_iff' _ subtree_iff

/-- Level 0: single leaves. -/
theorem subtree_zero : T.Subtree 0 t ↔ ∃ i : UInt32, i.toNat < T.count ∧ t = [i] := by
  constructor
  · intro h
    obtain ⟨i, rfl⟩ := List.length_eq_one_iff.mp h.tree
    exact ⟨i, h.leaves i (by simp), rfl⟩
  · rintro ⟨i, hi, rfl⟩
    exact ⟨by simpa using hi, by simp, rfl⟩

/-- Level `r + 1`: two disjoint level-`r` subtrees in order that agree on the level's bytes. -/
theorem subtree_succ : T.Subtree (r + 1) t ↔ ∃ a b, t = a ++ b ∧ T.Subtree r a ∧ T.Subtree r b ∧
    a.Disjoint b ∧ a.headD 0 < b.headD 0 ∧ T.level r (T.xorOf a) = T.level r (T.xorOf b) := by
  constructor
  · intro h
    obtain ⟨hlen, ha, hb, hlt, hcol⟩ := h.tree
    have hsplit : t = t.take (2 ^ r) ++ t.drop (2 ^ r) := (List.take_append_drop _ _).symm
    have hnod := h.distinct
    rw [hsplit, List.nodup_append'] at hnod
    exact ⟨_, _, hsplit, ⟨fun i hi => h.leaves i (List.mem_of_mem_take hi), hnod.1, ha⟩,
      ⟨fun i hi => h.leaves i (List.mem_of_mem_drop hi), hnod.2.1, hb⟩, hnod.2.2, hlt, hcol⟩
  · rintro ⟨a, b, rfl, ha, hb, hdisj, hlt, hcol⟩
    have htake : (a ++ b).take (2 ^ r) = a := List.take_left' ha.length
    have hdrop : (a ++ b).drop (2 ^ r) = b := List.drop_left' ha.length
    refine ⟨fun i hi => ?_, List.nodup_append'.mpr ⟨ha.distinct, hb.distinct, hdisj⟩, ?_⟩
    · rcases List.mem_append.mp hi with hi | hi
      exacts [ha.leaves i hi, hb.leaves i hi]
    · refine ⟨by rw [List.length_append, ha.length, hb.length, pow_succ]; omega, ?_⟩
      rw [htake, hdrop]
      exact ⟨ha.tree, hb.tree, hlt, hcol⟩

/-- The XOR of a tuple of leaves is as long as a leaf. -/
theorem xorOf_length {t : List UInt32} (h : ∀ i ∈ t, i.toNat < T.count) :
    (T.xorOf t).length = (T.k + 1) * T.cbytes := by
  induction t with
  | nil => simp [LeafTable.xorOf, zeros]
  | cons i is ih =>
    rw [LeafTable.xorOf, xor_length, T.leaf_length i (h i List.mem_cons_self),
      ih fun j hj => h j (List.mem_cons_of_mem _ hj), min_self]

theorem xorOf_append {a b : List UInt32} (h : ∀ i ∈ b, i.toNat < T.count) :
    T.xorOf (a ++ b) = xor (T.xorOf a) (T.xorOf b) := by
  induction a with
  | nil =>
    have := xor_zeros (T.xorOf b)
    rw [xorOf_length h] at this
    exact this.symm
  | cons i is ih => rw [List.cons_append, LeafTable.xorOf, LeafTable.xorOf, ih, xor_assoc]

/-! ### Rows as subtrees -/

variable (T)

/-- The rows after `r` rounds: each level-`r` subtree once, with the XOR of its leaves less the first
    `r * cbytes` bytes, which are zero. -/
structure Level (r : ℕ) (rows : List Row) : Prop where
  once : (rows.map Row.indices).Nodup
  exact : ∀ t, t ∈ rows.map Row.indices ↔ T.Subtree r t
  hash : ∀ row ∈ rows, T.xorOf row.indices = zeros (r * T.cbytes) ++ row.hash

variable {T} {rows : List Row}

theorem Level.subtree (h : Level T r rows) {row : Row} (hr : row ∈ rows) :
    T.Subtree r row.indices := (h.exact _).mp (List.mem_map_of_mem hr)

/-- A row is determined by its indices. -/
theorem Level.row_inj (h : Level T r rows) {x y : Row} (hx : x ∈ rows) (hy : y ∈ rows)
    (he : x.indices = y.indices) : x = y := List.inj_on_of_nodup_map h.once hx hy he

/-- What is left of a hash after `r` rounds. -/
theorem Level.hash_length (h : Level T r rows) {row : Row} (hr : row ∈ rows) :
    row.hash.length = (T.k + 1 - r) * T.cbytes := by
  have hlen := xorOf_length (h.subtree hr).leaves
  rw [h.hash row hr, List.length_append, zeros, List.length_replicate] at hlen
  rw [Nat.sub_mul]
  omega

/-- Every subtree has its row. -/
theorem Level.mem_of_subtree (h : Level T r rows) (ht : T.Subtree r t) :
    ⟨(T.xorOf t).drop (r * T.cbytes), t⟩ ∈ rows := by
  obtain ⟨row, hrow, rfl⟩ := List.mem_map.mp ((h.exact t).mpr ht)
  rw [h.hash row hrow, List.drop_left' (zeros_length _)]
  exact hrow

theorem Level.perm (h : Level T r rows) {rows' : List Row} (hp : rows'.Perm rows) :
    Level T r rows' where
  once := (hp.map Row.indices).nodup_iff.mpr h.once
  exact := fun t => ((hp.map Row.indices).mem_iff).trans (h.exact t)
  hash := fun row hr => h.hash row (hp.mem_iff.mp hr)

/-- The level's bytes are the prefix the code compares. -/
theorem Level.level_eq (h : Level T r rows) {row : Row} (hr : row ∈ rows) :
    T.level r (T.xorOf row.indices) = row.hash.take T.cbytes := by
  rw [LeafTable.level, h.hash row hr, List.drop_left' (by simp [zeros])]

/-- The two loops of `distinct_indices` decide disjointness. -/
theorem distinctIndices_iff (a b : List UInt32) : distinctIndices a b = true ↔ a.Disjoint b := by
  simp only [distinctIndices, List.all_eq_true, bne_iff_ne, ne_eq, List.disjoint_left]
  exact ⟨fun h x hx hx' => h x hx x hx' rfl, fun h x hx y hy hxy => h hx (hxy ▸ hy)⟩

/-- First indices of disjoint tuples differ. -/
theorem head_ne_of_disjoint (ha : a ≠ []) (hb : b ≠ []) (hd : a.Disjoint b) :
    a.headD 0 ≠ b.headD 0 := by
  obtain ⟨x, xs, rfl⟩ := List.exists_cons_of_ne_nil ha
  obtain ⟨y, ys, rfl⟩ := List.exists_cons_of_ne_nil hb
  simp only [List.headD_cons]
  rintro rfl
  exact List.disjoint_left.mp hd List.mem_cons_self List.mem_cons_self

theorem concatCanonical_comm (h : a.headD 0 ≠ b.headD 0) :
    concatCanonical a b = concatCanonical b a := by
  simp only [concatCanonical]
  rcases lt_or_gt_of_ne (fun he => h (UInt32.toNat_inj.mp he) : (a.headD 0).toNat ≠ _) with hlt | hlt
  · have h₁ : a.headD 0 < b.headD 0 := hlt
    have h₂ : ¬ b.headD 0 < a.headD 0 := UInt32.not_lt.mpr (UInt32.le_of_lt h₁)
    rw [if_pos h₁, if_neg h₂]
  · have h₁ : b.headD 0 < a.headD 0 := hlt
    have h₂ : ¬ a.headD 0 < b.headD 0 := UInt32.not_lt.mpr (UInt32.le_of_lt h₁)
    rw [if_pos h₁, if_neg h₂]

/-- The pair of halves can be read back from the concatenation. -/
theorem concatCanonical_inj {c d : List UInt32} (hab : a.length = b.length)
    (hac : a.length = c.length) (had : a.length = d.length)
    (h : concatCanonical a b = concatCanonical c d) : (a = c ∧ b = d) ∨ (a = d ∧ b = c) := by
  simp only [concatCanonical] at h
  split_ifs at h
  · exact .inl (List.append_inj h hac)
  · exact .inr (List.append_inj h had)
  · exact .inr (List.append_inj h (by omega)).symm
  · exact .inl (List.append_inj h (by omega)).symm

/-! ### Listing the subtrees of a small level -/

variable (T) in
/-- The level-`r + 1` subtrees that the tuples of a list make. -/
def LeafTable.joins (r : ℕ) (ts : List (List UInt32)) : List (List UInt32) :=
  ts.flatMap fun a => (ts.filter fun b => distinctIndices a b && decide (a.headD 0 < b.headD 0) &&
    decide (T.level r (T.xorOf a) = T.level r (T.xorOf b))).map (a ++ ·)

/-- From a list of one level's subtrees to a list of the next level's. -/
theorem subtree_joins {ts : List (List UInt32)} (h : ∀ t, T.Subtree r t ↔ t ∈ ts)
    (t : List UInt32) : T.Subtree (r + 1) t ↔ t ∈ T.joins r ts := by
  simp only [subtree_succ, LeafTable.joins, h, List.mem_flatMap, List.mem_map, List.mem_filter,
    Bool.and_eq_true, distinctIndices_iff, decide_eq_true_eq]
  constructor
  · rintro ⟨a, b, rfl, ha, hb, hd, hlt, hlev⟩
    exact ⟨a, ha, b, ⟨hb, ⟨hd, hlt⟩, hlev⟩, rfl⟩
  · rintro ⟨a, ha, b, ⟨hb, ⟨hd, hlt⟩, hlev⟩, rfl⟩
    exact ⟨a, b, rfl, ha, hb, hd, hlt, hlev⟩

end Equium.Solver
