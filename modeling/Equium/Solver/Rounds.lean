import Equium.Solver.Subtree

/-! @src crates/equihash-core/src/solver.rs | name:round | scheme:sort-and-scan

    One `round` takes the level-`r` subtrees to the level-`r + 1` subtrees. Sorting by the whole hash
    sorts by its first `cbytes` bytes, so the scan sees each class of colliding rows as one stretch,
    and the inner loops see every unordered pair of the class once. -/

namespace Equium.Solver
open Schemes Equium.Core

variable {T : LeafTable} {r : ℕ} {rows : List Row}

/-! ### The scan as a pairing -/

theorem firstCbitsEq_bytes (a b : List UInt8) (m : ℕ) :
    firstCbitsEq a b (8 * m) = decide (a.take m = b.take m) := by
  unfold firstCbitsEq
  simp only [Nat.mul_div_cancel_left m (show 0 < 8 by omega), Nat.mul_mod_right, if_true]
  by_cases h : a.take m = b.take m <;> simp [h]

@[simp] theorem divCeil8_bytes (m : ℕ) : divCeil8 (8 * m) = m := by
  unfold divCeil8
  omega

/-- A prefix is sorted when the whole is. -/
theorem take_le_take : ∀ (m : ℕ) {a b : List UInt8}, a ≤ b → a.take m ≤ b.take m
  | 0, _, _, _ => by simp
  | _ + 1, [], _, _ => by simp
  | _ + 1, _ :: _, [], h => by simp at h
  | m + 1, x :: xs, y :: ys, h => by
    rw [List.take_succ_cons, List.take_succ_cons, List.cons_le_cons_iff]
    exact (List.cons_le_cons_iff.mp h).imp id fun ⟨hxy, hle⟩ => ⟨hxy, take_le_take m hle⟩

/-- The rows in the order of the sort. -/
def sortRows (rows : List Row) : List Row := rows.mergeSort fun a b => decide (a.hash ≤ b.hash)

theorem sortRows_perm (rows : List Row) : (sortRows rows).Perm rows := List.mergeSort_perm _ _

theorem mem_sortRows {rows : List Row} {row : Row} : row ∈ sortRows rows ↔ row ∈ rows :=
  (sortRows_perm rows).mem_iff

theorem sortRows_sorted (rows : List Row) :
    (sortRows rows).Pairwise fun a b => a.hash ≤ b.hash := by
  have h := @List.pairwise_mergeSort Row (fun a b => decide (a.hash ≤ b.hash))
    (fun a b c hab hbc => decide_eq_true
      (List.le_trans (of_decide_eq_true hab) (of_decide_eq_true hbc)))
    (fun a b => by simpa using List.le_total a.hash b.hash) rows
  exact h.imp fun h => of_decide_eq_true h

/-- What one pair of rows contributes: nothing unless their prefixes agree. -/
def collide (cbytes : ℕ) (a b : Row) : Option Row :=
  if a.hash.take cbytes = b.hash.take cbytes then pairRow cbytes a b else none

/-- A round is a pairing of the sorted rows. -/
theorem round_eq (rows : List Row) (m : ℕ) :
    round rows (8 * m) = pairUp (collide m) (sortRows rows) := by
  have hsame : (fun a b : Row => firstCbitsEq a.hash b.hash (8 * m)) =
      sameKey fun row : Row => row.hash.take m := by
    funext a b
    exact firstCbitsEq_bytes a.hash b.hash m
  have hscan := runs_flatMap_pairs (fun row : Row => row.hash.take m) (· ≤ ·) List.le_antisymm
    (sortRows rows) ((sortRows_sorted rows).imp fun h => take_le_take m h)
  have hpair : ∀ xs : List (List Row), xs.flatMap (pairUp (pairRow m)) =
      (xs.flatMap pairs).filterMap fun p => pairRow m p.1 p.2 := by
    intro xs
    rw [List.filterMap_flatMap]
    rfl
  unfold round
  simp only [divCeil8_bytes]
  rw [hsame, hpair]
  change ((runs _ (sortRows rows)).flatMap pairs).filterMap _ = _
  rw [hscan, pairUp, List.filterMap_filter]
  refine List.filterMap_congr fun p _ => ?_
  by_cases h : p.1.hash.take m = p.2.hash.take m <;> simp [sameKey, collide, h]

/-! ### What a pair of subtrees makes -/

/-- Two rows of a level make a row exactly when their prefixes agree and no index is shared. -/
theorem collide_eq_some {m : ℕ} {a b z : Row} (hlen : m < min a.hash.length b.hash.length) :
    collide m a b = some z ↔ a.hash.take m = b.hash.take m ∧ a.indices.Disjoint b.indices ∧
      z = ⟨(xor a.hash b.hash).drop m, concatCanonical a.indices b.indices⟩ := by
  have hnot : ¬ (xor a.hash b.hash).length ≤ m := by rw [xor_length]; omega
  simp only [collide, pairRow, hnot, if_false, Option.ite_none_right_eq_some, Bool.not_eq_true',
    Option.ite_none_left_eq_some, Bool.not_eq_false, distinctIndices_iff, Option.some.injEq,
    eq_comm (b := z)]

theorem Level.long_enough (h : Level T r rows) (hk : r < T.k) {a b : Row} (ha : a ∈ rows)
    (hb : b ∈ rows) : T.cbytes < min a.hash.length b.hash.length := by
  have hlt : 1 * T.cbytes < (T.k + 1 - r) * T.cbytes :=
    Nat.mul_lt_mul_of_pos_right (by omega) T.cbytes_pos
  rw [h.hash_length ha, h.hash_length hb, min_self]
  omega

/-- The order of the two rows does not matter. -/
theorem Level.collide_comm (h : Level T r rows) (hk : r < T.k) {a b : Row} (ha : a ∈ rows)
    (hb : b ∈ rows) : collide T.cbytes a b = collide T.cbytes b a := by
  ext z
  rw [collide_eq_some (h.long_enough hk ha hb), collide_eq_some (h.long_enough hk hb ha),
    eq_comm (a := a.hash.take _), List.disjoint_comm, xor_comm]
  refine and_congr_right fun _ => and_congr_right fun hd => ?_
  rw [concatCanonical_comm (head_ne_of_disjoint (h.subtree ha).ne_nil (h.subtree hb).ne_nil
    (List.disjoint_comm.mp hd))]

/-- Two level-`r` subtrees with disjoint leaves, joined in order. -/
theorem subtree_concat {a b : List UInt32} (ha : T.Subtree r a) (hb : T.Subtree r b)
    (hd : a.Disjoint b) (hl : T.level r (T.xorOf a) = T.level r (T.xorOf b)) :
    T.Subtree (r + 1) (concatCanonical a b) := by
  have hne := head_ne_of_disjoint ha.ne_nil hb.ne_nil hd
  rw [subtree_succ, concatCanonical]
  split_ifs with hlt
  · exact ⟨a, b, rfl, ha, hb, hd, hlt, hl⟩
  · have hlt' : b.headD 0 < a.headD 0 :=
      UInt32.lt_of_le_of_ne (UInt32.not_lt.mp hlt) (Ne.symm hne)
    exact ⟨b, a, rfl, hb, ha, List.disjoint_comm.mp hd, hlt', hl.symm⟩

theorem xorOf_concat {a b : List UInt32} (ha : T.Subtree r a) (hb : T.Subtree r b) :
    T.xorOf (concatCanonical a b) = xor (T.xorOf a) (T.xorOf b) := by
  rw [concatCanonical]
  split_ifs
  · exact xorOf_append hb.leaves
  · rw [xorOf_append ha.leaves, xor_comm]

/-- The trimmed XOR of two colliding rows is what is left of the XOR of all their leaves. -/
theorem Level.hash_concat (h : Level T r rows) {a b : Row} (ha : a ∈ rows) (hb : b ∈ rows)
    (hp : a.hash.take T.cbytes = b.hash.take T.cbytes)
    (hlen : T.cbytes < min a.hash.length b.hash.length) :
    T.xorOf (concatCanonical a.indices b.indices) =
      zeros ((r + 1) * T.cbytes) ++ (xor a.hash b.hash).drop T.cbytes := by
  have hta : a.hash = a.hash.take T.cbytes ++ a.hash.drop T.cbytes :=
    (List.take_append_drop _ _).symm
  have htb : b.hash = a.hash.take T.cbytes ++ b.hash.drop T.cbytes := by
    rw [hp]; exact (List.take_append_drop _ _).symm
  have hlen' : (a.hash.take T.cbytes).length = T.cbytes := by
    rw [List.length_take]; omega
  have hxor : xor a.hash b.hash =
      zeros T.cbytes ++ xor (a.hash.drop T.cbytes) (b.hash.drop T.cbytes) :=
    calc xor a.hash b.hash
        = xor (a.hash.take T.cbytes ++ a.hash.drop T.cbytes)
            (a.hash.take T.cbytes ++ b.hash.drop T.cbytes) := by rw [← hta, ← htb]
      _ = _ := by rw [xor_append rfl, xor_self, hlen']
  rw [xorOf_concat (h.subtree ha) (h.subtree hb), h.hash a ha, h.hash b hb, xor_append rfl, xor_self,
    hxor, List.drop_left' (zeros_length _), Nat.succ_mul, zeros_add, zeros_length, List.append_assoc]

/-- The tuples a round makes are the level-`r + 1` subtrees. -/
theorem Level.round_exact (h : Level T r rows) (hk : r < T.k) (t : List UInt32) :
    t ∈ (round rows (8 * T.cbytes)).map Row.indices ↔ T.Subtree (r + 1) t := by
  have hs := h.perm (sortRows_perm rows)
  have hmem : ∀ z, z ∈ round rows (8 * T.cbytes) ↔ ∃ a ∈ sortRows rows, ∃ b ∈ sortRows rows,
      a ≠ b ∧ collide T.cbytes a b = some z := fun z => by
    rw [round_eq]
    exact mem_pairUp hs.once.of_map fun a ha b hb => hs.collide_comm hk ha hb
  rw [List.mem_map]
  constructor
  · rintro ⟨z, hz, rfl⟩
    obtain ⟨a, ha, b, hb, -, hf⟩ := (hmem z).mp hz
    obtain ⟨hp, hd, rfl⟩ := (collide_eq_some (hs.long_enough hk ha hb)).mp hf
    refine subtree_concat (hs.subtree ha) (hs.subtree hb) hd ?_
    rw [hs.level_eq ha, hs.level_eq hb, hp]
  · intro ht
    obtain ⟨a, b, rfl, ha, hb, hd, hlt, hl⟩ := subtree_succ.mp ht
    obtain ⟨x, hx, rfl⟩ := List.mem_map.mp ((hs.exact a).mpr ha)
    obtain ⟨y, hy, rfl⟩ := List.mem_map.mp ((hs.exact b).mpr hb)
    rw [hs.level_eq hx, hs.level_eq hy] at hl
    have hxy : x ≠ y := by rintro rfl; exact absurd hlt (UInt32.lt_irrefl _)
    refine ⟨_, (hmem _).mpr ⟨x, hx, y, hy, hxy,
      (collide_eq_some (hs.long_enough hk hx hy)).mpr ⟨hl, hd, rfl⟩⟩, ?_⟩
    simp only [concatCanonical, if_pos hlt]

/-- ONE ROUND: the rows of level `r` become the rows of level `r + 1`. -/
theorem Level.round (h : Level T r rows) (hk : r < T.k) :
    Level T (r + 1) (round rows (8 * T.cbytes)) := by
  have hs := h.perm (sortRows_perm rows)
  refine ⟨?_, h.round_exact hk, fun z hz => ?_⟩
  · -- the two rows of a pair can be read back from the indices it makes
    have hmap : (Solver.round rows (8 * T.cbytes)).map Row.indices =
        pairUp (fun a b => (collide T.cbytes a b).map Row.indices) (sortRows rows) := by
      rw [round_eq, pairUp, pairUp, List.map_filterMap]
    rw [hmap]
    refine pairUp_nodup hs.once.of_map fun a ha b hb c hc d hd z hf hg => ?_
    obtain ⟨y, hy, rfl⟩ := Option.map_eq_some_iff.mp hf
    obtain ⟨w, hw, he⟩ := Option.map_eq_some_iff.mp hg
    obtain ⟨-, -, rfl⟩ := (collide_eq_some (hs.long_enough hk ha hb)).mp hy
    obtain ⟨-, -, rfl⟩ := (collide_eq_some (hs.long_enough hk hc hd)).mp hw
    have hlen : ∀ {x : Row}, x ∈ sortRows rows → x.indices.length = 2 ^ r :=
      fun hx => (hs.subtree hx).length
    rcases concatCanonical_inj ((hlen ha).trans (hlen hb).symm) ((hlen ha).trans (hlen hc).symm)
      ((hlen ha).trans (hlen hd).symm) he.symm with ⟨h₁, h₂⟩ | ⟨h₁, h₂⟩
    · exact .inl ⟨hs.row_inj ha hc h₁, hs.row_inj hb hd h₂⟩
    · exact .inr ⟨hs.row_inj ha hd h₁, hs.row_inj hb hc h₂⟩
  · rw [round_eq] at hz
    obtain ⟨a, ha, b, hb, -, hf⟩ := (mem_pairUp hs.once.of_map
      fun a ha b hb => hs.collide_comm hk ha hb).mp hz
    have hlen := hs.long_enough hk ha hb
    obtain ⟨hp, -, rfl⟩ := (collide_eq_some hlen).mp hf
    exact hs.hash_concat ha hb hp hlen

/-! ### From the leaves -/

/-- The rows a search starts from are the level-0 subtrees. -/
theorem Level.leaves (T : LeafTable) : Level T 0 (leafRows T.count T.leaf) := by
  have hmap : (leafRows T.count T.leaf).map Row.indices =
      (List.range T.count).map fun i => [UInt32.ofNat i] := by
    rw [leafRows, List.map_map]
    rfl
  have hnat : ∀ i < T.count, (UInt32.ofNat i).toNat = i := fun i hi =>
    UInt32.toNat_ofNat_of_lt' (lt_of_lt_of_le hi T.count_le)
  refine ⟨?_, fun t => ?_, fun row hr => ?_⟩
  · rw [hmap]
    refine (List.nodup_map_iff_inj_on List.nodup_range).mpr fun i hi j hj he => ?_
    rw [← hnat i (List.mem_range.mp hi), ← hnat j (List.mem_range.mp hj), List.singleton_inj.mp he]
  · rw [hmap, subtree_zero, List.mem_map]
    constructor
    · rintro ⟨i, hi, rfl⟩
      exact ⟨_, by rw [hnat i (List.mem_range.mp hi)]; exact List.mem_range.mp hi, rfl⟩
    · rintro ⟨i, hi, rfl⟩
      exact ⟨i.toNat, List.mem_range.mpr hi, by rw [UInt32.ofNat_toNat]⟩
  · obtain ⟨i, hi, rfl⟩ := List.mem_map.mp hr
    have hlen := T.leaf_length (UInt32.ofNat i) (by rw [hnat i (List.mem_range.mp hi)]
                                                    exact List.mem_range.mp hi)
    have hz := xor_zeros (T.leaf (UInt32.ofNat i))
    rw [hlen] at hz
    rw [Nat.zero_mul]
    exact (xor_comm _ _).trans hz

/-- `r` rounds without the early exit. -/
def iterRound (cbits : ℕ) : ℕ → List Row → List Row
  | 0, rows => rows
  | r + 1, rows => iterRound cbits r (round rows cbits)

theorem Level.iterRound (m : ℕ) {r : ℕ} {rows : List Row} (h : Level T r rows) (hk : r + m ≤ T.k) :
    Level T (r + m) (iterRound (8 * T.cbytes) m rows) := by
  induction m generalizing r rows with
  | zero => exact h
  | succ m ih =>
    have := ih (h.round (by omega)) (by omega)
    rwa [show r + 1 + m = r + (m + 1) by omega] at this

/-- RUN LEMMA: after `r ≤ k` rounds from the leaves the rows are the level-`r` subtrees. -/
theorem level_rounds (T : LeafTable) (hr : r ≤ T.k) :
    Level T r (iterRound (8 * T.cbytes) r (leafRows T.count T.leaf)) := by
  simpa using Level.iterRound r (Level.leaves T) (by omega)

@[simp] theorem round_nil (cbits : ℕ) : round [] cbits = [] := by
  simp [Solver.round, runs]

theorem iterRound_nil (cbits r : ℕ) : iterRound cbits r [] = [] := by
  induction r with
  | zero => rfl
  | succ r ih => rw [Solver.iterRound, round_nil, ih]

/-- The early exit only skips rounds that would leave no row either. -/
theorem rounds_bind {β : Type*} {f : List Row → Option β} (hf : f [] = none) (cbits r : ℕ)
    (rows : List Row) : (rounds cbits r rows).bind f = f (iterRound cbits r rows) := by
  induction r generalizing rows with
  | zero => rfl
  | succ r ih =>
    rw [rounds, Solver.iterRound]
    rcases eq_or_ne (Solver.round rows cbits) [] with hn | hn
    · simp [hn, iterRound_nil, hf]
    · simpa [hn] using ih (Solver.round rows cbits)

end Equium.Solver
