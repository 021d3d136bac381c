import Equium.Solver.Checked
import Mathlib.Data.Finset.Card
import Mathlib.Data.List.Perm.Subperm

/-! @src crates/equihash-core/src/solver.rs | name:Panics of the solver | scheme:induction on rounds

    The guard of the solver lets parameters through on which it panics. A round compares the first
    `cbits` bits and drops whole bytes, so the hashes can run out before the rounds do. Rows are index
    tuples without repetitions, so after `cbits + 1` rounds no pair is left: `min k (cbits + 2)` rounds
    see rows, and each needs `cbytes` bytes. On a buffer of zeros all those rounds do see rows
    (`tryNonceWithLeaves_zeros`), so the condition is exact (`total_iff`). -/

namespace Equium.Solver
open Schemes Equium.Core

variable {n k : UInt32} {cbits width r : ℕ} {rows : List Row}

/-! ### The rows of a round -/

/-- The rows after `r` rounds on leaves of `width` bytes. -/
structure Shape (cbits width r : ℕ) (rows : List Row) : Prop where
  hash : ∀ row ∈ rows, row.hash.length = width - r * divCeil8 cbits
  count : ∀ row ∈ rows, row.indices.length = 2 ^ r
  distinct : ∀ row ∈ rows, row.indices.Nodup
  leaves : ∀ row ∈ rows, ∀ i ∈ row.indices, i.toNat < 2 ^ (cbits + 1)

/-- A list without repetitions of numbers below `N` is no longer than `N`. -/
theorem length_le_of_nodup {t : List UInt32} (hn : t.Nodup) {N : ℕ} (h : ∀ i ∈ t, i.toNat < N) :
    t.length ≤ N := by
  have hmap : (t.map UInt32.toNat).Nodup :=
    hn.map fun _ _ he => UInt32.toNat_inj.mp he
  have hsub : t.map UInt32.toNat ⊆ List.range N := fun x hx => by
    obtain ⟨i, hi, rfl⟩ := List.mem_map.mp hx
    exact List.mem_range.mpr (h i hi)
  simpa using (hmap.subperm hsub).length_le

/-- There are no rows past round `cbits + 1`. -/
theorem Shape.level_le (h : Shape cbits width r rows) (hne : rows ≠ []) : r ≤ cbits + 1 := by
  obtain ⟨row, rest, rfl⟩ := List.exists_cons_of_ne_nil hne
  have hlen := length_le_of_nodup (h.distinct row List.mem_cons_self)
    (h.leaves row List.mem_cons_self)
  rw [h.count row List.mem_cons_self] at hlen
  exact (Nat.pow_le_pow_iff_right (by omega)).mp hlen

theorem Shape.indices_ne (h : Shape cbits width r rows) {row : Row} (hr : row ∈ rows) :
    row.indices ≠ [] := by
  intro he
  have hc := h.count row hr
  rw [he, List.length_nil] at hc
  exact absurd hc (Nat.two_pow_pos r).ne

/-- A row of a round is made of two rows. -/
theorem exists_of_mem_round {z : Row} (hz : z ∈ round rows cbits) :
    ∃ a ∈ rows, ∃ b ∈ rows, pairRow (divCeil8 cbits) a b = some z := by
  rw [round, List.mem_flatMap] at hz
  obtain ⟨stretch, hs, hz⟩ := hz
  obtain ⟨p, hp, hf⟩ := List.mem_filterMap.mp hz
  obtain ⟨ha, hb⟩ := mem_of_mem_pairs (Prod.eta p ▸ hp)
  exact ⟨p.1, mem_sortRows.mp (Checked.mem_of_mem_runs hs ha), p.2,
    mem_sortRows.mp (Checked.mem_of_mem_runs hs hb), hf⟩

theorem mem_concatCanonical {a b : List UInt32} {i : UInt32} :
    i ∈ concatCanonical a b ↔ i ∈ a ∨ i ∈ b := by
  unfold concatCanonical
  split_ifs
  · exact List.mem_append
  · rw [List.mem_append, or_comm]

theorem Shape.round (h : Shape cbits width r rows) :
    Shape cbits width (r + 1) (Solver.round rows cbits) := by
  have hmade : ∀ z ∈ Solver.round rows cbits, ∃ a ∈ rows, ∃ b ∈ rows,
      a.indices.Disjoint b.indices ∧ z.indices = concatCanonical a.indices b.indices ∧
      z.hash.length = (xor a.hash b.hash).length - divCeil8 cbits := by
    intro z hz
    obtain ⟨a, ha, b, hb, hf⟩ := exists_of_mem_round hz
    unfold pairRow at hf
    split_ifs at hf with hd
    simp only [Bool.not_eq_true', Bool.not_eq_false] at hd
    obtain rfl := Option.some.inj hf
    refine ⟨a, ha, b, hb, (distinctIndices_iff _ _).mp hd, rfl, ?_⟩
    dsimp only
    split_ifs with hle
    · rw [List.length_nil, Nat.sub_eq_zero_of_le hle]
    · rw [List.length_drop]
  refine ⟨fun z hz => ?_, fun z hz => ?_, fun z hz => ?_, fun z hz i hi => ?_⟩
  all_goals obtain ⟨a, ha, b, hb, hd, hidx, hlen⟩ := hmade z hz
  · rw [hlen, xor_length, h.hash a ha, h.hash b hb, min_self, Nat.succ_mul]
    omega
  · have hcount : (concatCanonical a.indices b.indices).length =
        a.indices.length + b.indices.length := by
      unfold concatCanonical
      split_ifs
      · rw [List.length_append]
      · rw [List.length_append, Nat.add_comm]
    rw [hidx, hcount, h.count a ha, h.count b hb, pow_succ]
    omega
  · rw [hidx, concatCanonical]
    split_ifs
    · exact List.nodup_append'.mpr ⟨h.distinct a ha, h.distinct b hb, hd⟩
    · exact List.nodup_append'.mpr ⟨h.distinct b hb, h.distinct a ha, List.disjoint_comm.mp hd⟩
  · rw [hidx, mem_concatCanonical] at hi
    exact hi.elim (h.leaves a ha i) (h.leaves b hb i)

/-- The rows of the leaves. -/
theorem Shape.leafRows {leaf : UInt32 → List UInt8} (hbits : cbits + 1 < 32)
    (hlen : ∀ i < 2 ^ (cbits + 1), (leaf (UInt32.ofNat i)).length = width) :
    Shape cbits width 0 (Solver.leafRows (2 ^ (cbits + 1)) leaf) := by
  have hmem : ∀ row ∈ Solver.leafRows (2 ^ (cbits + 1)) leaf, ∃ i < 2 ^ (cbits + 1),
      row = ⟨leaf (UInt32.ofNat i), [UInt32.ofNat i]⟩ := fun row hr => by
    obtain ⟨i, hi, rfl⟩ := List.mem_map.mp hr
    exact ⟨i, List.mem_range.mp hi, rfl⟩
  have hpow : 2 ^ (cbits + 1) < 2 ^ 32 := Nat.pow_lt_pow_right (by omega) hbits
  refine ⟨fun row hr => ?_, fun row hr => ?_, fun row hr => ?_, fun row hr j hj => ?_⟩
  all_goals obtain ⟨i, hi, rfl⟩ := hmem row hr
  · rw [hlen i hi, Nat.zero_mul, Nat.sub_zero]
  · rfl
  · exact List.nodup_singleton _
  · obtain rfl := List.mem_singleton.mp hj
    rwa [UInt32.toNat_ofNat_of_lt' (hi.trans hpow)]

/-! ### Parameters on which nothing panics -/

/-- The hashes outlast the rounds that see rows, and no shift reaches the word width. -/
structure Fits (n k : UInt32) : Prop where
  bits : cbitsOf n k + 1 < 32
  bytes : min k.toNat (cbitsOf n k + 2) * divCeil8 (cbitsOf n k) ≤ leafBytes n

theorem acceptsParams_k (h : acceptsParams n k = true) : k.toNat + 1 < 2 ^ 32 := by
  have := n.toNat_lt
  obtain ⟨-, -, -, -, hk⟩ := acceptsParams_iff.mp h
  omega

/-- A round that sees rows has the bytes it compares. -/
theorem Shape.round_eq (h : Shape cbits width r rows)
    (hbytes : rows ≠ [] → (r + 1) * divCeil8 cbits ≤ width) :
    Checked.round rows cbits = some (Solver.round rows cbits) := by
  refine Checked.round_eq (fun row hr => ?_) fun row hr => h.indices_ne hr
  have := hbytes (List.ne_nil_of_mem hr)
  rw [Nat.succ_mul] at this
  rw [h.hash row hr]
  omega

/-- RUN LEMMA: the remaining `s` rounds panic nowhere, and leave rows or stop early. -/
theorem Shape.rounds (s : ℕ) {r : ℕ} {rows : List Row} (h : Shape cbits width r rows)
    (hne : rows ≠ []) (hbytes : min (r + s) (cbits + 2) * divCeil8 cbits ≤ width) :
    Checked.rounds cbits s rows = some (Solver.rounds cbits s rows) ∧
      ∀ rows', Solver.rounds cbits s rows = some rows' →
        rows' ≠ [] ∧ Shape cbits width (r + s) rows' := by
  induction s generalizing r rows with
  | zero => exact ⟨rfl, fun rows' h' => Option.some.inj h' ▸ ⟨hne, h⟩⟩
  | succ s ih =>
    have hr := h.level_le hne
    have hround := h.round_eq fun _ =>
      (Nat.mul_le_mul_right _ (by omega : r + 1 ≤ min (r + (s + 1)) (cbits + 2))).trans hbytes
    rw [Checked.rounds, bind_of_some hround, Solver.rounds]
    by_cases hn : Solver.round rows cbits = []
    · simp [hn]
    · have hrest := ih h.round hn (by rwa [show r + 1 + s = r + (s + 1) by omega])
      rw [show r + 1 + s = r + (s + 1) by omega] at hrest
      simpa [hn] using hrest

/-- Both searches from their rows on. -/
theorem Shape.search_eq (c : Crates) (hacc : acceptsParams n k = true) (f : Fits n k)
    (input : Vector UInt8 iLen) (nonce : Bytes32)
    (h : Shape (cbitsOf n k) (leafBytes n) 0 rows) (hne : rows ≠ []) :
    Checked.search c n k input nonce (cbitsOf n k) rows =
      some ((Solver.rounds (cbitsOf n k) k.toNat rows).bind (firstValid c n k input nonce)) := by
  obtain ⟨heq, hlast⟩ := Shape.rounds k.toNat h hne (by simpa using f.bytes)
  rw [Checked.search, bind_of_some heq]
  cases hr : Solver.rounds (cbitsOf n k) k.toNat rows with
  | none => rfl
  | some rows' =>
    obtain ⟨hne', hshape⟩ := hlast rows' hr
    have hk := hshape.level_le hne'
    have hbits := f.bits
    have hshl : Checked.shl64 k.toNat = some (2 ^ k.toNat) := if_pos (by omega)
    dsimp only
    rw [bind_of_some hshl, Checked.firstValid_eq c (acceptsParams_k hacc) (by omega)]
    rfl

theorem leafRows_ne (cbits : ℕ) (leaf : UInt32 → List UInt8) :
    leafRows (2 ^ (cbits + 1)) leaf ≠ [] := by
  have := Nat.two_pow_pos (cbits + 1)
  simp [leafRows]

theorem checked_acceptsParams (hacc : acceptsParams n k = true) :
    Checked.acceptsParams n k = some true := by
  obtain ⟨hn, hk, h8, -, -⟩ := acceptsParams_iff.mp hacc
  rw [Checked.acceptsParams, if_neg (by omega), if_pos (acceptsParams_k hacc), hacc]

/-- A leaf of a buffer that is long enough. -/
theorem tableLeaf_length {leaves : List UInt8} (hbits : cbitsOf n k + 1 < 32)
    (hlen : nInitLeaves n k * leafBytes n ≤ leaves.length) (i : ℕ) (hi : i < nInitLeaves n k) :
    (tableLeaf leaves (leafBytes n) (UInt32.ofNat i)).length = leafBytes n := by
  have hpow : 2 ^ (cbitsOf n k + 1) < 2 ^ 32 := Nat.pow_lt_pow_right (by omega) hbits
  have hslice := (Nat.mul_le_mul_right (leafBytes n) hi).trans hlen
  rw [Nat.succ_mul] at hslice
  rw [tableLeaf, UInt32.toNat_ofNat_of_lt' (hi.trans hpow), List.length_take, List.length_drop]
  omega

/-- Up to the rounds, a leaf buffer that is long enough is sliced without a panic. -/
theorem checked_leaves (c : Crates) (hacc : acceptsParams n k = true) (hbits : cbitsOf n k + 1 < 32)
    (input : Vector UInt8 iLen) (nonce : Bytes32) {leaves : List UInt8}
    (hlen : nInitLeaves n k * leafBytes n ≤ leaves.length) :
    Checked.tryNonceWithLeaves c n k input nonce leaves =
      Checked.search c n k input nonce (cbitsOf n k)
        (leafRows (nInitLeaves n k) (tableLeaf leaves (leafBytes n))) := by
  have hshl : Checked.shl32 (cbitsOf n k + 1) = some (nInitLeaves n k) := if_pos hbits
  have hpow : 2 ^ (cbitsOf n k + 1) < 2 ^ 32 := Nat.pow_lt_pow_right (by omega) hbits
  have hrow : ∀ i ∈ List.range (nInitLeaves n k), (do
      let hash ← Checked.slice leaves (i * leafBytes n) ((i + 1) * leafBytes n)
      pure (⟨hash, [UInt32.ofNat i]⟩ : Row)) =
        some ⟨tableLeaf leaves (leafBytes n) (UInt32.ofNat i), [UInt32.ofNat i]⟩ := fun i hi => by
    have hi := List.mem_range.mp hi
    rw [bind_of_some (Checked.slice_of_le (Nat.mul_le_mul_right _ (by omega))
        ((Nat.mul_le_mul_right _ hi).trans hlen)),
      tableLeaf, UInt32.toNat_ofNat_of_lt' (hi.trans hpow), Nat.succ_mul, Nat.add_sub_cancel_left]
    rfl
  rw [Checked.tryNonceWithLeaves, bind_of_some (checked_acceptsParams hacc), if_pos rfl,
    bind_of_some (Checked.cbitsOf_eq (acceptsParams_k hacc)), bind_of_some hshl]
  dsimp only
  rw [if_neg (Nat.not_lt.mpr hlen), bind_of_some (Checked.mapM_of_some hrow)]
  rfl

/-- The search over a leaf buffer. -/
theorem checked_tryNonceWithLeaves (c : Crates) (hacc : acceptsParams n k = true) (f : Fits n k)
    (input : Vector UInt8 iLen) (nonce : Bytes32) {leaves : List UInt8}
    (hlen : nInitLeaves n k * leafBytes n ≤ leaves.length) :
    Checked.tryNonceWithLeaves c n k input nonce leaves =
      some (tryNonceWithLeaves c n k input nonce leaves) := by
  have hshape := Shape.leafRows f.bits (tableLeaf_length f.bits hlen)
  rw [checked_leaves c hacc f.bits input nonce hlen, tryNonceWithLeaves, hacc, if_neg (by simp),
    if_neg (Nat.not_lt.mpr hlen)]
  exact hshape.search_eq c hacc f input nonce (leafRows_ne _ _)

/-- The base state of accepted parameters with a digest. -/
theorem checked_baseState_new (hacc : acceptsParams n k = true) (hle : n.toNat ≤ 512)
    (input : Vector UInt8 iLen) : Checked.BaseState.new n k input =
      some (.ok ⟨(initState n k (hashOutputLen n)).update input.toList, n, k⟩) := by
  have hslice := slice_le_hashOutputLen hacc hle 0
  have hout := hashOutputLen_le n
  obtain ⟨hn, -, h8, -, -⟩ := acceptsParams_iff.mp hacc
  have hlen : Checked.hashOutputLen n = some (hashOutputLen n) := if_neg hn
  have hinit : Checked.initState n k (hashOutputLen n % 256) =
      some (initState n k (hashOutputLen n)) := by
    rw [Nat.mod_eq_of_lt (by omega)]
    exact if_pos ⟨by omega, hout⟩
  rw [Checked.BaseState.new, bind_of_some (checked_acceptsParams hacc), if_pos rfl,
    bind_of_some hlen, bind_of_some hinit]
  rfl

/-- The search of one nonce. -/
theorem checked_tryNonce {c : Crates} (hc : DigestLength c) (hacc : acceptsParams n k = true)
    (hle : n.toNat ≤ 512) (f : Fits n k) {input : Vector UInt8 iLen} {base : BaseState}
    (hbase : base = ⟨(initState n k (hashOutputLen n)).update input.toList, n, k⟩)
    (nonce : Bytes32) :
    Checked.tryNonce c base input nonce = some (tryNonce c base input nonce) := by
  have hn : base.n = n := by rw [hbase]
  have hk : base.k = k := by rw [hbase]
  have hshl : Checked.shl32 (cbitsOf n k + 1) = some (nInitLeaves n k) := if_pos f.bits
  have hn0 : n.toNat ≠ 0 := (acceptsParams_iff.mp hacc).1
  have hper : 512 / n.toNat ≠ 0 := (Nat.div_pos hle (by omega)).ne'
  have hslice : ∀ i : UInt32, i.toNat % (512 / n.toNat) * (n.toNat / 8) + n.toNat / 8 ≤
      (((base.state.update nonce.toList).update
        (leBytes 4 (i.toNat / (512 / n.toNat)))).finalize c).length := fun i => by
    rw [hbase, Blake2bState.finalize]
    simp only [Blake2bState.update, initState, hc _ _ _ (hashOutputLen_le n)]
    exact slice_le_hashOutputLen hacc hle _
  have hleaf : ∀ i : UInt32, Checked.generateLeafHash c (base.state.update nonce.toList) n i =
      some (nonceLeaf c base nonce i) := fun i => by
    rw [Checked.generateLeafHash, if_neg hn0]
    dsimp only
    rw [if_neg hper, Checked.slice_of_le (Nat.le_add_right _ _) (hslice i), Nat.add_sub_cancel_left,
      nonceLeaf, hn]
    rfl
  have hrow : ∀ i ∈ List.range (nInitLeaves n k), (do
      let hash ← Checked.generateLeafHash c (base.state.update nonce.toList) n (UInt32.ofNat i)
      pure (⟨hash, [UInt32.ofNat i]⟩ : Row)) =
        some ⟨nonceLeaf c base nonce (UInt32.ofNat i), [UInt32.ofNat i]⟩ := fun i _ => by
    rw [bind_of_some (hleaf _)]
    rfl
  have hwidth : ∀ i < 2 ^ (cbitsOf n k + 1),
      (nonceLeaf c base nonce (UInt32.ofNat i)).length = leafBytes n := fun i _ => by
    have := hslice (UInt32.ofNat i)
    rw [nonceLeaf, generateLeafHash, hn, List.length_take, List.length_drop, leafBytes]
    omega
  have hshape := Shape.leafRows f.bits hwidth
  rw [Checked.tryNonce, tryNonce, hn, hk, bind_of_some (Checked.cbitsOf_eq (acceptsParams_k hacc)),
    bind_of_some hshl, bind_of_some (Checked.mapM_of_some hrow)]
  exact hshape.search_eq c hacc f input nonce (leafRows_ne _ _)

/-! ### A buffer of zeros -/

/-- Rows whose hashes have run down to `length` zeros. -/
def AllZero (length : ℕ) (rows : List Row) : Prop := ∀ row ∈ rows, row.hash = zeros length

theorem firstCbitsEq_self (a : List UInt8) (cbits : ℕ) : firstCbitsEq a a cbits = true := by
  simp [firstCbitsEq]

/-- A comparison of zeros that are too short panics. -/
theorem firstCbitsEq_zeros {m : ℕ} (h : m < divCeil8 cbits) :
    Checked.firstCbitsEq (zeros m) (zeros m) cbits = none := by
  unfold Checked.firstCbitsEq
  by_cases hfull : cbits / 8 ≤ m
  · have hrem : cbits % 8 ≠ 0 := by
      unfold divCeil8 at h
      omega
    have hnone : (zeros m)[cbits / 8]? = none := by
      rw [List.getElem?_eq_none_iff, zeros_length]
      unfold divCeil8 at h
      omega
    have hslice : Checked.slice (zeros m) 0 (cbits / 8) = _ :=
      Checked.slice_of_le (Nat.zero_le _) (by simpa using hfull)
    rw [bind_of_some hslice, bind_of_some hslice]
    simp [hrem, hnone]
  · have hslice : Checked.slice (zeros m) 0 (cbits / 8) = none :=
      if_neg (by rw [zeros_length]; omega)
    dsimp only
    rw [hslice]
    rfl

/-- All rows that agree make one stretch. -/
theorem runsFrom_same {α : Type} {same : α → α → Bool} {ys : List α} {first : α}
    (taken : List α) (h : ∀ y ∈ ys, same first y = true) :
    runsFrom same first taken ys = [taken.reverse ++ ys] := by
  induction ys generalizing taken with
  | nil => simp [runsFrom]
  | cons y ys ih =>
    rw [runsFrom, if_pos (h y List.mem_cons_self),
      ih (y :: taken) fun z hz => h z (List.mem_cons_of_mem _ hz)]
    simp

theorem AllZero.round {m : ℕ} (h : AllZero m rows) :
    AllZero (m - divCeil8 cbits) (Solver.round rows cbits) := by
  intro z hz
  obtain ⟨a, ha, b, hb, hf⟩ := exists_of_mem_round hz
  have hxor : xor a.hash b.hash = zeros m := by rw [h a ha, h b hb, xor_self, zeros_length]
  unfold pairRow at hf
  split_ifs at hf
  obtain rfl := Option.some.inj hf
  simp only [hxor, zeros_length]
  split_ifs with hle
  · rw [Nat.sub_eq_zero_of_le hle]
    rfl
  · exact List.drop_replicate

theorem pairRow_of_disjoint (cbytes : ℕ) {a b : Row} (hd : a.indices.Disjoint b.indices) :
    ∃ z, pairRow cbytes a b = some z ∧ z.indices = concatCanonical a.indices b.indices := by
  have hnot : (!distinctIndices a.indices b.indices) = false := by
    rw [(distinctIndices_iff _ _).mpr hd]
    rfl
  rw [pairRow, if_neg (by rw [hnot]; exact Bool.false_ne_true)]
  exact ⟨_, rfl, rfl⟩

/-- Every two disjoint rows of zeros make a row. -/
theorem AllZero.join {m : ℕ} (h : AllZero m rows) {a b : Row} (ha : a ∈ rows) (hb : b ∈ rows)
    (hne : a.indices ≠ []) (hne' : b.indices ≠ []) (hd : a.indices.Disjoint b.indices) :
    ∃ z ∈ Solver.round rows cbits, z.indices = concatCanonical a.indices b.indices := by
  obtain ⟨x, xs, hxs⟩ := List.exists_cons_of_ne_nil (List.ne_nil_of_mem (mem_sortRows.mpr ha))
  have hone : runs (fun a b : Row => firstCbitsEq a.hash b.hash cbits) (sortRows rows) =
      [sortRows rows] := by
    have hzero : ∀ {row}, row ∈ x :: xs → row.hash = zeros m := fun hr =>
      h _ (mem_sortRows.mp (hxs ▸ hr))
    rw [hxs, runs, runsFrom_same [x] fun y hy => by
      rw [hzero List.mem_cons_self, hzero (List.mem_cons_of_mem _ hy), firstCbitsEq_self]]
    rfl
  have hab : a ≠ b := by
    rintro rfl
    obtain ⟨i, hi⟩ := List.exists_mem_of_ne_nil _ hne
    exact List.disjoint_left.mp hd hi hi
  have hmade : ∀ {p q : Row}, (p, q) ∈ pairs (sortRows rows) →
      p.indices.Disjoint q.indices → ∃ z ∈ Solver.round rows cbits,
        z.indices = concatCanonical p.indices q.indices := by
    intro p q hp hpq
    obtain ⟨z, hz, hidx⟩ := pairRow_of_disjoint (divCeil8 cbits) hpq
    exact ⟨z, List.mem_flatMap.mpr ⟨sortRows rows, hone ▸ List.mem_singleton_self _,
      List.mem_filterMap.mpr ⟨(p, q), hp, hz⟩⟩, hidx⟩
  rcases mem_pairs_or (mem_sortRows.mpr ha) (mem_sortRows.mpr hb) hab with hp | hp
  · exact hmade hp hd
  · rw [concatCanonical_comm (head_ne_of_disjoint hne hne' hd)]
    exact hmade hp (List.disjoint_comm.mp hd)

/-- A numbering of the leaves by which the aligned blocks are trees in canonical order. -/
structure Numbering (f : ℕ → ℕ) : Prop where
  inj : Function.Injective f
  lt : ∀ {N x : ℕ}, 4 ≤ N → x < N → f x < N
  head : ∀ r j : ℕ, f (2 * j * 2 ^ r) < f ((2 * j + 1) * 2 ^ r)

theorem Numbering.id : Numbering id where
  inj := Function.injective_id
  lt _ h := h
  head r _ := Nat.mul_lt_mul_of_pos_right (Nat.lt_succ_self _) (Nat.two_pow_pos r)

/-- Leaves 1 and 2 may change places. -/
theorem Numbering.swap : Numbering (Equiv.swap 1 2) where
  inj := (Equiv.swap 1 2).injective
  lt hN hx := by
    rw [Equiv.swap_apply_def]
    split_ifs <;> omega
  head r j := by
    have hlt : 2 * j * 2 ^ r < (2 * j + 1) * 2 ^ r :=
      Nat.mul_lt_mul_of_pos_right (Nat.lt_succ_self _) (Nat.two_pow_pos r)
    have hodd : 2 * j * 2 ^ r ≠ 1 := fun he => by
      have := Nat.eq_one_of_mul_eq_one_right he
      omega
    rw [Equiv.swap_apply_def, Equiv.swap_apply_def]
    split_ifs <;> omega

/-- Block `j` of `2 ^ r` leaves. -/
def block (f : ℕ → ℕ) (r j : ℕ) : List UInt32 :=
  (List.range' (j * 2 ^ r) (2 ^ r)).map fun x => UInt32.ofNat (f x)

theorem block_succ (f : ℕ → ℕ) (r j : ℕ) :
    block f (r + 1) j = block f r (2 * j) ++ block f r (2 * j + 1) := by
  have hj : j * 2 ^ (r + 1) = 2 * j * 2 ^ r := by rw [pow_succ]; ring
  have hj' : (2 * j + 1) * 2 ^ r = 2 * j * 2 ^ r + 2 ^ r := Nat.succ_mul _ _
  have hr : 2 ^ (r + 1) = 2 ^ r + 2 ^ r := by rw [pow_succ]; ring
  rw [block, block, block, ← List.map_append, hj, hj', List.range'_append_1, hr]

theorem block_headD (f : ℕ → ℕ) (r j : ℕ) :
    (block f r j).headD 0 = UInt32.ofNat (f (j * 2 ^ r)) := by
  obtain ⟨m, hm⟩ := Nat.exists_eq_succ_of_ne_zero (Nat.two_pow_pos r).ne'
  rw [block, hm, List.range'_succ]
  rfl

theorem block_ne_nil (f : ℕ → ℕ) (r j : ℕ) : block f r j ≠ [] := by
  have := (Nat.two_pow_pos r).ne'
  simp [block]

theorem mem_block {f : ℕ → ℕ} {r j : ℕ} {i : UInt32} : i ∈ block f r j ↔
    ∃ x, (j * 2 ^ r ≤ x ∧ x < (j + 1) * 2 ^ r) ∧ UInt32.ofNat (f x) = i := by
  simp only [block, List.mem_map, List.mem_range'_1, Nat.succ_mul]

/-- The rows contain every block. -/
def Blocks (cbits : ℕ) (f : ℕ → ℕ) (r : ℕ) (rows : List Row) : Prop :=
  ∀ j < 2 ^ (cbits + 1 - r), ∃ row ∈ rows, row.indices = block f r j

theorem Blocks.leaves {f : ℕ → ℕ} (hf : Numbering f) (hpos : 1 ≤ cbits) (leaf : UInt32 → List UInt8) :
    Blocks cbits f 0 (leafRows (2 ^ (cbits + 1)) leaf) := by
  intro j hj
  have hN : 2 ^ 2 ≤ 2 ^ (cbits + 1) := Nat.pow_le_pow_right (by omega) (by omega)
  refine ⟨⟨leaf (UInt32.ofNat (f j)), [UInt32.ofNat (f j)]⟩, ?_, ?_⟩
  · exact List.mem_map.mpr ⟨f j, List.mem_range.mpr (hf.lt hN hj), rfl⟩
  · simp [block]

/-- ONE ROUND: neighbouring blocks are joined. -/
theorem Blocks.round {f : ℕ → ℕ} (hf : Numbering f) {m : ℕ} (h : Blocks cbits f r rows)
    (hz : AllZero m rows) (hr : r ≤ cbits) (hpos : 1 ≤ cbits) (hbits : cbits + 1 < 32) :
    Blocks cbits f (r + 1) (Solver.round rows cbits) := by
  intro j hj
  have hhalf : 2 ^ (cbits + 1 - r) = 2 * 2 ^ (cbits + 1 - (r + 1)) := by
    rw [← pow_succ', show cbits + 1 - (r + 1) + 1 = cbits + 1 - r by omega]
  have hN : 2 ^ 2 ≤ 2 ^ (cbits + 1) := Nat.pow_le_pow_right (by omega) (by omega)
  have hpow : 2 ^ (cbits + 1) < 2 ^ 32 := Nat.pow_lt_pow_right (by omega) hbits
  have hall : 2 ^ (cbits + 1 - r) * 2 ^ r = 2 ^ (cbits + 1) := by
    rw [← pow_add, show cbits + 1 - r + r = cbits + 1 by omega]
  have hnat : ∀ {b x}, b < 2 ^ (cbits + 1 - r) → x < (b + 1) * 2 ^ r →
      (UInt32.ofNat (f x)).toNat = f x := fun hb hx => by
    have hx := hx.trans_le ((Nat.mul_le_mul_right _ hb).trans hall.le)
    exact UInt32.toNat_ofNat_of_lt' ((hf.lt hN hx).trans hpow)
  obtain ⟨a, ha, hai⟩ := h (2 * j) (by omega)
  obtain ⟨b, hb, hbi⟩ := h (2 * j + 1) (by omega)
  have hd : a.indices.Disjoint b.indices := by
    rw [hai, hbi, List.disjoint_left]
    intro i hi hi'
    obtain ⟨x, ⟨-, hx⟩, rfl⟩ := mem_block.mp hi
    obtain ⟨y, ⟨hy, hy'⟩, he⟩ := mem_block.mp hi'
    have he := congrArg UInt32.toNat he
    rw [hnat (by omega) hx, hnat (by omega) hy'] at he
    have := hf.inj he
    omega
  obtain ⟨z, hz, hidx⟩ := @AllZero.join cbits _ _ hz _ _ ha hb (hai ▸ block_ne_nil f r _)
    (hbi ▸ block_ne_nil f r _) hd
  have hlt : (block f r (2 * j)).headD 0 < (block f r (2 * j + 1)).headD 0 := by
    have hstart : ∀ b, b * 2 ^ r < (b + 1) * 2 ^ r := fun b =>
      Nat.mul_lt_mul_of_pos_right (Nat.lt_succ_self _) (Nat.two_pow_pos r)
    rw [block_headD, block_headD, UInt32.lt_iff_toNat_lt, hnat (b := 2 * j) (by omega) (hstart _),
      hnat (b := 2 * j + 1) (by omega) (hstart _)]
    exact hf.head r j
  exact ⟨z, hz, by rw [hidx, hai, hbi, concatCanonical, if_pos hlt, block_succ]⟩

/-- Up to round `cbits + 1` there are two rows. -/
theorem Blocks.two (h : Blocks cbits id r rows) (h' : Blocks cbits (Equiv.swap 1 2) r rows)
    (hr : r ≤ cbits + 1) (hpos : 1 ≤ cbits) (hbits : cbits + 1 < 32) :
    ∃ a ∈ rows, ∃ b ∈ rows, a ≠ b := by
  obtain ⟨a, ha, hai⟩ := h 0 (Nat.two_pow_pos _)
  rcases Nat.lt_or_eq_of_le hr with hlt | rfl
  · -- two blocks
    obtain ⟨b, hb, hbi⟩ := h 1 (Nat.one_lt_two_pow (by omega))
    refine ⟨a, ha, b, hb, fun he => ?_⟩
    have hpow : 2 ^ r < 2 ^ 32 := Nat.pow_lt_pow_right (by omega) (by omega)
    have hhead := congrArg (fun row : Row => (row.indices.headD 0).toNat) he
    simp only [hai, hbi, block_headD, Nat.zero_mul, Nat.one_mul, id] at hhead
    rw [UInt32.toNat_ofNat_of_lt' hpow] at hhead
    exact absurd hhead (Nat.two_pow_pos r).ne
  · -- one block, read in two orders
    obtain ⟨b, hb, hbi⟩ := h' 0 (Nat.two_pow_pos _)
    refine ⟨a, ha, b, hb, fun he => ?_⟩
    obtain ⟨m, hm⟩ := Nat.exists_eq_add_of_le
      (Nat.pow_le_pow_right (by omega) (by omega) : 2 ^ 1 ≤ 2 ^ (cbits + 1))
    have hsecond := congrArg (fun row : Row => row.indices[1]?) he
    simp only [hai, hbi, block, hm, pow_one, Nat.add_comm 2 m, List.range'_succ, Nat.zero_mul,
      List.map_cons, List.getElem?_cons_succ, List.getElem?_cons_zero] at hsecond
    exact absurd hsecond (by decide)

/-- A round on two rows of zeros that are too short panics at its first comparison. -/
theorem AllZero.round_panics {m : ℕ} (h : AllZero m rows) (hm : m < divCeil8 cbits)
    (htwo : ∃ a ∈ rows, ∃ b ∈ rows, a ≠ b) : Checked.round rows cbits = none := by
  obtain ⟨a, ha, b, hb, hne⟩ := htwo
  have hruns : Checked.runs (fun a b => Checked.firstCbitsEq a.hash b.hash cbits) (sortRows rows) =
      none := by
    rcases hs : sortRows rows with _ | ⟨x, _ | ⟨y, ys⟩⟩
    · exact absurd (hs ▸ mem_sortRows.mpr ha) List.not_mem_nil
    · have ha := List.mem_singleton.mp (hs ▸ mem_sortRows.mpr ha)
      have hb := List.mem_singleton.mp (hs ▸ mem_sortRows.mpr hb)
      exact absurd (ha.trans hb.symm) hne
    · have hx : x.hash = zeros m := h x (mem_sortRows.mp (by simp [hs]))
      have hy : y.hash = zeros m := h y (mem_sortRows.mp (by simp [hs]))
      rw [Checked.runs, Checked.runsFrom, hx, hy, firstCbitsEq_zeros hm]
      rfl
  rw [Checked.round, hruns]
  rfl

/-- RUN LEMMA: on zeros the rounds panic when the bytes run out. -/
theorem rounds_panics (hpos : 1 ≤ cbits) (hbits : cbits + 1 < 32)
    (hlast : width / divCeil8 cbits ≤ cbits + 1) (s : ℕ) {r : ℕ} {rows : List Row}
    (h : Shape cbits width r rows) (hz : AllZero (width - r * divCeil8 cbits) rows)
    (hid : Blocks cbits id r rows) (hswap : Blocks cbits (Equiv.swap 1 2) r rows)
    (hr : r ≤ width / divCeil8 cbits) (hs : width / divCeil8 cbits < r + s) :
    Checked.rounds cbits s rows = none := by
  have hm : 0 < divCeil8 cbits := by
    unfold divCeil8
    omega
  induction s generalizing r rows with
  | zero => omega
  | succ s ih =>
    have htwo := hid.two hswap (hr.trans hlast) hpos hbits
    rcases Nat.lt_or_eq_of_le hr with hlt | rfl
    · have hbytes : (r + 1) * divCeil8 cbits ≤ width :=
        (Nat.mul_le_mul_right _ hlt).trans (Nat.div_mul_le_self _ _)
      have hid' := hid.round .id hz (by omega) hpos hbits
      have hswap' := hswap.round .swap hz (by omega) hpos hbits
      obtain ⟨z, hz', -⟩ := hid' 0 (Nat.two_pow_pos _)
      have hne : (Solver.round rows cbits).isEmpty = false :=
        List.isEmpty_eq_false_iff.mpr (List.ne_nil_of_mem hz')
      have hzero := @AllZero.round cbits _ _ hz
      rw [Nat.sub_sub, ← Nat.succ_mul] at hzero
      rw [Checked.rounds, bind_of_some (h.round_eq fun _ => hbytes), if_neg (by rw [hne]; decide)]
      exact ih h.round hzero hid' hswap' hlt (by omega)
    · have hshort : width - width / divCeil8 cbits * divCeil8 cbits < divCeil8 cbits := by
        have := Nat.div_add_mod' width (divCeil8 cbits)
        have := Nat.mod_lt width hm
        omega
      rw [Checked.rounds, hz.round_panics hshort htwo]
      rfl

theorem cbitsOf_pos (hacc : acceptsParams n k = true) : 1 ≤ cbitsOf n k := by
  obtain ⟨-, -, -, -, hk⟩ := acceptsParams_iff.mp hacc
  exact Nat.div_pos hk (by omega)

/-- Where the bytes run out, a buffer of zeros makes the search panic. -/
theorem tryNonceWithLeaves_zeros (c : Crates) (hacc : acceptsParams n k = true)
    (hbits : cbitsOf n k + 1 < 32)
    (hbytes : leafBytes n < min k.toNat (cbitsOf n k + 2) * divCeil8 (cbitsOf n k))
    (input : Vector UInt8 iLen) (nonce : Bytes32) :
    Checked.tryNonceWithLeaves c n k input nonce (zeros (nInitLeaves n k * leafBytes n)) = none := by
  have hpos := cbitsOf_pos hacc
  have hlen : nInitLeaves n k * leafBytes n ≤ (zeros (nInitLeaves n k * leafBytes n)).length := by
    rw [zeros_length]
  have hm : 0 < divCeil8 (cbitsOf n k) := by
    unfold divCeil8
    omega
  have hround : leafBytes n / divCeil8 (cbitsOf n k) < min k.toNat (cbitsOf n k + 2) :=
    (Nat.div_lt_iff_lt_mul hm).mpr hbytes
  have hshape := Shape.leafRows hbits (tableLeaf_length hbits hlen)
  have hzero : AllZero (leafBytes n - 0 * divCeil8 (cbitsOf n k)) (leafRows (nInitLeaves n k)
      (tableLeaf (zeros (nInitLeaves n k * leafBytes n)) (leafBytes n))) := fun row hr => by
    obtain ⟨i, hi, rfl⟩ := List.mem_map.mp hr
    have hi := tableLeaf_length hbits hlen i (List.mem_range.mp hi)
    rw [tableLeaf, zeros, List.drop_replicate, List.take_replicate] at hi ⊢
    rw [List.length_replicate] at hi
    rw [hi, Nat.zero_mul, Nat.sub_zero]
    rfl
  have hpanics : Checked.rounds (cbitsOf n k) k.toNat (leafRows (nInitLeaves n k)
      (tableLeaf (zeros (nInitLeaves n k * leafBytes n)) (leafBytes n))) = none :=
    rounds_panics hpos hbits (by omega) k.toNat hshape hzero (Blocks.leaves .id hpos _)
      (Blocks.leaves .swap hpos _) (Nat.zero_le _) (by omega)
  rw [checked_leaves c hacc hbits input nonce hlen, Checked.search, hpanics]
  rfl

/-- A shift by the word width panics before any leaf is read. -/
theorem tryNonceWithLeaves_shift (c : Crates) (hacc : acceptsParams n k = true)
    (hbits : ¬ cbitsOf n k + 1 < 32) (input : Vector UInt8 iLen) (nonce : Bytes32)
    (leaves : List UInt8) : Checked.tryNonceWithLeaves c n k input nonce leaves = none := by
  have hshl : Checked.shl32 (cbitsOf n k + 1) = none := if_neg hbits
  rw [Checked.tryNonceWithLeaves, bind_of_some (checked_acceptsParams hacc), if_pos rfl,
    bind_of_some (Checked.cbitsOf_eq (acceptsParams_k hacc)), hshl]
  rfl

/-- There is no digest of more than 512 bits, and `blake2b_simd` refuses an empty one. -/
theorem baseState_new_wide (hacc : acceptsParams n k = true) (hn : 512 < n.toNat)
    (input : Vector UInt8 iLen) : Checked.BaseState.new n k input = none := by
  have hn0 : n.toNat ≠ 0 := by omega
  have hlen : Checked.hashOutputLen n = some 0 := by
    rw [Checked.hashOutputLen, if_neg hn0, hashOutputLen, Nat.div_eq_of_lt hn, Nat.zero_mul]
  rw [Checked.BaseState.new, bind_of_some (checked_acceptsParams hacc), if_pos rfl,
    bind_of_some hlen]
  rfl

/-! ### Totality -/

/-- The three entry points return, whatever the input, the nonce and the leaves. -/
def ReturnsNormally (c : Crates) (n k : UInt32) : Prop :=
  ∀ (input : Vector UInt8 iLen) (nonce : Bytes32) (leaves : List UInt8),
    nInitLeaves n k * leafBytes n ≤ leaves.length →
      (∃ base, Checked.BaseState.new n k input = some (.ok base) ∧
        (Checked.tryNonce c base input nonce).isSome = true) ∧
      (Checked.tryNonceWithLeaves c n k input nonce leaves).isSome = true

/-- TOTAL: on accepted parameters the solver never panics exactly when a digest holds a leaf, the
    leaf count fits a word and the hashes outlast the rounds that see rows. -/
theorem total_iff {c : Crates} (hc : DigestLength c) (hacc : acceptsParams n k = true) :
    ReturnsNormally c n k ↔ n.toNat ≤ 512 ∧ cbitsOf n k + 1 < 32 ∧
      min k.toNat (cbitsOf n k + 2) * divCeil8 (cbitsOf n k) ≤ leafBytes n := by
  constructor
  · intro h
    obtain ⟨⟨base, hnew, -⟩, hleaves⟩ := h (Vector.replicate _ 0) (Vector.replicate _ 0)
      (zeros (nInitLeaves n k * leafBytes n)) (zeros_length _).ge
    refine ⟨?_, ?_, ?_⟩
    · by_contra hn
      rw [baseState_new_wide hacc (by omega)] at hnew
      cases hnew
    · by_contra hbits
      rw [tryNonceWithLeaves_shift c hacc hbits] at hleaves
      cases hleaves
    · by_contra hbytes
      by_cases hbits : cbitsOf n k + 1 < 32
      · rw [tryNonceWithLeaves_zeros c hacc hbits (by omega)] at hleaves
        cases hleaves
      · rw [tryNonceWithLeaves_shift c hacc hbits] at hleaves
        cases hleaves
  · rintro ⟨hn, hbits, hbytes⟩ input nonce leaves hlen
    have f : Fits n k := ⟨hbits, hbytes⟩
    refine ⟨⟨_, checked_baseState_new hacc hn input, ?_⟩, ?_⟩
    · rw [checked_tryNonce hc hacc hn f rfl]
      rfl
    · rw [checked_tryNonceWithLeaves c hacc f input nonce hlen]
      rfl

theorem total_iff_demo : ReturnsNormally (Demo.crates fun _ _ _ _ _ => true) 96 5 :=
  (total_iff (Demo.digestLength _) (by decide)).mpr (by decide)

/-- With `(n, k) = (8, 7)` the one byte of a leaf is gone after the first of seven rounds: four zero
    leaves are enough for the second to index an empty hash. -/
theorem short_hash_panics : acceptsParams 8 7 = true ∧
    nInitLeaves 8 7 * leafBytes 8 = [(0 : UInt8), 0, 0, 0].length ∧
    Checked.tryNonceWithLeaves (Demo.crates fun _ _ _ _ _ => true) 8 7 Demo.input Demo.nonce
      [0, 0, 0, 0] = none ∧
    ¬ ReturnsNormally (Demo.crates fun _ _ _ _ _ => true) 8 7 := by
  have hpanic := tryNonceWithLeaves_zeros (n := 8) (k := 7) (Demo.crates fun _ _ _ _ _ => true)
    (by decide) (by decide) (by decide) Demo.input Demo.nonce
  refine ⟨by decide, by decide, hpanic, fun h => ?_⟩
  have hsome := (h Demo.input Demo.nonce (zeros (nInitLeaves 8 7 * leafBytes 8))
    (zeros_length _).ge).2
  rw [hpanic] at hsome
  cases hsome

end Equium.Solver
