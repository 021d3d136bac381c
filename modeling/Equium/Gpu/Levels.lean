import Equium.Gpu.PairEmit

/-! @src clients/gpu-miner/src/shaders/rounds.wgsl, wagner.rs | name:GPU levels |
    scheme:simulation of the subtrees

    A buffer at level `r` holds level-`r` subtrees, each at most once: the index words are the tuple,
    and the twelve hash bytes are the XOR of its leaves shifted left by `2 * r` bytes. One round of
    passes takes level `r` to level `r + 1`, and where nothing overflows it keeps every subtree. -/

namespace Equium.Gpu
open Schemes Solver

/-! ### Buckets are two-byte prefixes -/

theorem extractBucket_toNat (b : Buffer) (m : ℕ) : (extractBucket b m).toNat =
    (readHashWord b m 0).toNat % 256 * 256 + (readHashWord b m 0).toNat / 256 % 256 := by
  have hw := (readHashWord b m 0).toNat_lt
  generalize hx : (readHashWord b m 0).toNat = x at hw
  have hlow : ∀ y : ℕ, y &&& 255 = y % 256 := fun y => Nat.and_two_pow_sub_one_eq_mod y 8
  have hor := Nat.two_pow_add_eq_or_of_lt (i := 8) (show x / 256 % 256 < 2 ^ 8 by omega) (x % 256)
  simp only [extractBucket, UInt32.toNat_or, UInt32.toNat_shiftLeft, UInt32.toNat_shiftRight,
    UInt32.toNat_and, hx, Nat.shiftRight_eq_div_pow, Nat.shiftLeft_eq]
  change (x &&& 255) * 256 % 4294967296 ||| x / 256 &&& 255 = _
  rw [hlow, hlow, Nat.mod_eq_of_lt (show x % 256 * 256 < 4294967296 by omega),
    Nat.mul_comm (x % 256) 256, ← hor]

theorem bucketOf_lt (b : Buffer) (m : ℕ) : bucketOf b m < numBuckets := by
  rw [bucketOf, extractBucket_toNat, numBuckets]
  omega

/-- Rows share a bucket when their first two hash bytes agree. -/
theorem bucketOf_eq_iff (b : Buffer) (i j : ℕ) : bucketOf b i = bucketOf b j ↔
    (bytes12 (rowHash b i)).take 2 = (bytes12 (rowHash b j)).take 2 := by
  have htake : ∀ m, (bytes12 (rowHash b m)).take 2 = [UInt8.ofNat (readHashWord b m 0).toNat,
      UInt8.ofNat ((readHashWord b m 0).toNat / 256)] := fun _ => rfl
  have hbyte : ∀ x y : ℕ, UInt8.ofNat x = UInt8.ofNat y ↔ x % 256 = y % 256 := fun x y =>
    ⟨fun h => by simpa [UInt8.toNat_ofNat'] using congrArg UInt8.toNat h, ofNat_eq_of_mod⟩
  rw [htake, htake, List.cons.injEq, List.cons.injEq, hbyte, hbyte, bucketOf, bucketOf,
    extractBucket_toNat, extractBucket_toNat]
  have hpair : ∀ a b c d : ℕ, b < 256 → d < 256 →
      (a * 256 + b = c * 256 + d ↔ a = c ∧ b = d) := fun a b c d hb hd =>
    ⟨fun h => ⟨by omega, by omega⟩, fun ⟨h₁, h₂⟩ => by omega⟩
  exact (hpair _ _ _ _ (Nat.mod_lt _ (by decide)) (Nat.mod_lt _ (by decide))).trans (by simp)

/-! ### A buffer at a level -/

variable {T : LeafTable} {r n : ℕ} {buf : Buffer}

/-- The first `n` rows of the buffer are level-`r` subtrees, each at most once. -/
structure GpuLevel (T : LeafTable) (r n : ℕ) (buf : Buffer) : Prop where
  fresh : ∀ m < n, freshRow buf (2 ^ r) m = true
  subtree : ∀ m < n, T.Subtree r (rowIndices buf (2 ^ r) m)
  hash : ∀ m < n, bytes12 (rowHash buf m) =
    (T.xorOf (rowIndices buf (2 ^ r) m)).drop (2 * r) ++ zeros (2 * r)
  inj : ∀ m < n, ∀ m' < n, rowIndices buf (2 ^ r) m = rowIndices buf (2 ^ r) m' → m = m'

/-- Every level-`r` subtree is one of the rows. -/
def FullLevel (T : LeafTable) (r n : ℕ) (buf : Buffer) : Prop :=
  ∀ t, T.Subtree r t → ∃ m < n, rowIndices buf (2 ^ r) m = t

/-- The (96, 5) shape: two bytes a level, five levels. -/
structure Wide (T : LeafTable) : Prop where
  cbytes : T.cbytes = 2
  k : T.k = 5
  count : T.count = nLeaves

theorem Wide.xorOf_length (hT : Wide T) {t : List UInt32} (h : T.Subtree r t) :
    (T.xorOf t).length = 12 := by
  rw [Solver.xorOf_length h.leaves, hT.cbytes, hT.k]

/-- The level's two bytes are the first two bytes of the row's hash words. -/
theorem GpuLevel.level_eq (h : GpuLevel T r n buf) (hT : Wide T) (hr : r ≤ 5) {m : ℕ} (hm : m < n) :
    T.level r (T.xorOf (rowIndices buf (2 ^ r) m)) = (bytes12 (rowHash buf m)).take 2 := by
  have hlen := hT.xorOf_length (h.subtree m hm)
  rw [h.hash m hm, List.take_append_of_le_length (by rw [List.length_drop]; omega),
    LeafTable.level, hT.cbytes, Nat.mul_comm]

/-- Rows collide at the level when they share a bucket. -/
theorem GpuLevel.bucket_iff (h : GpuLevel T r n buf) (hT : Wide T) (hr : r ≤ 5) {i j : ℕ}
    (hi : i < n) (hj : j < n) : bucketOf buf i = bucketOf buf j ↔
      T.level r (T.xorOf (rowIndices buf (2 ^ r) i)) =
        T.level r (T.xorOf (rowIndices buf (2 ^ r) j)) := by
  rw [bucketOf_eq_iff, h.level_eq hT hr hi, h.level_eq hT hr hj]

theorem distinctIndicesIn_iff (p : Params) (b : Buffer) (i j : ℕ) :
    distinctIndicesIn p b i j = true ↔
      (rowIndices b p.indicesCountIn i).Disjoint (rowIndices b p.indicesCountIn j) := by
  rw [← distinctIndices_iff]
  simp [distinctIndicesIn, distinctIndices, rowIndices]

theorem bytes12_xor3 (g h : UInt32 × UInt32 × UInt32) :
    bytes12 (xor3 g h) = Solver.xor (bytes12 g) (bytes12 h) := by
  simp only [bytes12, xor3, bytes4_xor]
  rw [xor_append (by simp), xor_append (by simp)]
  rfl

/-- The hash bytes of an emitted row. -/
theorem GpuLevel.emitted_hash (h : GpuLevel T r n buf) (hT : Wide T) (hr : r < 5) {i j : ℕ}
    (hi : i < n) (hj : j < n) :
    bytes12 (trim2 (xor3 (rowHash buf i) (rowHash buf j))) =
      (T.xorOf (concatCanonical (rowIndices buf (2 ^ r) i) (rowIndices buf (2 ^ r) j))).drop
        (2 * (r + 1)) ++ zeros (2 * (r + 1)) := by
  have hli := hT.xorOf_length (h.subtree i hi)
  have hlj := hT.xorOf_length (h.subtree j hj)
  rw [bytes12_trim2, bytes12_xor3, h.hash i hi, h.hash j hj, xor_append (by simp [hli, hlj]),
    Solver.xor_self, zeros_length, xorOf_concat (h.subtree i hi) (h.subtree j hj)]
  have hdrop : Solver.xor ((T.xorOf (rowIndices buf (2 ^ r) i)).drop (2 * r))
      ((T.xorOf (rowIndices buf (2 ^ r) j)).drop (2 * r)) =
      (Solver.xor (T.xorOf (rowIndices buf (2 ^ r) i))
        (T.xorOf (rowIndices buf (2 ^ r) j))).drop (2 * r) := by
    rw [Solver.xor, Solver.xor, List.drop_zipWith]
  rw [hdrop, List.drop_append_of_le_length (by rw [List.length_drop, xor_length]; omega),
    List.drop_drop, List.append_assoc, Nat.mul_succ, zeros_add]
  rfl

/-! ### One round -/

variable {rowsOut : Buffer} {slots : ℕ → ℕ} {sched : RoundSchedule}

/-- The log of the round from level `r`. -/
def levelLog (sched : RoundSchedule) (r n : ℕ) (buf rowsOut : Buffer) (slots : ℕ → ℕ) : RoundLog :=
  runRound sched ⟨n, maxRows, 2 ^ r⟩ buf rowsOut slots

theorem GpuLevel.passOk (h : GpuLevel T r n buf) (hr : r < 5)
    (hl : (levelLog sched r n buf rowsOut slots).Legal) :
    PassOk ⟨n, maxRows, 2 ^ r⟩ buf (levelLog sched r n buf rowsOut slots).buckets where
  slots := (countInv_pass _ _ slots sched.count).slotsOk hl.1
  fresh := h.fresh
  pos := Nat.two_pow_pos r
  fits := by
    have : 2 ^ (r + 1) ≤ 2 ^ 5 := Nat.pow_le_pow_right (by omega) (by omega)
    rw [pow_succ] at this
    change 2 * 2 ^ r ≤ 32
    omega

theorem GpuLevel.pairInv (h : GpuLevel T r n buf) (hr : r < 5)
    (hl : (levelLog sched r n buf rowsOut slots).Legal) :
    PairInv ⟨n, maxRows, 2 ^ r⟩ buf (levelLog sched r n buf rowsOut slots).buckets
      (levelLog sched r n buf rowsOut slots).pairs :=
  pairInv_pass (h.passOk hr hl) rowsOut sched.pair

/-- A found pair: two different rows that collide and share no index. -/
theorem GpuLevel.found (h : GpuLevel T r n buf) (hT : Wide T) (hr : r < 5)
    (hl : (levelLog sched r n buf rowsOut slots).Legal) {q : ℕ × ℕ}
    (hq : q ∈ (levelLog sched r n buf rowsOut slots).pairs.found) :
    q.1 < q.2 ∧ q.2 < n ∧
      (rowIndices buf (2 ^ r) q.1).Disjoint (rowIndices buf (2 ^ r) q.2) ∧
      T.level r (T.xorOf (rowIndices buf (2 ^ r) q.1)) =
        T.level r (T.xorOf (rowIndices buf (2 ^ r) q.2)) := by
  obtain ⟨hi, hlt, hdis, s, -, hs, he⟩ := (h.pairInv hr hl).sound q hq
  obtain ⟨hj, hb⟩ := (h.passOk hr hl).slots.mem q.1 s hs
  rw [← he] at hj hb
  exact ⟨hlt, hj, (distinctIndicesIn_iff _ _ _ _).mp hdis,
    (h.bucket_iff hT hr.le hi hj).mp hb.symm⟩

/-- The pair behind a row of the output. -/
theorem GpuLevel.emitted (h : GpuLevel T r n buf) (hr : r < 5)
    (hl : (levelLog sched r n buf rowsOut slots).Legal) {m : ℕ}
    (hm : m < min (levelLog sched r n buf rowsOut slots).pairs.outCount maxRows) :
    ∃ q, (levelLog sched r n buf rowsOut slots).pairs.found[m]? = some q ∧
      Emitted ⟨n, maxRows, 2 ^ r⟩ buf (levelLog sched r n buf rowsOut slots).pairs.rowsOut m q := by
  obtain ⟨hlt, hmax⟩ := lt_min_iff.mp hm
  have hinv := h.pairInv hr hl
  rw [hinv.count] at hlt
  exact ⟨_, List.getElem?_eq_getElem hlt, hinv.rows m hmax _ (List.getElem?_eq_getElem hlt)⟩

/-- A pair of rows can be read back from the subtree it makes. -/
theorem GpuLevel.pair_inj (h : GpuLevel T r n buf) {q q' : ℕ × ℕ} (hq : q.1 < q.2) (hn : q.2 < n)
    (hq' : q'.1 < q'.2) (hn' : q'.2 < n)
    (he : concatCanonical (rowIndices buf (2 ^ r) q.1) (rowIndices buf (2 ^ r) q.2) =
      concatCanonical (rowIndices buf (2 ^ r) q'.1) (rowIndices buf (2 ^ r) q'.2)) : q = q' := by
  rcases concatCanonical_inj (by simp) (by simp) (by simp) he with ⟨h₁, h₂⟩ | ⟨h₁, h₂⟩
  · exact Prod.ext (h.inj _ (by omega) _ (by omega) h₁) (h.inj _ hn _ hn' h₂)
  · have e₁ := h.inj _ (by omega) _ hn' h₁
    have e₂ := h.inj _ hn _ (by omega) h₂
    omega

/-- STEP LEMMA: a round takes level `r` to level `r + 1`, overflow or not. -/
theorem GpuLevel.round (h : GpuLevel T r n buf) (hT : Wide T) (hr : r < 5)
    (hl : (levelLog sched r n buf rowsOut slots).Legal) :
    GpuLevel T (r + 1) (min (levelLog sched r n buf rowsOut slots).pairs.outCount maxRows)
      (levelLog sched r n buf rowsOut slots).pairs.rowsOut := by
  have hidx : ∀ {m q}, Emitted ⟨n, maxRows, 2 ^ r⟩ buf
      (levelLog sched r n buf rowsOut slots).pairs.rowsOut m q →
      rowIndices (levelLog sched r n buf rowsOut slots).pairs.rowsOut (2 ^ (r + 1)) m =
        concatCanonical (rowIndices buf (2 ^ r) q.1) (rowIndices buf (2 ^ r) q.2) := by
    intro m q he
    rw [pow_succ, Nat.mul_comm]
    exact he.indices
  refine ⟨fun m hm => ?_, fun m hm => ?_, fun m hm => ?_, fun m hm m' hm' heq => ?_⟩
  · obtain ⟨q, -, he⟩ := h.emitted hr hl hm
    rw [pow_succ, Nat.mul_comm]
    exact he.fresh
  · obtain ⟨q, hq, he⟩ := h.emitted hr hl hm
    obtain ⟨hlt, hj, hd, hlev⟩ := h.found hT hr hl (List.mem_of_getElem? hq)
    rw [hidx he]
    exact subtree_concat (h.subtree _ (by omega)) (h.subtree _ hj) hd hlev
  · obtain ⟨q, hq, he⟩ := h.emitted hr hl hm
    obtain ⟨hlt, hj, -, -⟩ := h.found hT hr hl (List.mem_of_getElem? hq)
    rw [hidx he, he.hash]
    exact h.emitted_hash hT hr (by omega) hj
  · -- equal tuples come from one pair, and a pair is found once
    obtain ⟨q, hq, he⟩ := h.emitted hr hl hm
    obtain ⟨q', hq', he'⟩ := h.emitted hr hl hm'
    obtain ⟨hlt, hj, -, -⟩ := h.found hT hr hl (List.mem_of_getElem? hq)
    obtain ⟨hlt', hj', -, -⟩ := h.found hT hr hl (List.mem_of_getElem? hq')
    rw [hidx he, hidx he'] at heq
    have hqq := h.pair_inj hlt hj hlt' hj' heq
    subst hqq
    exact (List.getElem?_inj (List.getElem?_eq_some_iff.mp hq).1 (h.pairInv hr hl).nodup).mp
      (hq.trans hq'.symm)

/-- Where no bucket and no buffer overflows, no subtree is lost. -/
theorem GpuLevel.round_full (h : GpuLevel T r n buf) (hT : Wide T) (hr : r < 5)
    (hl : (levelLog sched r n buf rowsOut slots).Legal) (hf : FullLevel T r n buf)
    (hb : ∀ b < numBuckets, (levelLog sched r n buf rowsOut slots).buckets.counts b ≤ maxPerBucket)
    (hc : (levelLog sched r n buf rowsOut slots).pairs.outCount ≤ maxRows) :
    FullLevel T (r + 1) (levelLog sched r n buf rowsOut slots).pairs.outCount
      (levelLog sched r n buf rowsOut slots).pairs.rowsOut := by
  have hinv := h.pairInv hr hl
  have hok := h.passOk hr hl
  -- a colliding pair of rows, the smaller id first, is found
  have hfind : ∀ i j, i < j → j < n →
      (rowIndices buf (2 ^ r) i).Disjoint (rowIndices buf (2 ^ r) j) →
      T.level r (T.xorOf (rowIndices buf (2 ^ r) i)) =
        T.level r (T.xorOf (rowIndices buf (2 ^ r) j)) →
      ∃ m < (levelLog sched r n buf rowsOut slots).pairs.outCount,
        rowIndices (levelLog sched r n buf rowsOut slots).pairs.rowsOut (2 ^ (r + 1)) m =
          concatCanonical (rowIndices buf (2 ^ r) i) (rowIndices buf (2 ^ r) j) := by
    intro i j hij hj hd hlev
    obtain ⟨s, hs, he⟩ := hok.slots.all i j hj
      ((h.bucket_iff hT hr.le (by omega) hj).mpr hlev).symm (hb _ (bucketOf_lt buf i))
    have hmem := hinv.complete hc i (by change i < n; omega) s
      (lt_of_lt_of_le hs (hl.2 i (by change i < n; omega))) hs (by omega)
      (by rw [he]; exact (distinctIndicesIn_iff _ _ _ _).mpr hd)
    rw [he] at hmem
    obtain ⟨m, hm, hget⟩ := List.getElem_of_mem hmem
    refine ⟨m, by rw [hinv.count]; exact hm, ?_⟩
    have hrow := hinv.rows m (by have := hinv.count; change m < maxRows; omega) (i, j)
      (by rw [List.getElem?_eq_getElem hm, hget])
    rw [pow_succ, Nat.mul_comm]
    exact hrow.indices
  intro t ht
  obtain ⟨a, b, rfl, ha, hb', hd, hlt, hlev⟩ := subtree_succ.mp ht
  obtain ⟨i, hi, rfl⟩ := hf a ha
  obtain ⟨j, hj, rfl⟩ := hf b hb'
  have hcat : concatCanonical (rowIndices buf (2 ^ r) i) (rowIndices buf (2 ^ r) j) =
      rowIndices buf (2 ^ r) i ++ rowIndices buf (2 ^ r) j := by rw [concatCanonical, if_pos hlt]
  rcases Nat.lt_trichotomy i j with hij | rfl | hij
  · obtain ⟨m, hm, he⟩ := hfind i j hij hj hd hlev
    exact ⟨m, hm, he.trans hcat⟩
  · exact absurd hlt (UInt32.lt_irrefl _)
  · obtain ⟨m, hm, he⟩ := hfind j i hij hi (List.disjoint_comm.mp hd) hlev.symm
    refine ⟨m, hm, he.trans ?_⟩
    rw [concatCanonical_comm (head_ne_of_disjoint hb'.ne_nil ha.ne_nil (List.disjoint_comm.mp hd)),
      hcat]

/-! ### Counting the pairs -/

theorem mem_collisions {log : RoundLog} {q : ℕ × ℕ} : q ∈ log.collisions ↔
    q.1 < log.params.nRows ∧ q.1 < q.2 ∧
      distinctIndicesIn log.params log.rowsIn q.1 q.2 = true ∧
      ∃ s < slotCount log.rowsIn log.buckets q.1, q.2 = slotRow log.rowsIn log.buckets q.1 s := by
  simp only [RoundLog.collisions, List.mem_flatMap, List.mem_range, List.mem_filter, List.mem_map,
    Bool.and_eq_true, decide_eq_true_eq]
  constructor
  · rintro ⟨i, hi, ⟨s, hs, rfl⟩, hlt, hd⟩
    exact ⟨hi, hlt, hd, s, hs, rfl⟩
  · rintro ⟨hi, hlt, hd, s, hs, he⟩
    exact ⟨q.1, hi, ⟨s, hs, by rw [← he]⟩, hlt, hd⟩

theorem collisions_nodup {log : RoundLog} (hs : SlotsOk log.params log.rowsIn log.buckets) :
    log.collisions.Nodup := by
  refine List.nodup_flatMap.mpr ⟨fun i _ => ?_, ?_⟩
  · refine List.Nodup.filter _ ((List.nodup_map_iff_inj_on List.nodup_range).mpr ?_)
    intro s hs' t ht he
    exact hs.inj i s t (List.mem_range.mp hs') (List.mem_range.mp ht) (Prod.mk.inj he).2
  · refine List.nodup_range.imp fun {i j} hne => ?_
    refine List.disjoint_left.mpr fun {q} hq hq' => ?_
    obtain ⟨s, -, rfl⟩ := List.mem_map.mp (List.mem_filter.mp hq).1
    obtain ⟨t, -, he⟩ := List.mem_map.mp (List.mem_filter.mp hq').1
    exact hne (Prod.mk.inj he).1.symm

/-- A finished pass counts past the buffer exactly when it has more pairs than the buffer has rows. -/
theorem GpuLevel.overflow_iff (h : GpuLevel T r n buf) (hr : r < 5)
    (hl : (levelLog sched r n buf rowsOut slots).Legal) :
    maxRows < (levelLog sched r n buf rowsOut slots).pairs.outCount ↔
      maxRows < (levelLog sched r n buf rowsOut slots).collisions.length := by
  have hinv := h.pairInv hr hl
  have hok := h.passOk hr hl
  constructor
  · intro hlt
    have hsub : (levelLog sched r n buf rowsOut slots).pairs.found ⊆
        (levelLog sched r n buf rowsOut slots).collisions := fun q hq => by
      obtain ⟨h₁, h₂, h₃, s, -, hs, he⟩ := hinv.sound q hq
      exact mem_collisions.mpr ⟨h₁, h₂, h₃, s, hs, he⟩
    have := (List.subperm_of_subset hinv.nodup hsub).length_le
    rw [hinv.count] at hlt
    omega
  · intro hlt
    by_contra hcap
    have hsub : (levelLog sched r n buf rowsOut slots).collisions ⊆
        (levelLog sched r n buf rowsOut slots).pairs.found := fun q hq => by
      obtain ⟨h₁, h₂, h₃, s, hs, he⟩ := mem_collisions.mp hq
      have := hinv.complete (Nat.le_of_not_lt hcap) q.1 h₁ s (lt_of_lt_of_le hs (hl.2 q.1 h₁)) hs
        (he ▸ h₂) (he ▸ h₃)
      have hq' : (q.1, slotRow buf (levelLog sched r n buf rowsOut slots).buckets q.1 s) = q :=
        Prod.ext rfl he.symm
      rwa [hq'] at this
    have := (List.subperm_of_subset (collisions_nodup hok.slots) hsub).length_le
    rw [← hinv.count] at this
    omega

end Equium.Gpu
