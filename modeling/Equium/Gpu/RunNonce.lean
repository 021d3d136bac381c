import Equium.Gpu.Levels
import Equium.Solver.TryNonce

/-! @src clients/gpu-miner/src/wagner.rs | name:run_nonce | scheme:refinement of the CPU rounds

    The whole pipeline over one table of leaves: `init_rows` makes the level-0 buffer, each round of
    passes goes one level up, `solution_scan` picks the rows whose hash words are zero. -/

namespace Equium.Gpu
open Schemes Solver

variable {T : LeafTable} {r n : ℕ} {buf : Buffer}

/-! ### The table -/

/-- The leaves as the GPU has them: three little-endian words each. -/
def packLeaves (leaf : UInt32 → List UInt8) (a : ℕ) : UInt32 :=
  word4 (((leaf (UInt32.ofNat (a / 3))).drop (4 * (a % 3))).take 4)

/-- The same leaves as one string of bytes. -/
def leafTableBytes (leaf : UInt32 → List UInt8) : List UInt8 :=
  (List.range nLeaves).flatMap fun i => leaf (UInt32.ofNat i)

theorem leaf_length {leaf : UInt32 → List UInt8}
    (hlen : ∀ i : UInt32, i.toNat < nLeaves → (leaf i).length = 12) {m : ℕ} (hm : m < nLeaves) :
    (leaf (UInt32.ofNat m)).length = 12 :=
  hlen _ (by rwa [UInt32.toNat_ofNat_of_lt' (hm.trans (by decide))])

theorem leafTableBytes_length {leaf : UInt32 → List UInt8}
    (hlen : ∀ i : UInt32, i.toNat < nLeaves → (leaf i).length = 12) :
    (leafTableBytes leaf).length = nLeaves * 12 := by
  have hmap : (List.range nLeaves).map (fun i => (leaf (UInt32.ofNat i)).length) =
      List.replicate nLeaves 12 :=
    List.eq_replicate_iff.mpr ⟨by simp, fun b hb => by
      obtain ⟨i, hi, rfl⟩ := List.mem_map.mp hb
      exact leaf_length hlen (List.mem_range.mp hi)⟩
  rw [leafTableBytes, List.length_flatMap, hmap, List.sum_replicate_nat]

theorem tableLeaf_bytes {leaf : UInt32 → List UInt8}
    (hlen : ∀ i : UInt32, i.toNat < nLeaves → (leaf i).length = 12) {i : UInt32}
    (hi : i.toNat < nLeaves) : tableLeaf (leafTableBytes leaf) 12 i = leaf i := by
  rw [tableLeaf, leafTableBytes, flatMap_block
    (fun j hj => leaf_length hlen (List.mem_range.mp hj)) i.toNat (by simpa)]
  simp

theorem params96 : Solver.Params 96 5 := ⟨by decide, by decide, by decide⟩

/-- A (96, 5) table of leaves. -/
def table96 (leaf : UInt32 → List UInt8)
    (hlen : ∀ i : UInt32, i.toNat < nLeaves → (leaf i).length = 12) : LeafTable :=
  params96.table leaf hlen

theorem table96_wide (leaf : UInt32 → List UInt8)
    (hlen : ∀ i : UInt32, i.toNat < nLeaves → (leaf i).length = 12) : Wide (table96 leaf hlen) :=
  ⟨rfl, rfl, rfl⟩

/-- The rows of the CPU solver after `r` rounds on the same leaves. -/
def cpuRows (leaf : UInt32 → List UInt8) (r : ℕ) : List Row :=
  iterRound 16 r (leafRows nLeaves leaf)

theorem cpuRows_level (leaf : UInt32 → List UInt8)
    (hlen : ∀ i : UInt32, i.toNat < nLeaves → (leaf i).length = 12) (hr : r ≤ 5) :
    Level (table96 leaf hlen) r (cpuRows leaf r) := params96.level hlen hr

/-- A buffer row read as a CPU row: the hash bytes still in use and the index words in use. -/
def decodeRow (r : ℕ) (b : Buffer) (m : ℕ) : Row :=
  ⟨(bytes12 (rowHash b m)).take (12 - 2 * r), rowIndices b (2 ^ r) m⟩

theorem GpuLevel.decode_mem {rows : List Row} (h : GpuLevel T r n buf) (hT : Wide T)
    (hrows : Level T r rows) {m : ℕ} (hm : m < n) : decodeRow r buf m ∈ rows := by
  have hlen := hT.xorOf_length (h.subtree m hm)
  have hdec : decodeRow r buf m = ⟨(T.xorOf (rowIndices buf (2 ^ r) m)).drop (r * T.cbytes),
      rowIndices buf (2 ^ r) m⟩ := by
    rw [decodeRow, h.hash m hm, hT.cbytes, Nat.mul_comm r 2,
      List.take_left' (by rw [List.length_drop, hlen])]
  rw [hdec]
  exact hrows.mem_of_subtree (h.subtree m hm)

/-! ### init_rows -/

/-- Row `i` holds leaf `i`. -/
structure InitRow (leaves : ℕ → UInt32) (out : Buffer) (i : ℕ) : Prop where
  hash : rowHash out i = (leaves (i * 3), leaves (i * 3 + 1), leaves (i * 3 + 2))
  index : readIndexIn out i 0 = UInt32.ofNat i
  fresh : freshRow out 1 i = true

theorem initRows_row {p : Params} {leaves : ℕ → UInt32} (out : Buffer) {i : ℕ} (hi : i < p.nRows) :
    InitRow leaves (initRows p leaves out i) i ∧
      ∀ m, m ≠ i → SameRow out (initRows p leaves out i) m := by
  rw [initRows, if_neg (by omega)]
  have hat : ∀ d v, (i * rowWords + d, v) ∈ [(i * rowWords, leaves (i * 3)),
      (i * rowWords + 1, leaves (i * 3 + 1)), (i * rowWords + 2, leaves (i * 3 + 2)),
      (i * rowWords + hashWords, UInt32.ofNat i)] → _ := fun d v hm =>
    writeAll_at (b := out) hm (by
      intro w hw he
      unfold hashWords at hm hw
      simp only [List.mem_cons, List.not_mem_nil, or_false, Prod.mk.injEq] at hm hw
      rcases hm with ⟨h₁, rfl⟩ | ⟨h₁, rfl⟩ | ⟨h₁, rfl⟩ | ⟨h₁, rfl⟩ <;>
        rcases hw with rfl | rfl | rfl | rfl <;> first | rfl | (exfalso; dsimp only at he; omega))
  refine ⟨⟨Prod.ext (hat 0 _ (by simp)).1 (Prod.ext (hat 1 _ (by simp)).1 (hat 2 _ (by simp)).1),
    (hat hashWords _ (by simp)).1, ?_⟩, fun m hm => writeAll_sameRow ?_ hm⟩
  · rw [freshRow_iff]
    intro k hk
    rw [show k = 0 by omega]
    exact (hat hashWords (UInt32.ofNat i) (by simp)).2
  · intro w hw
    simp only [List.mem_cons, List.not_mem_nil, or_false] at hw
    rcases hw with rfl | rfl | rfl | rfl
    exacts [⟨0, by decide, rfl⟩, ⟨1, by decide, rfl⟩, ⟨2, by decide, rfl⟩, ⟨hashWords, by decide, rfl⟩]

/-- Run lemma: after any order every invocation that ran has made its row. -/
theorem initRows_pass {p : Params} {leaves : ℕ → UInt32} (out : Buffer) (order : List ℕ) :
    ∀ m ∈ order, m < p.nRows → InitRow leaves (order.foldl (initRows p leaves) out) m := by
  induction order using List.reverseRecOn with
  | nil => simp
  | append_singleton order i ih =>
    intro m hm hlt
    rw [List.foldl_concat]
    generalize order.foldl (initRows p leaves) out = done at ih
    by_cases hi : i < p.nRows
    · by_cases hmi : m = i
      · subst hmi
        exact (initRows_row done hi).1
      · have hs := (@initRows_row p leaves done i hi).2 m hmi
        have hrow := ih m (by simpa [hmi] using hm) hlt
        have hone : rowIndices (initRows p leaves done i) 1 m = rowIndices done 1 m :=
          hs.indices (by decide)
        refine ⟨hs.hash.trans hrow.hash, ?_, (hs.fresh (by decide)).trans hrow.fresh⟩
        rw [← hrow.index]
        exact List.singleton_inj.mp hone
    · have hmi : m ≠ i := by rintro rfl; exact hi hlt
      rw [initRows, if_pos (by omega)]
      exact ih m (by simpa [hmi] using hm) hlt

/-- The pass reads three words for each row. -/
theorem initRows_congr {p : Params} {leaves leaves' : ℕ → UInt32}
    (h : ∀ a < 3 * p.nRows, leaves a = leaves' a) : initRows p leaves = initRows p leaves' := by
  funext out i
  rw [initRows, initRows]
  split_ifs with hi
  · rfl
  · dsimp only
    rw [h (i * 3) (by omega), h (i * 3 + 1) (by omega), h (i * 3 + 2) (by omega)]

/-- A nonce depends on the leaves only. -/
theorem runNonce_congr {leaves leaves' : ℕ → UInt32} (h : ∀ a < 3 * nLeaves, leaves a = leaves' a)
    (S : Schedule) (dev : Device) : runNonce S leaves dev = runNonce S leaves' dev := by
  rw [runNonce, runNonce, @initRows_congr ⟨nLeaves, maxRows, 1⟩ leaves leaves' h]

/-- The three words of a leaf. -/
theorem packLeaves_row (leaf : UInt32 → List UInt8) (i : ℕ) :
    (packLeaves leaf (i * 3), packLeaves leaf (i * 3 + 1), packLeaves leaf (i * 3 + 2)) =
      (word4 ((leaf (UInt32.ofNat i)).take 4), word4 (((leaf (UInt32.ofNat i)).drop 4).take 4),
        word4 (((leaf (UInt32.ofNat i)).drop 8).take 4)) := by
  have hword : ∀ d < 3, packLeaves leaf (i * 3 + d) =
      word4 (((leaf (UInt32.ofNat i)).drop (4 * d)).take 4) := fun d hd => by
    rw [packLeaves, show (i * 3 + d) / 3 = i by omega, show (i * 3 + d) % 3 = d by omega]
  exact Prod.ext (hword 0 (by decide)) (Prod.ext (hword 1 (by decide)) (hword 2 (by decide)))

/-- Three packed words are the leaf. -/
theorem bytes12_packLeaves {leaf : UInt32 → List UInt8} {i : ℕ}
    (hlen : (leaf (UInt32.ofNat i)).length = 12) : bytes12 (packLeaves leaf (i * 3),
      packLeaves leaf (i * 3 + 1), packLeaves leaf (i * 3 + 2)) = leaf (UInt32.ofNat i) := by
  rw [packLeaves_row, bytes12, bytes4_word4 (by simp [hlen]), bytes4_word4 (by simp [hlen]),
    bytes4_word4 (by simp [hlen])]
  obtain ⟨b, hb⟩ : ∃ b, b = leaf (UInt32.ofNat i) := ⟨_, rfl⟩
  rw [← hb] at hlen ⊢
  calc b.take 4 ++ (b.drop 4).take 4 ++ (b.drop 8).take 4
      = b.take 4 ++ ((b.drop 4).take 4 ++ ((b.drop 4).drop 4).take 4) := by
        rw [List.append_assoc, List.drop_drop]
    _ = b.take 4 ++ (b.drop 4).take 8 := by rw [← List.take_add]
    _ = b.take 12 := by rw [← List.take_add]
    _ = b := List.take_of_length_le (by omega)

variable {leaf : UInt32 → List UInt8}

/-- The level-0 buffer: every leaf, once. -/
theorem init_level (hlen : ∀ i : UInt32, i.toNat < nLeaves → (leaf i).length = 12) (out : Buffer)
    {order : List ℕ} (hc : Covers order nLeaves) :
    GpuLevel (table96 leaf hlen) 0 nLeaves
      (order.foldl (initRows ⟨nLeaves, maxRows, 1⟩ (packLeaves leaf)) out) ∧
    FullLevel (table96 leaf hlen) 0 nLeaves
      (order.foldl (initRows ⟨nLeaves, maxRows, 1⟩ (packLeaves leaf)) out) := by
  have hrow := fun m (hm : m < nLeaves) =>
    @initRows_pass ⟨nLeaves, maxRows, 1⟩ (packLeaves leaf) out order m (hc.2 m hm) hm
  generalize order.foldl (initRows ⟨nLeaves, maxRows, 1⟩ (packLeaves leaf)) out = done at hrow
  have hnat : ∀ m < nLeaves, (UInt32.ofNat m).toNat = m := fun m hm =>
    UInt32.toNat_ofNat_of_lt' (lt_trans hm (by decide))
  have hidx : ∀ m < nLeaves, rowIndices done (2 ^ 0) m = [UInt32.ofNat m] := fun m hm => by
    rw [← (hrow m hm).index]
    rfl
  have hlt : ∀ m < nLeaves, (UInt32.ofNat m).toNat < (table96 leaf hlen).count := fun m hm => by
    rw [hnat m hm]; exact hm
  refine ⟨⟨fun m hm => (hrow m hm).fresh, fun m hm => ?_, fun m hm => ?_,
    fun m hm m' hm' he => ?_⟩, fun t ht => ?_⟩
  · rw [hidx m hm]
    exact subtree_zero.mpr ⟨_, hlt m hm, rfl⟩
  · have hleaf := hlen _ (hlt m hm)
    have hz := xor_zeros (leaf (UInt32.ofNat m))
    rw [hleaf] at hz
    rw [hidx m hm, (hrow m hm).hash, bytes12_packLeaves hleaf]
    exact (((Solver.xor_comm _ _).trans hz).symm).trans (List.append_nil _).symm
  · rw [hidx m hm, hidx m' hm', List.singleton_inj] at he
    rw [← hnat m hm, ← hnat m' hm', he]
  · obtain ⟨i, hi, rfl⟩ := subtree_zero.mp ht
    exact ⟨i.toNat, hi, by rw [hidx _ hi, UInt32.ofNat_toNat]⟩

/-! ### solution_scan -/

/-- The test of `solution_scan`. -/
def zeroHash (b : Buffer) (i : ℕ) : Bool := rowHash b i == (0, 0, 0)

variable {p : Params} {rowsIn : Buffer}

structure ScanInv (p : Params) (rowsIn : Buffer) (order : List ℕ) (st : ScanState) : Prop where
  count : st.outCount = st.found.length
  found : st.found = order.filter fun i => decide (i < p.nRows) && zeroHash rowsIn i
  rows : ∀ m < p.maxOutRows, ∀ i, st.found[m]? = some i →
    rowIndices st.rowsOut indicesMax m = rowIndices rowsIn indicesMax i ∧
      freshRow st.rowsOut indicesMax m = true
  fresh : st.stale = false

/-- The writes of a candidate. -/
def scanWrites (rowsIn : Buffer) (i m : ℕ) : List (ℕ × UInt32) :=
  [(m * rowWords, 0), (m * rowWords + 1, 0), (m * rowWords + 2, 0)] ++
    (List.range indicesMax).map fun k =>
      (m * rowWords + hashWords + k, readIndexIn rowsIn i k)

theorem mem_scanWrites {i m : ℕ} {w : ℕ × UInt32} : w ∈ scanWrites rowsIn i m ↔
    w = (m * rowWords, 0) ∨ w = (m * rowWords + 1, 0) ∨ w = (m * rowWords + 2, 0) ∨
      ∃ k < indicesMax, w = (m * rowWords + hashWords + k, readIndexIn rowsIn i k) := by
  simp [scanWrites, eq_comm]

theorem scanWrites_row (i m : ℕ) :
    ∀ w ∈ scanWrites rowsIn i m, ∃ k < rowWords, w.1 = m * rowWords + k := by
  intro w hw
  rcases mem_scanWrites.mp hw with rfl | rfl | rfl | ⟨k, hk, rfl⟩
  · exact ⟨0, by decide, rfl⟩
  · exact ⟨1, by decide, rfl⟩
  · exact ⟨2, by decide, rfl⟩
  · exact ⟨hashWords + k, by unfold hashWords rowWords; unfold indicesMax at hk; omega,
      Nat.add_assoc _ _ _⟩

/-- A candidate's slot is a copy of its index words. -/
theorem scanWrites_indices (out : Buffer) (i m : ℕ) :
    rowIndices (out.writeAll (scanWrites rowsIn i m)) indicesMax m =
        rowIndices rowsIn indicesMax i ∧
      freshRow (out.writeAll (scanWrites rowsIn i m)) indicesMax m = true := by
  have hat : ∀ k < indicesMax,
      readIndexIn (out.writeAll (scanWrites rowsIn i m)) m k = readIndexIn rowsIn i k ∧
      (out.writeAll (scanWrites rowsIn i m)).written (m * rowWords + hashWords + k) = true := by
    intro k hk
    refine writeAll_at (mem_scanWrites.mpr (.inr (.inr (.inr ⟨k, hk, rfl⟩)))) ?_
    intro w hw he
    rcases mem_scanWrites.mp hw with rfl | rfl | rfl | ⟨k', hk', rfl⟩ <;>
      unfold hashWords at he <;> dsimp only at he ⊢
    · omega
    · omega
    · omega
    · rw [show k' = k by omega]
  exact ⟨List.map_congr_left fun k hk => (hat k (List.mem_range.mp hk)).1,
    freshRow_iff.mpr fun k hk => (hat k hk).2⟩

/-- Step lemma for one invocation of the scan. -/
theorem ScanInv.step {order : List ℕ} {st : ScanState} (h : ScanInv p rowsIn order st)
    (hf : ∀ m < p.nRows, freshRow rowsIn indicesMax m = true) (i : ℕ) :
    ScanInv p rowsIn (order ++ [i]) (solutionScan p rowsIn st i) := by
  have hzero : zeroHash rowsIn i = true ↔ ¬ (readHashWord rowsIn i 0 ≠ 0 ∨
      readHashWord rowsIn i 1 ≠ 0 ∨ readHashWord rowsIn i 2 ≠ 0) := by
    simp [zeroHash, rowHash, not_or]
  by_cases hi : i ≥ p.nRows
  · rw [solutionScan, if_pos hi]
    refine ⟨h.count, ?_, h.rows, h.fresh⟩
    rw [List.filter_append, h.found]
    simp [Nat.not_lt.mpr hi]
  by_cases hz : zeroHash rowsIn i = true
  swap
  · simp only [solutionScan, if_neg hi, if_pos (not_not.mp (mt hzero.mpr hz))]
    refine ⟨h.count, ?_, h.rows, h.fresh⟩
    rw [List.filter_append, h.found]
    simp [hz]
  have hfound : st.found ++ [i] =
      (order ++ [i]).filter fun i => decide (i < p.nRows) && zeroHash rowsIn i := by
    rw [List.filter_append, h.found]
    simp [Nat.lt_of_not_le hi, hz]
  have hold : ∀ m, m < st.found.length → (st.found ++ [i])[m]? = st.found[m]? :=
    fun m hm => List.getElem?_append_left hm
  by_cases hover : st.outCount ≥ p.maxOutRows
  · simp only [solutionScan, if_neg hi, if_neg (hzero.mp hz), if_pos hover]
    refine ⟨by simp [h.count], hfound, fun m hm j hj => ?_, h.fresh⟩
    have hcount := h.count
    exact h.rows m hm j (by rwa [hold m (by omega)] at hj)
  · simp only [solutionScan, if_neg hi, if_neg (hzero.mp hz), if_neg hover]
    refine ⟨by simp [h.count], hfound, fun m hm j hj => ?_, by simp [h.fresh, hf i (by omega)]⟩
    have hcount := h.count
    dsimp only at hj ⊢
    change rowIndices (st.rowsOut.writeAll (scanWrites rowsIn i st.outCount)) indicesMax m = _ ∧
      freshRow (st.rowsOut.writeAll (scanWrites rowsIn i st.outCount)) indicesMax m = true
    by_cases hml : m < st.found.length
    · have hs := writeAll_sameRow (b := st.rowsOut) (@scanWrites_row rowsIn i st.outCount)
        (show m ≠ st.outCount by omega)
      obtain ⟨h₁, h₂⟩ := h.rows m hm j (by rwa [hold m hml] at hj)
      exact ⟨(hs.indices le_rfl).trans h₁, (hs.fresh le_rfl).trans h₂⟩
    · have hlen := (List.getElem?_eq_some_iff.mp hj).1
      rw [List.length_append, List.length_singleton] at hlen
      have hm' : m = st.outCount := by omega
      rw [hm', hcount, List.getElem?_concat_length] at hj
      cases hj
      rw [hm']
      exact scanWrites_indices _ _ _

theorem scanInv_pass (hf : ∀ m < p.nRows, freshRow rowsIn indicesMax m = true) (rowsOut : Buffer)
    (order : List ℕ) : ScanInv p rowsIn order
      (order.foldl (solutionScan p rowsIn) ⟨0, rowsOut.recycle, [], false⟩) := by
  induction order using List.reverseRecOn with
  | nil => exact ⟨rfl, rfl, by simp, rfl⟩
  | append_singleton order i ih =>
    rw [List.foldl_concat]
    exact ih.step hf i

/-! ### Candidates -/

/-- The first bytes of a subtree's XOR have cancelled. -/
theorem Wide.prefix_zero (hT : Wide T) {rows : List Row} (hrows : Level T 5 rows) {t : List UInt32}
    (ht : T.Subtree 5 t) : T.xorOf t = zeros 10 ++ (T.xorOf t).drop 10 := by
  obtain ⟨row, hrow, rfl⟩ := List.mem_map.mp ((hrows.exact t).mpr ht)
  have hh := hrows.hash row hrow
  rw [hT.cbytes] at hh
  rw [hh, List.drop_left' (zeros_length 10)]

/-- The scan picks the rows whose leaves cancel. -/
theorem GpuLevel.zeroHash_iff (h : GpuLevel T 5 n buf) (hT : Wide T) {rows : List Row}
    (hrows : Level T 5 rows) {m : ℕ} (hm : m < n) :
    zeroHash buf m = true ↔ T.Solution (rowIndices buf indicesMax m) := by
  have hsub : T.Subtree 5 (rowIndices buf indicesMax m) := h.subtree m hm
  have hlen := hT.xorOf_length hsub
  have hh : bytes12 (rowHash buf m) = (T.xorOf (rowIndices buf indicesMax m)).drop 10 ++ zeros 10 :=
    h.hash m hm
  have hz : bytes12 (0, 0, 0) = zeros 2 ++ zeros 10 := by decide
  rw [zeroHash, beq_iff_eq, LeafTable.Solution, hT.k, hT.cbytes]
  constructor
  · intro he
    rw [he, hz] at hh
    refine ⟨hsub, ?_⟩
    rw [hT.prefix_zero hrows hsub, ← (List.append_inj hh (by simp [hlen])).1]
    decide
  · rintro ⟨-, hx⟩
    refine bytes12_inj ?_
    rw [hh, hx, hz]
    decide

/-- What a finished scan returns. -/
structure ScanOk (T : LeafTable) (cands : List (List UInt32)) : Prop where
  once : cands.Nodup
  solutions : ∀ t ∈ cands, T.Solution t

theorem finish_result (order : List ℕ) (n : ℕ) (rowsIn rowsOut : Buffer) :
    (finish order n rowsIn rowsOut).result = .ok ((List.range (min
      (order.foldl (solutionScan ⟨n, maxRows, 32⟩ rowsIn)
        ⟨0, rowsOut.recycle, [], false⟩).outCount maxSolutions)).map
      (rowIndices (order.foldl (solutionScan ⟨n, maxRows, 32⟩ rowsIn)
        ⟨0, rowsOut.recycle, [], false⟩).rowsOut indicesMax)) := rfl

/-- What the last scan has found: the rows of the solutions, each once, one slot for each. -/
structure ScanFound (T : LeafTable) (n : ℕ) (buf : Buffer) (st : ScanState) : Prop where
  count : st.outCount = st.found.length
  once : st.found.Nodup
  row : ∀ i ∈ st.found, i < n ∧ T.Solution (rowIndices buf indicesMax i)
  all : ∀ i < n, T.Solution (rowIndices buf indicesMax i) → i ∈ st.found
  slot : ∀ m (hm : m < st.found.length), m < maxRows →
    rowIndices st.rowsOut indicesMax m = rowIndices buf indicesMax st.found[m] ∧
      freshRow st.rowsOut indicesMax m = true
  fresh : st.stale = false

theorem finish_found (h : GpuLevel T 5 n buf) (hT : Wide T) {rows : List Row}
    (hrows : Level T 5 rows) {order : List ℕ} (hc : Covers order n) (rowsOut : Buffer)
    {p : Params} {st : ScanState} (hscan : (finish order n buf rowsOut).scan = some (p, st)) :
    ScanFound T n buf st := by
  have hinv := scanInv_pass (p := ⟨n, maxRows, 32⟩) h.fresh rowsOut order
  have hst : st = order.foldl (solutionScan ⟨n, maxRows, 32⟩ buf)
      ⟨0, rowsOut.recycle, [], false⟩ := (Prod.mk.inj (Option.some.inj hscan)).2.symm
  rw [← hst] at hinv
  refine ⟨hinv.count, ?_, fun i hi => ?_, fun i hi ht => ?_, fun m hm hmax => ?_, hinv.fresh⟩
  · rw [hinv.found]
    exact hc.1.filter _
  · rw [hinv.found] at hi
    obtain ⟨hn, hz⟩ : i < n ∧ zeroHash buf i = true := by simpa using (List.mem_filter.mp hi).2
    exact ⟨hn, (h.zeroHash_iff hT hrows hn).mp hz⟩
  · rw [hinv.found]
    have hz := (h.zeroHash_iff hT hrows hi).mpr ht
    exact List.mem_filter.mpr ⟨hc.2 i hi, by simpa [hi] using hz⟩
  · exact hinv.rows m hmax _ (List.getElem?_eq_getElem hm)

/-- The last stage: solutions only, none twice, and all of them if they fit. -/
theorem finish_spec (h : GpuLevel T 5 n buf) (hT : Wide T) {rows : List Row}
    (hrows : Level T 5 rows) {order : List ℕ} (hc : Covers order n) (rowsOut : Buffer)
    {p : Params} {st : ScanState} (hscan : (finish order n buf rowsOut).scan = some (p, st)) :
    st.stale = false ∧ (∀ m < min st.outCount maxSolutions,
        freshRow st.rowsOut indicesMax m = true) ∧
      ∃ cands, (finish order n buf rowsOut).result = .ok cands ∧ ScanOk T cands ∧
        (st.outCount ≤ maxSolutions → FullLevel T 5 n buf → ∀ t, T.Solution t → t ∈ cands) := by
  have hf := finish_found h hT hrows hc rowsOut hscan
  have hst : st = order.foldl (solutionScan ⟨n, maxRows, 32⟩ buf)
      ⟨0, rowsOut.recycle, [], false⟩ := (Prod.mk.inj (Option.some.inj hscan)).2.symm
  have hcount := hf.count
  have hcap : maxSolutions ≤ maxRows := by decide
  -- the slot of a candidate is the tuple of the row it was found in
  have hslot : ∀ m < min st.outCount maxSolutions, ∃ hm : m < st.found.length,
      rowIndices st.rowsOut indicesMax m = rowIndices buf indicesMax st.found[m] ∧
        freshRow st.rowsOut indicesMax m = true :=
    fun m hm => ⟨by omega, hf.slot m (by omega) (by omega)⟩
  refine ⟨hf.fresh, fun m hm => (hslot m hm).2.2, _, finish_result order n buf rowsOut, ?_, ?_⟩
  · rw [← hst]
    refine ⟨(List.nodup_map_iff_inj_on List.nodup_range).mpr fun m hm m' hm' he => ?_, fun t ht => ?_⟩
    · obtain ⟨hlt, hrow, -⟩ := hslot m (List.mem_range.mp hm)
      obtain ⟨hlt', hrow', -⟩ := hslot m' (List.mem_range.mp hm')
      rw [hrow, hrow'] at he
      exact hf.once.getElem_inj_iff.mp (h.inj _ (hf.row _ (List.getElem_mem hlt)).1 _
        (hf.row _ (List.getElem_mem hlt')).1 he)
    · obtain ⟨m, hm, rfl⟩ := List.mem_map.mp ht
      obtain ⟨hlt, hrow, -⟩ := hslot m (List.mem_range.mp hm)
      rw [hrow]
      exact (hf.row _ (List.getElem_mem hlt)).2
  · intro hfit hfull t ht
    rw [← hst]
    obtain ⟨i, hi, rfl⟩ := hfull t (hT.k ▸ ht.1)
    obtain ⟨m, hm, hget⟩ := List.getElem_of_mem (hf.all i hi ht)
    refine List.mem_map.mpr ⟨m, List.mem_range.mpr (by omega), ?_⟩
    rw [(hf.slot m hm (by omega)).1, hget]
    rfl

/-! ### The host loop -/

/-- One turn of the host loop. -/
theorem hostRounds_succ (S : Schedule) (remaining r n : ℕ) (rowsIn rowsOut : Buffer)
    (slots : ℕ → ℕ) : hostRounds S (remaining + 1) r n rowsIn rowsOut slots =
      if (levelLog (S.round r) r n rowsIn rowsOut slots).pairs.outCount = 0 then
        ⟨[levelLog (S.round r) r n rowsIn rowsOut slots], none, .ok []⟩
      else if (levelLog (S.round r) r n rowsIn rowsOut slots).pairs.outCount > maxRows then
        ⟨[levelLog (S.round r) r n rowsIn rowsOut slots], none, .error (overflowMessage r
          (levelLog (S.round r) r n rowsIn rowsOut slots).pairs.outCount)⟩
      else
        { hostRounds S remaining (r + 1)
            (levelLog (S.round r) r n rowsIn rowsOut slots).pairs.outCount
            (levelLog (S.round r) r n rowsIn rowsOut slots).pairs.rowsOut rowsIn
            (levelLog (S.round r) r n rowsIn rowsOut slots).buckets.slots with
          logs := levelLog (S.round r) r n rowsIn rowsOut slots ::
            (hostRounds S remaining (r + 1)
              (levelLog (S.round r) r n rowsIn rowsOut slots).pairs.outCount
              (levelLog (S.round r) r n rowsIn rowsOut slots).pairs.rowsOut rowsIn
              (levelLog (S.round r) r n rowsIn rowsOut slots).buckets.slots).logs } := rfl

theorem hostRounds_head (S : Schedule) (remaining r n : ℕ) (rowsIn rowsOut : Buffer)
    (slots : ℕ → ℕ) : (hostRounds S (remaining + 1) r n rowsIn rowsOut slots).logs[0]? =
      some (levelLog (S.round r) r n rowsIn rowsOut slots) := by
  rw [hostRounds_succ]
  split_ifs <;> rfl

/-- A run has a first round. -/
theorem runNonce_head (S : Schedule) (leaves : ℕ → UInt32) (dev : Device) :
    ∃ log, (runNonce S leaves dev).logs[0]? = some log :=
  ⟨_, hostRounds_head S 4 0 nLeaves _ dev.rowsB dev.slots⟩

end Equium.Gpu
