import Equium.Gpu.RunNonce

/-! @src clients/gpu-miner/src/shaders/rounds.wgsl, wagner.rs | name:buffer capacity |
    scheme:counting subtrees

    When the buffers of the pipeline are large enough: a condition on the table alone. The rows of a
    bucket, of a round and of the last scan are subtrees, none twice, so a table with few enough
    subtrees overflows nothing, whatever the order of the increments. -/

namespace Equium.Gpu
open Schemes Solver

variable {T : LeafTable} {r n : ℕ} {buf : Buffer}

/-- Few subtrees with the same bytes at a level, few subtrees at a level, and few solutions. -/
structure Roomy (T : LeafTable) : Prop where
  buckets : ∀ r < 5, ∀ ts : List (List UInt32), ts.Nodup → (∀ t ∈ ts, T.Subtree r t) →
    (∀ t ∈ ts, ∀ u ∈ ts, T.level r (T.xorOf t) = T.level r (T.xorOf u)) →
    ts.length ≤ maxPerBucket
  rows : ∀ r < 5, ∀ ts : List (List UInt32), ts.Nodup → (∀ t ∈ ts, T.Subtree (r + 1) t) →
    ts.length ≤ maxRows
  candidates : ∀ ts : List (List UInt32), ts.Nodup → (∀ t ∈ ts, T.Solution t) →
    ts.length ≤ maxSolutions

/-- No bucket of a round overflows: its members are subtrees that collide. -/
theorem GpuLevel.buckets_fit (h : GpuLevel T r n buf) (hT : Wide T) (hr : r < 5) (hroom : Roomy T)
    {order : List ℕ} (hc : Covers order n) (slots : ℕ → ℕ) (b : ℕ) :
    (order.foldl (countBuckets ⟨n, maxRows, 2 ^ r⟩ buf) ⟨fun _ => 0, slots⟩).counts b ≤
      maxPerBucket := by
  rw [(countInv_pass _ _ slots order).counts, ← List.length_map (f := rowIndices buf (2 ^ r))]
  have hmem : ∀ m ∈ members ⟨n, maxRows, 2 ^ r⟩ buf order b, m < n ∧ bucketOf buf m = b :=
    fun m hm => of_decide_eq_true (List.mem_filter.mp hm).2
  refine hroom.buckets r hr _ ?_ (fun t ht => ?_) fun t ht u hu => ?_
  · refine (List.nodup_map_iff_inj_on (hc.1.filter _)).mpr fun m hm m' hm' he => ?_
    exact h.inj m (hmem m hm).1 m' (hmem m' hm').1 he
  · obtain ⟨m, hm, rfl⟩ := List.mem_map.mp ht
    exact h.subtree m (hmem m hm).1
  · obtain ⟨m, hm, rfl⟩ := List.mem_map.mp ht
    obtain ⟨m', hm', rfl⟩ := List.mem_map.mp hu
    obtain ⟨hn, hb⟩ := hmem m hm
    obtain ⟨hn', hb'⟩ := hmem m' hm'
    exact (h.bucket_iff hT hr.le hn hn').mp (hb.trans hb'.symm)

/-- No round finds too many pairs: different pairs make different subtrees. -/
theorem GpuLevel.rows_fit (h : GpuLevel T r n buf) (hT : Wide T) (hr : r < 5) (hroom : Roomy T)
    {sched : RoundSchedule} {rowsOut : Buffer} {slots : ℕ → ℕ}
    (hl : (levelLog sched r n buf rowsOut slots).Legal) :
    (levelLog sched r n buf rowsOut slots).collisions.length ≤ maxRows := by
  refine Nat.le_of_not_lt fun hover => ?_
  rw [← h.overflow_iff hr hl, (h.pairInv hr hl).count] at hover
  have hrows := fun q hq => h.found hT hr hl (q := q) hq
  rw [← List.length_map (f := fun q : ℕ × ℕ =>
    concatCanonical (rowIndices buf (2 ^ r) q.1) (rowIndices buf (2 ^ r) q.2))] at hover
  refine absurd (hroom.rows r hr _ ?_ fun t ht => ?_) (Nat.not_le.mpr hover)
  · refine (List.nodup_map_iff_inj_on (h.pairInv hr hl).nodup).mpr fun q hq q' hq' he => ?_
    obtain ⟨hlt, hn, -, -⟩ := hrows q hq
    obtain ⟨hlt', hn', -, -⟩ := hrows q' hq'
    exact h.pair_inj hlt hn hlt' hn' he
  · obtain ⟨q, hq, rfl⟩ := List.mem_map.mp ht
    obtain ⟨hlt, hn, hd, hlev⟩ := hrows q hq
    exact subtree_concat (h.subtree _ (by omega)) (h.subtree _ hn) hd hlev

/-- The last scan finds no more than there are solutions. -/
theorem ScanFound.fits {st : ScanState} (hf : ScanFound T n buf st) (h : GpuLevel T 5 n buf)
    (hroom : Roomy T) : st.outCount ≤ maxSolutions := by
  rw [hf.count, ← List.length_map (f := rowIndices buf indicesMax)]
  refine hroom.candidates _ ?_ fun t ht => ?_
  · refine (List.nodup_map_iff_inj_on hf.once).mpr fun i hi j hj he => ?_
    exact h.inj i (hf.row i hi).1 j (hf.row j hj).1 he
  · obtain ⟨i, hi, rfl⟩ := List.mem_map.mp ht
    exact (hf.row i hi).2

end Equium.Gpu
