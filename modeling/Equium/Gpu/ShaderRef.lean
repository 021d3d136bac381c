import Equium.Gpu.Sequential

/-! @src clients/gpu-miner/src/shader_ref.rs | name:the port of the shader | scheme:simulation

    `round_kernel` and `wagner_full`, the CPU port of the kernels that the repository tests against.
    Under the sequential order each round of the passes leaves the port's rows, in the port's order,
    and the candidates are the port's. -/

namespace Equium.Gpu
open Schemes Solver

/-- `RowFixed`. -/
structure RowFixed where
  hash : UInt32 × UInt32 × UInt32
  indices : Vector UInt32 indicesMax
deriving DecidableEq, Repr

namespace ShaderRef

def zero : RowFixed := ⟨(0, 0, 0), Vector.replicate indicesMax 0⟩

def packInitialRow (leaf : List UInt8) (leafIdx : UInt32) : RowFixed :=
  ⟨(word4 (leaf.take 4), word4 ((leaf.drop 4).take 4), word4 ((leaf.drop 8).take 4)),
    zero.indices.set 0 leafIdx (by decide)⟩

def extractBucket (hash : UInt32 × UInt32 × UInt32) : UInt32 :=
  let w0 := hash.1
  let b0 := w0 &&& 0xFF
  let b1 := (w0 >>> 8) &&& 0xFF
  (b0 <<< 8) ||| b1

/-- The index words in use. -/
def live (n : ℕ) (row : RowFixed) : List UInt32 := row.indices.toList.take n

def distinctIndicesKernel (a b : RowFixed) (n : ℕ) : Bool :=
  (live n a).all fun x => (live n b).all fun y => x != y

def xorAndTrim (a b : UInt32 × UInt32 × UInt32) : UInt32 × UInt32 × UInt32 :=
  let h0 := a.1 ^^^ b.1
  let h1 := a.2.1 ^^^ b.2.1
  let h2 := a.2.2 ^^^ b.2.2
  ((h0 >>> 16) ||| (h1 <<< 16), (h1 >>> 16) ||| (h2 <<< 16), h2 >>> 16)

/-- `out[..n]` and `out[n..2 * n]` of a row of zeros; `2 * n` is at most `INDICES_MAX`. -/
def canonicalConcat (a b : RowFixed) (n : ℕ) : Vector UInt32 indicesMax :=
  let (first, second) := if a.indices.toList.headD 0 < b.indices.toList.headD 0 then (a, b) else (b, a)
  Vector.ofFn fun k => (live n first ++ live n second).getD k.val 0

/-- One row of pass 1: histogram and slot. -/
def scatter (s : Buckets) (x : RowFixed × ℕ) : Buckets :=
  let bucket := (extractBucket x.1.hash).toNat
  let slot := s.counts bucket
  { counts := Function.update s.counts bucket (slot + 1)
    slots := if slot < maxPerBucket then
        Function.update s.slots (bucket * maxPerBucket + slot) x.2
      else s.slots }

/-- One row of pass 2: its bucket, slot by slot. The slots in use hold row numbers. -/
def emitPeers (rowsIn : List RowFixed) (bk : Buckets) (n : ℕ) (x : RowFixed × ℕ) : List RowFixed :=
  let bucket := (extractBucket x.1.hash).toNat
  let cnt := min (bk.counts bucket) maxPerBucket
  let base := bucket * maxPerBucket
  (List.range cnt).filterMap fun s =>
    let j := bk.slots (base + s)
    if j ≤ x.2 then none
    else
      let other := rowsIn.getD j zero
      if !distinctIndicesKernel x.1 other n then none
      else some ⟨xorAndTrim x.1.hash other.hash, canonicalConcat x.1 other n⟩

/-- One round; `n` index words of each row are in use. -/
def roundKernel (rowsIn : List RowFixed) (n : ℕ) : List RowFixed :=
  let bk := rowsIn.zipIdx.foldl scatter ⟨fun _ => 0, fun _ => 0⟩
  rowsIn.zipIdx.flatMap (emitPeers rowsIn bk n)

/-- The rows `wagner_full` starts from: twelve bytes of the table each. -/
def initialRows (leaves : List UInt8) : List RowFixed :=
  (List.range (leaves.length / 12)).map fun i =>
    packInitialRow ((leaves.drop (i * 12)).take 12) (UInt32.ofNat i)

/-- The loop over the rounds, `k` of them from number `r` on. -/
def roundLoop (r k : ℕ) (rows : List RowFixed) : List RowFixed :=
  (List.range' r k).foldl (fun rows r => roundKernel rows (2 ^ r)) rows

def wagnerFull (leaves : List UInt8) : List RowFixed :=
  (roundLoop 0 5 (initialRows leaves)).filter fun row => row.hash == (0, 0, 0)

end ShaderRef

open ShaderRef

/-! ### Port rows and buffer rows -/

/-- The port's rows are the first `n` rows of the buffer, `c` index words each. -/
structure Mirrors (rows : List RowFixed) (c n : ℕ) (buf : Buffer) : Prop where
  length : rows.length = n
  hash : ∀ m < n, (rows.getD m zero).hash = rowHash buf m
  indices : ∀ m < n, live c (rows.getD m zero) = rowIndices buf c m

theorem zipIdx_eq (rows : List RowFixed) :
    rows.zipIdx = (List.range rows.length).map fun m => (rows.getD m zero, m) := by
  refine List.ext_getElem (by simp) fun m h₁ h₂ => ?_
  have hm : m < rows.length := by simpa using h₁
  rw [List.getElem_zipIdx, List.getElem_map, List.getElem_range, List.getD_eq_getElem _ _ hm,
    Nat.zero_add]

theorem rows_eq (rows : List RowFixed) :
    rows = (List.range rows.length).map fun m => rows.getD m zero := by
  have h := congrArg (List.map Prod.fst) (zipIdx_eq rows)
  rwa [List.zipIdx_map_fst, List.map_map] at h

theorem live_canonicalConcat (h : UInt32 × UInt32 × UInt32) (a b : RowFixed) {n : ℕ}
    (hn : 2 * n ≤ indicesMax) (hpos : 0 < n) :
    live (2 * n) ⟨h, canonicalConcat a b n⟩ = concatCanonical (live n a) (live n b) := by
  have hlen : ∀ x, (live n x).length = n := fun x => by simp [live]; omega
  have hhead : ∀ x, (live n x).headD 0 = x.indices.toList.headD 0 := fun x => by
    obtain ⟨n, rfl⟩ := Nat.exists_eq_succ_of_ne_zero hpos.ne'
    cases h : x.indices.toList <;> simp [live, h]
  have htake : ∀ x y, live (2 * n) ⟨h, Vector.ofFn fun k =>
      (live n x ++ live n y).getD k.val 0⟩ = live n x ++ live n y := fun x y => by
    refine List.ext_getElem ?_ fun k h₁ h₂ => ?_
    · simp [live]; omega
    · simp only [live, List.getElem_take, Vector.getElem_toList, Vector.getElem_ofFn]
      exact List.getD_eq_getElem _ _ h₂
  rw [concatCanonical, hhead, hhead, canonicalConcat]
  split_ifs <;> exact htake _ _

/-! ### One round -/

variable {T : LeafTable} {r n c m : ℕ} {buf rowsOut : Buffer} {slots : ℕ → ℕ} {p : Params}
  {bk : Buckets} {rows : List RowFixed}

/-- The port row made of a pair of rows. -/
def pairOf (rows : List RowFixed) (c : ℕ) (q : ℕ × ℕ) : RowFixed :=
  ⟨xorAndTrim (rows.getD q.1 zero).hash (rows.getD q.2 zero).hash,
    canonicalConcat (rows.getD q.1 zero) (rows.getD q.2 zero) c⟩

theorem Mirrors.bucket (h : Mirrors rows c n buf) (hm : m < n) :
    ShaderRef.extractBucket (rows.getD m zero).hash = Gpu.extractBucket buf m := by
  rw [h.hash m hm]
  rfl

theorem Mirrors.distinct (h : Mirrors rows p.indicesCountIn n buf) {i j : ℕ} (hi : i < n)
    (hj : j < n) : distinctIndicesKernel (rows.getD i zero) (rows.getD j zero) p.indicesCountIn =
      distinctIndicesIn p buf i j := by
  rw [distinctIndicesKernel, h.indices i hi, h.indices j hj]
  simp [distinctIndicesIn, rowIndices, List.all_map, Function.comp_def]

/-- Pass 1 of the port is the count pass over the rows in turn. -/
theorem Mirrors.scatter (h : Mirrors rows c p.nRows buf) :
    rows.zipIdx.foldl ShaderRef.scatter ⟨fun _ => 0, fun _ => 0⟩ =
      (List.range p.nRows).foldl (countBuckets p buf) ⟨fun _ => 0, fun _ => 0⟩ := by
  rw [zipIdx_eq, h.length, List.foldl_map]
  refine List.foldl_ext _ _ _ fun s i hi => ?_
  have hi : ¬ i ≥ p.nRows := Nat.not_le.mpr (List.mem_range.mp hi)
  simp only [ShaderRef.scatter, countBuckets, if_neg hi, h.bucket (Nat.lt_of_not_le hi)]

/-- Rows past the last are in no bucket. -/
theorem members_range (hn : p.nRows ≤ m) (b : ℕ) :
    members p buf (List.range m) b = members p buf (List.range p.nRows) b := by
  obtain ⟨d, rfl⟩ := Nat.exists_eq_add_of_le hn
  have hnone : members p buf ((List.range d).map (p.nRows + ·)) b = [] := by
    refine List.filter_eq_nil_iff.mpr fun i hi => ?_
    obtain ⟨e, -, rfl⟩ := List.mem_map.mp hi
    simp
  rw [List.range_add, members, List.filter_append, ← members, ← members, hnone, List.append_nil]

/-- Two tables filled in one order agree on the slots in use. -/
theorem CountInv.agree {order : List ℕ} {bk bk' : Buckets} (h : CountInv p buf order bk)
    (h' : CountInv p buf order bk') (i : ℕ) : slotCount buf bk i = slotCount buf bk' i ∧
      ∀ s < slotCount buf bk i, slotRow buf bk i s = slotRow buf bk' i s := by
  have hcount : bk.counts (bucketOf buf i) = bk'.counts (bucketOf buf i) :=
    (h.counts _).trans (h'.counts _).symm
  refine ⟨congrArg (min · maxPerBucket) hcount, fun s hs => ?_⟩
  obtain ⟨hlt, hmax⟩ := lt_min_iff.mp hs
  have hget := List.getElem?_eq_getElem (h.counts _ ▸ hlt)
  exact (h.slots _ s hmax _ hget).trans (h'.slots _ s hmax _ hget).symm

theorem CountInv.range (h : CountInv p buf (List.range m) bk) (hn : p.nRows ≤ m) :
    CountInv p buf (List.range p.nRows) bk :=
  ⟨fun b => members_range hn b ▸ h.counts b, fun b => members_range hn b ▸ h.slots b⟩

/-- A row of pass 2 emits the pairs of its slots. -/
theorem Mirrors.emitPeers (h : Mirrors rows p.indicesCountIn p.nRows buf) (hs : SlotsOk p buf bk)
    {i : ℕ} (hi : i < p.nRows) :
    ShaderRef.emitPeers rows bk p.indicesCountIn (rows.getD i zero, i) =
      (slotPairs p buf bk i (slotCount buf bk i)).map (pairOf rows p.indicesCountIn) := by
  rw [slotPairs, List.filter_map, List.map_map, ← List.filterMap_eq_map, List.filterMap_filter,
    ShaderRef.emitPeers]
  dsimp only
  rw [h.bucket hi]
  refine List.filterMap_congr fun s hmem => ?_
  have hlt : s < slotCount buf bk i := List.mem_range.mp hmem
  have hj := (hs.mem i s hlt).1
  change (if slotRow buf bk i s ≤ i then none else
    if (!distinctIndicesKernel (rows.getD i zero) (rows.getD (slotRow buf bk i s) zero)
      p.indicesCountIn) = true then none else some (pairOf rows p.indicesCountIn
        (i, slotRow buf bk i s))) = _
  rw [h.distinct hi hj]
  by_cases hle : slotRow buf bk i s ≤ i
  · simp [hle]
  · cases hd : distinctIndicesIn p buf i (slotRow buf bk i s) <;>
      simp [hle, hd, Nat.lt_of_not_le hle]

/-- The port makes one row of each pair that the sequential pass finds, in that order. -/
theorem Mirrors.roundKernel (h : Mirrors rows p.indicesCountIn p.nRows buf)
    (hbk : CountInv p buf (List.range m) bk) (hn : p.nRows ≤ m) :
    ShaderRef.roundKernel rows p.indicesCountIn =
      (rowPairs p buf bk p.nRows).map (pairOf rows p.indicesCountIn) := by
  have hport := countInv_pass p buf (fun _ => 0) (List.range p.nRows)
  rw [ShaderRef.roundKernel, h.scatter, zipIdx_eq, h.length, List.flatMap_map, rowPairs,
    List.map_flatMap]
  refine List.flatMap_congr fun i hi => ?_
  rw [h.emitPeers (hport.slotsOk (covers_range le_rfl)) (List.mem_range.mp hi)]
  obtain ⟨hcount, hrow⟩ := hport.agree (hbk.range hn) i
  rw [slotPairs, slotPairs, ← hcount]
  refine congrArg (fun qs => (List.filter _ qs).map _) (List.map_congr_left fun s hs => ?_)
  rw [hrow s (List.mem_range.mp hs)]

/-- STEP LEMMA: a round in sequential order leaves the port's rows in the buffer. -/
theorem Mirrors.round (h : Mirrors rows (2 ^ r) n buf) (hlev : GpuLevel T r n buf) (hT : Wide T)
    (hr : r < 5) (hn : n ≤ m)
    (hcap : (levelLog ((sequential m).round r) r n buf rowsOut slots).pairs.outCount ≤ maxRows) :
    Mirrors (ShaderRef.roundKernel rows (2 ^ r)) (2 ^ (r + 1))
      (levelLog ((sequential m).round r) r n buf rowsOut slots).pairs.outCount
      (levelLog ((sequential m).round r) r n buf rowsOut slots).pairs.rowsOut := by
  have hl : (levelLog ((sequential m).round r) r n buf rowsOut slots).Legal :=
    sequential_rounds r hn rowsOut slots
  have hinv := hlev.pairInv hr hl
  have hok := hlev.passOk hr hl
  have hfit := Nat.le_of_not_lt (mt (hlev.overflow_iff hr hl).mpr (Nat.not_lt.mpr hcap))
  have hfound := @sequential_pass r buf ⟨n, maxRows, 2 ^ r⟩
    (levelLog ((sequential m).round r) r n buf rowsOut slots).buckets rowsOut m hn hfit
  have hkernel : ShaderRef.roundKernel rows (2 ^ r) =
      (levelLog ((sequential m).round r) r n buf rowsOut slots).pairs.found.map
        (pairOf rows (2 ^ r)) :=
    (h.roundKernel (p := ⟨n, maxRows, 2 ^ r⟩) (countInv_pass _ _ slots _) hn).trans
      (congrArg (List.map _) hfound.symm)
  -- the `k`-th row of either side is made of the `k`-th pair
  have hrow : ∀ k < (levelLog ((sequential m).round r) r n buf rowsOut slots).pairs.outCount,
      ∃ q : ℕ × ℕ, (ShaderRef.roundKernel rows (2 ^ r)).getD k zero = pairOf rows (2 ^ r) q ∧
        q.1 < n ∧ q.2 < n ∧ Emitted ⟨n, maxRows, 2 ^ r⟩ buf
          (levelLog ((sequential m).round r) r n buf rowsOut slots).pairs.rowsOut k q := by
    intro k hk
    obtain ⟨q, hq, he⟩ := hlev.emitted hr hl (lt_min hk (hk.trans_le hcap))
    obtain ⟨hlt, hj, -, -⟩ := hlev.found hT hr hl (List.mem_of_getElem? hq)
    refine ⟨q, ?_, hlt.trans hj, hj, he⟩
    rw [hkernel, List.getD_eq_getElem?_getD, List.getElem?_map, hq]
    rfl
  refine ⟨by rw [hkernel, List.length_map, hinv.count], fun k hk => ?_, fun k hk => ?_⟩
  · obtain ⟨q, hq, hi, hj, he⟩ := hrow k hk
    rw [hq, he.hash, ← h.hash _ hi, ← h.hash _ hj]
    rfl
  · obtain ⟨q, hq, hi, hj, he⟩ := hrow k hk
    rw [hq, pow_succ, Nat.mul_comm, he.indices, pairOf,
      live_canonicalConcat _ _ _ hok.fits hok.pos, h.indices _ hi, h.indices _ hj]

/-! ### The run -/

/-- The candidates of the port's rows. -/
def candidates (rows : List RowFixed) : List (List UInt32) :=
  (rows.filter fun row => row.hash == (0, 0, 0)).map fun row => row.indices.toList

theorem Mirrors.candidates_eq (h : Mirrors rows indicesMax n buf) : candidates rows =
    ((List.range n).filter (zeroHash buf)).map (rowIndices buf indicesMax) := by
  have hall : ∀ row : RowFixed, live indicesMax row = row.indices.toList := fun row =>
    List.take_of_length_le (by simp)
  rw [candidates, rows_eq rows, h.length, List.filter_map, List.map_map]
  have hfilter : (List.range n).filter ((fun row : RowFixed => row.hash == (0, 0, 0)) ∘
      fun m => rows.getD m zero) = (List.range n).filter (zeroHash buf) :=
    List.filter_congr fun m hm => by
      rw [Function.comp_apply, h.hash m (List.mem_range.mp hm)]
      rfl
  rw [hfilter]
  refine List.map_congr_left fun m hm => ?_
  have hm := List.mem_range.mp (List.mem_filter.mp hm).1
  rw [Function.comp_apply, ← hall, h.indices m hm]

/-- The last stage in sequential order returns the first of the port's candidates. -/
theorem Mirrors.finish (h : Mirrors rows indicesMax n buf)
    (hf : ∀ k < n, freshRow buf indicesMax k = true) (hn : n ≤ m) (rowsOut : Buffer) :
    (finish (sequential m).scan n buf rowsOut).result =
      .ok ((candidates rows).take maxSolutions) := by
  have hinv := scanInv_pass (p := ⟨n, maxRows, 32⟩) hf rowsOut (List.range m)
  rw [finish_result, show (sequential m).scan = List.range m from rfl, h.candidates_eq]
  generalize (List.range m).foldl (solutionScan ⟨n, maxRows, 32⟩ buf)
    ⟨0, rowsOut.recycle, [], false⟩ = st at hinv
  have hfound : st.found = (List.range n).filter (zeroHash buf) := by
    obtain ⟨d, rfl⟩ := Nat.exists_eq_add_of_le hn
    rw [hinv.found, List.range_add, List.filter_append]
    refine (congrArg₂ _ (List.filter_congr fun k hk => ?_)
      (List.filter_eq_nil_iff.mpr fun k hk => ?_)).trans (List.append_nil _)
    · simp [List.mem_range.mp hk]
    · obtain ⟨e, -, rfl⟩ := List.mem_map.mp hk
      simp
  have hcap : maxSolutions ≤ maxRows := by decide
  rw [← hfound, hinv.count]
  refine congrArg _ (List.ext_getElem (by simp [Nat.min_comm]) fun k h₁ h₂ => ?_)
  have hk : k < st.found.length := by simp at h₁; omega
  have hmax : k < maxRows := by simp at h₁; omega
  simp only [List.getElem_map, List.getElem_range, List.getElem_take]
  exact (hinv.rows k hmax _ (List.getElem?_eq_getElem hk)).1

theorem roundLoop_nil (r k : ℕ) : roundLoop r k [] = [] := by
  induction k generalizing r with
  | zero => rfl
  | succ k ih => exact ih (r + 1)

/-- Run lemma: the sequential run keeps to the port's rows round by round. -/
theorem hostRounds_port (hT : Wide T) (hm : maxRows ≤ m) (remaining r n : ℕ)
    (rowsIn rowsOut : Buffer) (slots : ℕ → ℕ) (rows : List RowFixed) (hr : r + remaining = 5)
    (hn : n ≤ m) (hlev : GpuLevel T r n rowsIn) (h : Mirrors rows (2 ^ r) n rowsIn) :
    (∀ i log, (hostRounds (sequential m) remaining r n rowsIn rowsOut slots).logs[i]? = some log →
      log.pairs.outCount ≤ maxRows →
      Mirrors (roundLoop r (i + 1) rows) (2 ^ (r + (i + 1))) log.pairs.outCount log.pairs.rowsOut) ∧
    ∀ cands, (hostRounds (sequential m) remaining r n rowsIn rowsOut slots).result = .ok cands →
      cands = (candidates (roundLoop r remaining rows)).take maxSolutions := by
  induction remaining generalizing r n rowsIn rowsOut slots rows with
  | zero =>
    obtain rfl : r = 5 := by omega
    refine ⟨fun i log hi => (by cases hi), fun cands hres => ?_⟩
    exact (Except.ok.inj ((h.finish hlev.fresh hn rowsOut).symm.trans hres)).symm
  | succ remaining ih =>
    have hr5 : r < 5 := by omega
    have hhead : (levelLog ((sequential m).round r) r n rowsIn rowsOut slots).Legal :=
      sequential_rounds r hn rowsOut slots
    have hfirst := @Mirrors.round T r n m rowsIn rowsOut slots rows h hlev hT hr5 hn
    have hone : ∀ i log, [levelLog ((sequential m).round r) r n rowsIn rowsOut slots][i]? = some log →
        log.pairs.outCount ≤ maxRows → Mirrors (roundLoop r (i + 1) rows) (2 ^ (r + (i + 1)))
          log.pairs.outCount log.pairs.rowsOut := fun i log hi hcap => by
      cases i with
      | zero => exact Option.some.inj hi ▸ hfirst (Option.some.inj hi ▸ hcap)
      | succ i => cases hi
    rw [hostRounds_succ]
    split_ifs with hzero hbig
    · -- the port goes on with no rows
      refine ⟨hone, fun cands hres => ?_⟩
      have hempty : ShaderRef.roundKernel rows (2 ^ r) = [] := by
        rw [← List.length_eq_zero_iff, (hfirst (by omega)).length, hzero]
      change cands = (candidates (roundLoop (r + 1) remaining
        (ShaderRef.roundKernel rows (2 ^ r)))).take maxSolutions
      rw [hempty, roundLoop_nil]
      exact (Except.ok.inj hres).symm
    · exact ⟨hone, fun cands hres => by cases hres⟩
    · have hcap := Nat.le_of_not_lt hbig
      have hnext := hlev.round hT hr5 hhead
      rw [Nat.min_eq_left hcap] at hnext
      obtain ⟨hlogs, hres⟩ := ih (r + 1) _ _ rowsIn
        (levelLog ((sequential m).round r) r n rowsIn rowsOut slots).buckets.slots _ (by omega)
        (hcap.trans hm) hnext (hfirst hcap)
      refine ⟨fun i log hi hfit => ?_, hres⟩
      cases i with
      | zero => exact hone 0 log hi hfit
      | succ i =>
        have := hlogs i log hi hfit
        rwa [show r + 1 + (i + 1) = r + (i + 1 + 1) by omega] at this

variable {leaf : UInt32 → List UInt8}

theorem initialRows_length (leaves : List UInt8) :
    (initialRows leaves).length = leaves.length / 12 := by
  simp [initialRows]

theorem initialRows_getD {leaves : List UInt8} {k : ℕ} (hk : k < leaves.length / 12) :
    (initialRows leaves).getD k zero =
      packInitialRow ((leaves.drop (k * 12)).take 12) (UInt32.ofNat k) := by
  simp [initialRows, List.getD_eq_getElem?_getD, hk]

/-- The port starts from the rows of `init_rows`. -/
theorem initialRows_mirrors (hlen : ∀ i : UInt32, i.toNat < nLeaves → (leaf i).length = 12)
    (out : Buffer) {order : List ℕ} (hc : Covers order nLeaves) :
    Mirrors (initialRows (leafTableBytes leaf)) 1 nLeaves
      (order.foldl (initRows ⟨nLeaves, maxRows, 1⟩ (packLeaves leaf)) out) := by
  have hrow := fun k (hk : k < nLeaves) =>
    @initRows_pass ⟨nLeaves, maxRows, 1⟩ (packLeaves leaf) out order k (hc.2 k hk) hk
  generalize order.foldl (initRows ⟨nLeaves, maxRows, 1⟩ (packLeaves leaf)) out = done at hrow
  have hcount : (leafTableBytes leaf).length / 12 = nLeaves := by
    rw [leafTableBytes_length hlen, Nat.mul_div_cancel _ (by decide)]
  have hget : ∀ k < nLeaves, (initialRows (leafTableBytes leaf)).getD k zero =
      packInitialRow (leaf (UInt32.ofNat k)) (UInt32.ofNat k) := fun k hk => by
    have hk' : (UInt32.ofNat k).toNat = k := UInt32.toNat_ofNat_of_lt' (hk.trans (by decide))
    have hleaf := tableLeaf_bytes hlen (hk'.symm ▸ hk)
    rw [tableLeaf, hk'] at hleaf
    rw [initialRows_getD (hcount ▸ hk), hleaf]
  refine ⟨(initialRows_length _).trans hcount, fun k hk => ?_, fun k hk => ?_⟩
  · rw [hget k hk, (hrow k hk).hash, packLeaves_row]
    rfl
  · rw [hget k hk, rowIndices, List.range_one, List.map_singleton, (hrow k hk).index]
    rfl

/-- THE PORT IS THE SEQUENTIAL ORDER: as long as no row is dropped, each round of the sequential run
    leaves the rows of `round_kernel`, and the run returns the first candidates of `wagner_full`. -/
theorem sequential_port (hlen : ∀ i : UInt32, i.toNat < nLeaves → (leaf i).length = 12)
    (hm : maxRows ≤ m) (dev : Device) :
    (∀ r log, (runNonce (sequential m) (packLeaves leaf) dev).logs[r]? = some log →
      log.pairs.outCount ≤ maxRows →
      Mirrors (roundLoop 0 (r + 1) (initialRows (leafTableBytes leaf))) (2 ^ (r + 1))
        log.pairs.outCount log.pairs.rowsOut) ∧
    ∀ cands, (runNonce (sequential m) (packLeaves leaf) dev).result = .ok cands →
      cands = ((wagnerFull (leafTableBytes leaf)).map fun row => row.indices.toList).take
        maxSolutions := by
  have hn : nLeaves ≤ m := (by decide : nLeaves ≤ maxRows).trans hm
  have hinit := covers_range hn
  obtain ⟨hlogs, hres⟩ := hostRounds_port (table96_wide leaf hlen) hm 5 0 nLeaves _ dev.rowsB
    dev.slots _ rfl hn (init_level hlen dev.rowsA.recycle hinit).1
    (initialRows_mirrors hlen dev.rowsA.recycle hinit)
  refine ⟨fun r log hlog hcap => ?_, hres⟩
  have := hlogs r log hlog hcap
  rwa [Nat.zero_add] at this

end Equium.Gpu
