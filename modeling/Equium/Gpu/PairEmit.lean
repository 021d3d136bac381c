import Equium.Gpu.CountBuckets

/-! @src clients/gpu-miner/src/shaders/rounds.wgsl | name:pair_emit | scheme:step and run invariant

    A `pair_emit` pass under an arbitrary interleaving of its invocations. Each increment of the output
    counter belongs to one pair of rows, no pair gets two, and the reserved row is made of the pair. As
    long as the counter stays within the buffer no loop is abandoned, so a finished pass has found
    every pair of the slot tables. -/

namespace Equium.Gpu
open Schemes Solver

/-! ### Rows of a buffer -/

/-- The three hash words of a row. -/
def rowHash (b : Buffer) (m : ℕ) : UInt32 × UInt32 × UInt32 :=
  (readHashWord b m 0, readHashWord b m 1, readHashWord b m 2)

/-- The first `n` index words of a row. -/
def rowIndices (b : Buffer) (n m : ℕ) : List UInt32 := (List.range n).map (readIndexIn b m)

@[simp] theorem rowIndices_length (b : Buffer) (n m : ℕ) : (rowIndices b n m).length = n := by
  simp [rowIndices]

theorem rowIndices_head (b : Buffer) {n : ℕ} (hn : 0 < n) (m : ℕ) :
    (rowIndices b n m).headD 0 = readIndexIn b m 0 := by
  obtain ⟨n, rfl⟩ := Nat.exists_eq_succ_of_ne_zero hn.ne'
  rw [rowIndices, List.range_succ_eq_map]
  rfl

/-- Row `m` has the same words, and the same marks, in both buffers. -/
def SameRow (b b' : Buffer) (m : ℕ) : Prop :=
  ∀ w < rowWords, b'.word (m * rowWords + w) = b.word (m * rowWords + w) ∧
    b'.written (m * rowWords + w) = b.written (m * rowWords + w)

theorem SameRow.hash {b b' : Buffer} {m : ℕ} (h : SameRow b b' m) : rowHash b' m = rowHash b m := by
  simp only [rowHash, readHashWord, (h 0 (by decide)).1, (h 1 (by decide)).1, (h 2 (by decide)).1]

theorem SameRow.indices {b b' : Buffer} {m n : ℕ} (h : SameRow b b' m) (hn : n ≤ indicesMax) :
    rowIndices b' n m = rowIndices b n m := by
  refine List.map_congr_left fun k hk => ?_
  have hk' := List.mem_range.mp hk
  have := (h (hashWords + k) (by unfold hashWords rowWords; unfold indicesMax at hn; omega)).1
  rwa [← Nat.add_assoc] at this

theorem SameRow.fresh {b b' : Buffer} {m n : ℕ} (h : SameRow b b' m) (hn : n ≤ indicesMax) :
    freshRow b' n m = freshRow b n m := by
  rw [Bool.eq_iff_iff, freshRow, freshRow, List.all_eq_true, List.all_eq_true]
  refine forall₂_congr fun k hk => ?_
  have hk' := List.mem_range.mp hk
  have := (h (hashWords + k) (by unfold hashWords rowWords; unfold indicesMax at hn; omega)).2
  rw [← Nat.add_assoc] at this
  rw [this]

theorem freshRow_iff {b : Buffer} {n m : ℕ} : freshRow b n m = true ↔
    ∀ k < n, b.written (m * rowWords + hashWords + k) = true := by
  simp [freshRow]

/-! ### Writing words -/

theorem writeAll_other {a : ℕ} {ws : List (ℕ × UInt32)} {b : Buffer} (h : ∀ w ∈ ws, w.1 ≠ a) :
    (b.writeAll ws).word a = b.word a ∧ (b.writeAll ws).written a = b.written a := by
  induction ws generalizing b with
  | nil => exact ⟨rfl, rfl⟩
  | cons w ws ih =>
    have hne := h w List.mem_cons_self
    obtain ⟨h₁, h₂⟩ := @ih (b.write w.1 w.2) fun w' hw' => h w' (List.mem_cons_of_mem _ hw')
    refine ⟨h₁.trans ?_, h₂.trans ?_⟩ <;> exact Function.update_of_ne hne.symm _ _

/-- A word written with one value only has that value afterwards. -/
theorem writeAll_at {a : ℕ} {v : UInt32} {ws : List (ℕ × UInt32)} {b : Buffer} (hm : (a, v) ∈ ws)
    (hf : ∀ w ∈ ws, w.1 = a → w.2 = v) :
    (b.writeAll ws).word a = v ∧ (b.writeAll ws).written a = true := by
  induction ws generalizing b with
  | nil => cases hm
  | cons w ws ih =>
    by_cases hin : (a, v) ∈ ws
    · exact @ih (b.write w.1 w.2) hin fun w' hw' => hf w' (List.mem_cons_of_mem _ hw')
    · have hw : (a, v) = w := (List.mem_cons.mp hm).resolve_right hin
      subst hw
      have hnot : ∀ w' ∈ ws, w'.1 ≠ a := fun w' hw' he => by
        have hv := hf w' (List.mem_cons_of_mem _ hw') he
        exact hin ((Prod.ext he hv : w' = (a, v)) ▸ hw')
      obtain ⟨h₁, h₂⟩ := writeAll_other (b := b.write a v) hnot
      exact ⟨h₁.trans (Function.update_self _ _ _), h₂.trans (Function.update_self _ _ _)⟩

/-- Writes inside one row leave the other rows alone. -/
theorem writeAll_sameRow {ws : List (ℕ × UInt32)} {b : Buffer} {m m' : ℕ}
    (h : ∀ w ∈ ws, ∃ k < rowWords, w.1 = m * rowWords + k) (hm : m' ≠ m) :
    SameRow b (b.writeAll ws) m' := by
  intro w hw
  refine writeAll_other fun x hx he => hm ?_
  obtain ⟨k, hk, hxk⟩ := h x hx
  unfold rowWords at *
  omega

/-! ### The emitted row -/

variable {p : Params} {rowsIn : Buffer}

def xor3 (g h : UInt32 × UInt32 × UInt32) : UInt32 × UInt32 × UInt32 :=
  (g.1 ^^^ h.1, g.2.1 ^^^ h.2.1, g.2.2 ^^^ h.2.2)

/-- Row `m` of `out` is the pair `(i, j)`, and its index words are marked. -/
structure Emitted (p : Params) (rowsIn out : Buffer) (m : ℕ) (q : ℕ × ℕ) : Prop where
  hash : rowHash out m = trim2 (xor3 (rowHash rowsIn q.1) (rowHash rowsIn q.2))
  indices : rowIndices out (2 * p.indicesCountIn) m =
    concatCanonical (rowIndices rowsIn p.indicesCountIn q.1)
      (rowIndices rowsIn p.indicesCountIn q.2)
  fresh : freshRow out (2 * p.indicesCountIn) m = true

theorem Emitted.sameRow {out out' : Buffer} {m : ℕ} {q : ℕ × ℕ} (h : Emitted p rowsIn out m q)
    (hs : SameRow out out' m) (hn : 2 * p.indicesCountIn ≤ indicesMax) :
    Emitted p rowsIn out' m q :=
  ⟨hs.hash.trans h.hash, (hs.indices hn).trans h.indices, (hs.fresh hn).trans h.fresh⟩

/-- The writes of `emitRow`, for rows `a` before `b`. -/
def emitWrites (rowsIn : Buffer) (n : ℕ) (t : UInt32 × UInt32 × UInt32) (a b m : ℕ) :
    List (ℕ × UInt32) :=
  [(m * rowWords, t.1), (m * rowWords + 1, t.2.1), (m * rowWords + 2, t.2.2)] ++
    (List.range n).flatMap fun k => [(m * rowWords + hashWords + k, readIndexIn rowsIn a k),
      (m * rowWords + hashWords + n + k, readIndexIn rowsIn b k)]

theorem mem_emitWrites {n a b m : ℕ} {t : UInt32 × UInt32 × UInt32} {w : ℕ × UInt32} :
    w ∈ emitWrites rowsIn n t a b m ↔ w = (m * rowWords, t.1) ∨ w = (m * rowWords + 1, t.2.1) ∨
      w = (m * rowWords + 2, t.2.2) ∨ ∃ k < n,
        w = (m * rowWords + hashWords + k, readIndexIn rowsIn a k) ∨
        w = (m * rowWords + hashWords + n + k, readIndexIn rowsIn b k) := by
  simp [emitWrites]

/-- Every write of an emission is one of the row's words, with that word's value. -/
theorem emitWrites_row {n a b m : ℕ} {t : UInt32 × UInt32 × UInt32} (hn : 2 * n ≤ indicesMax) :
    ∀ w ∈ emitWrites rowsIn n t a b m, ∃ k < rowWords, w.1 = m * rowWords + k := by
  intro w hw
  unfold indicesMax at hn
  rcases mem_emitWrites.mp hw with rfl | rfl | rfl | ⟨k, hk, rfl | rfl⟩
  · exact ⟨0, by decide, rfl⟩
  · exact ⟨1, by decide, rfl⟩
  · exact ⟨2, by decide, rfl⟩
  · exact ⟨hashWords + k, by unfold hashWords rowWords; omega, Nat.add_assoc _ _ _⟩
  · exact ⟨hashWords + n + k, by unfold hashWords rowWords; omega, by dsimp only; omega⟩

theorem emitWrites_hash {n a b m : ℕ} {t : UInt32 × UInt32 × UInt32} (out : Buffer) :
    rowHash (out.writeAll (emitWrites rowsIn n t a b m)) m = t := by
  have hat : ∀ d v, (m * rowWords + d, v) ∈ emitWrites rowsIn n t a b m → d < hashWords →
      (∀ w ∈ emitWrites rowsIn n t a b m, w.1 = m * rowWords + d → w.2 = v) →
      readHashWord (out.writeAll (emitWrites rowsIn n t a b m)) m d = v :=
    fun d v hm _ hf => (writeAll_at hm hf).1
  refine Prod.ext (hat 0 t.1 (mem_emitWrites.mpr (.inl rfl)) (by decide) ?_) (Prod.ext
    (hat 1 t.2.1 (mem_emitWrites.mpr (.inr (.inl rfl))) (by decide) ?_)
    (hat 2 t.2.2 (mem_emitWrites.mpr (.inr (.inr (.inl rfl)))) (by decide) ?_))
  all_goals
    intro w hw he
    rcases mem_emitWrites.mp hw with rfl | rfl | rfl | ⟨k, hk, rfl | rfl⟩ <;>
      first | rfl | (exfalso; dsimp only [hashWords] at he; omega)

theorem emitWrites_index {n a b m k : ℕ} {t : UInt32 × UInt32 × UInt32} (out : Buffer) (hk : k < n) :
    let out' := out.writeAll (emitWrites rowsIn n t a b m)
    (readIndexIn out' m k = readIndexIn rowsIn a k ∧
      out'.written (m * rowWords + hashWords + k) = true) ∧
    (readIndexIn out' m (n + k) = readIndexIn rowsIn b k ∧
      out'.written (m * rowWords + hashWords + (n + k)) = true) := by
  -- a write at an index word is that of the first half, or of the second
  have hat : ∀ d v, (m * rowWords + hashWords + d, v) ∈ emitWrites rowsIn n t a b m →
      (∀ k' < n, k' = d → readIndexIn rowsIn a k' = v) →
      (∀ k' < n, n + k' = d → readIndexIn rowsIn b k' = v) →
      (out.writeAll (emitWrites rowsIn n t a b m)).word (m * rowWords + hashWords + d) = v ∧
        (out.writeAll (emitWrites rowsIn n t a b m)).written (m * rowWords + hashWords + d) = true := by
    intro d v hm hfirst hsecond
    refine writeAll_at hm fun w hw he => ?_
    rcases mem_emitWrites.mp hw with rfl | rfl | rfl | ⟨k', hk', rfl | rfl⟩ <;>
      unfold hashWords at he <;> dsimp only at he ⊢
    · omega
    · omega
    · omega
    · exact hfirst k' hk' (by omega)
    · exact hsecond k' hk' (by omega)
  constructor
  · refine hat k _ (mem_emitWrites.mpr (.inr (.inr (.inr ⟨k, hk, .inl rfl⟩)))) ?_ ?_
    · rintro k' - rfl
      rfl
    · intro k' _ he
      omega
  · refine hat (n + k) _ (mem_emitWrites.mpr (.inr (.inr (.inr ⟨k, hk, .inr ?_⟩)))) ?_ ?_
    · rw [Nat.add_assoc (m * rowWords + hashWords)]
    · intro k' hk' he
      omega
    · intro k' _ he
      rw [Nat.add_left_cancel he]

/-- `emitRow` makes the row of its pair. -/
theorem emitRow_emitted (out : Buffer) (i j m : ℕ) (hpos : 0 < p.indicesCountIn) :
    Emitted p rowsIn (emitRow p rowsIn i j m out) m (i, j) := by
  have hbuf : emitRow p rowsIn i j m out = out.writeAll (emitWrites rowsIn p.indicesCountIn
      (trim2 (xor3 (rowHash rowsIn i) (rowHash rowsIn j)))
      (if readIndexIn rowsIn i 0 < readIndexIn rowsIn j 0 then i else j)
      (if readIndexIn rowsIn i 0 < readIndexIn rowsIn j 0 then j else i) m) := by
    unfold emitRow emitWrites trim2 xor3 rowHash
    split_ifs <;> rfl
  generalize hn : p.indicesCountIn = n at hbuf hpos
  rw [hbuf]
  refine ⟨emitWrites_hash out, ?_, ?_⟩
  · rw [hn, concatCanonical, rowIndices_head _ hpos, rowIndices_head _ hpos]
    have hcat : ∀ a b, rowIndices (out.writeAll (emitWrites rowsIn n
        (trim2 (xor3 (rowHash rowsIn i) (rowHash rowsIn j))) a b m)) (2 * n) m =
        rowIndices rowsIn n a ++ rowIndices rowsIn n b := by
      intro a b
      rw [rowIndices, Nat.two_mul, List.range_add, List.map_append, List.map_map]
      refine congrArg₂ _ (List.map_congr_left fun k hk => ?_) (List.map_congr_left fun k hk => ?_)
      · exact (emitWrites_index out (List.mem_range.mp hk)).1.1
      · exact (emitWrites_index out (List.mem_range.mp hk)).2.1
    split_ifs <;> exact hcat _ _
  · rw [hn, freshRow_iff]
    intro k hk
    by_cases hlt : k < n
    · exact (emitWrites_index out hlt).1.2
    · have := (@emitWrites_index rowsIn n
        (if readIndexIn rowsIn i 0 < readIndexIn rowsIn j 0 then i else j)
        (if readIndexIn rowsIn i 0 < readIndexIn rowsIn j 0 then j else i) m (k - n)
        (trim2 (xor3 (rowHash rowsIn i) (rowHash rowsIn j))) out (by omega)).2.2
      rwa [show n + (k - n) = k by omega] at this

theorem emitRow_sameRow (out : Buffer) (i j : ℕ) {m m' : ℕ} (hm : m' ≠ m)
    (hn : 2 * p.indicesCountIn ≤ indicesMax) :
    SameRow out (emitRow p rowsIn i j m out) m' := by
  have h := fun a b => writeAll_sameRow (b := out)
    (@emitWrites_row rowsIn _ a b m (trim2 (xor3 (rowHash rowsIn i) (rowHash rowsIn j))) hn) hm
  unfold emitRow
  split_ifs
  · exact h i j
  · exact h j i

/-! ### The pass -/

variable {bk : Buckets}

/-- What a pass under way has done. `complete` says that no loop has been abandoned while the counter
    is within the buffer. -/
structure PairInv (p : Params) (rowsIn : Buffer) (bk : Buckets) (st : PairState) : Prop where
  count : st.outCount = st.found.length
  sound : ∀ q ∈ st.found, q.1 < p.nRows ∧ q.1 < q.2 ∧
    distinctIndicesIn p rowsIn q.1 q.2 = true ∧
    ∃ s < st.pos q.1, s < slotCount rowsIn bk q.1 ∧ q.2 = slotRow rowsIn bk q.1 s
  nodup : st.found.Nodup
  complete : st.outCount ≤ p.maxOutRows → ∀ i < p.nRows, ∀ s < st.pos i,
    s < slotCount rowsIn bk i → i < slotRow rowsIn bk i s →
    distinctIndicesIn p rowsIn i (slotRow rowsIn bk i s) = true →
    (i, slotRow rowsIn bk i s) ∈ st.found
  rows : ∀ m < p.maxOutRows, ∀ q, st.found[m]? = some q → Emitted p rowsIn st.rowsOut m q
  fresh : st.stale = false

/-- What a pass relies on: a whole slot table, and index words written by the stage before. -/
structure PassOk (p : Params) (rowsIn : Buffer) (bk : Buckets) : Prop where
  slots : SlotsOk p rowsIn bk
  fresh : ∀ m < p.nRows, freshRow rowsIn p.indicesCountIn m = true
  pos : 0 < p.indicesCountIn
  fits : 2 * p.indicesCountIn ≤ indicesMax

/-- A turn that finds nothing only moves the loop counter. -/
theorem PairInv.skip {st st' : PairState} (h : PairInv p rowsIn bk st) {i : ℕ}
    (hcount : st'.outCount = st.outCount) (hrows : st'.rowsOut = st.rowsOut)
    (hfound : st'.found = st.found) (hstale : st'.stale = false)
    (hpos : st'.pos = Function.update st.pos i (st.pos i + 1))
    (hno : i < slotRow rowsIn bk i (st.pos i) →
      distinctIndicesIn p rowsIn i (slotRow rowsIn bk i (st.pos i)) ≠ true) :
    PairInv p rowsIn bk st' := by
  have hle : ∀ k, st.pos k ≤ st'.pos k := fun k => by
    rw [hpos]
    by_cases hk : k = i
    · subst hk; simp
    · simp [hk]
  refine ⟨by rw [hcount, hfound]; exact h.count, fun q hq => ?_, hfound ▸ h.nodup, ?_,
    fun m hm q hq => ?_, hstale⟩
  · obtain ⟨h₁, h₂, h₃, s, hs, h₄⟩ := h.sound q (hfound ▸ hq)
    exact ⟨h₁, h₂, h₃, s, lt_of_lt_of_le hs (hle _), h₄⟩
  · intro hcap k hk s hs hcnt hlt hdis
    rw [hfound]
    refine h.complete (hcount ▸ hcap) k hk s ?_ hcnt hlt hdis
    rw [hpos] at hs
    by_cases hki : k = i
    · subst hki
      rw [Function.update_self] at hs
      refine lt_of_le_of_ne (by omega) fun he => ?_
      rw [he] at hlt hdis
      exact hno hlt hdis
    · rwa [Function.update_of_ne hki] at hs
  · rw [hrows]
    exact h.rows m hm q (hfound ▸ hq)

/-- The pair a turn finds has not been found before. -/
theorem PairInv.not_found {st : PairState} (h : PairInv p rowsIn bk st) (hok : PassOk p rowsIn bk)
    {i : ℕ} (hs : st.pos i < slotCount rowsIn bk i) :
    (i, slotRow rowsIn bk i (st.pos i)) ∉ st.found := by
  intro hq
  obtain ⟨-, -, -, s, hlt, hcnt, he⟩ := h.sound _ hq
  exact absurd (hok.slots.inj i _ s hs hcnt he) hlt.ne'

/-- A turn that finds a pair: the counter goes up, and the pair is on record. The loop goes on when
    the pair's row was in the buffer. -/
theorem PairInv.find {st st' : PairState} (h : PairInv p rowsIn bk st) (hok : PassOk p rowsIn bk)
    {i : ℕ} (hi : i < p.nRows) (hs : st.pos i < slotCount rowsIn bk i)
    (hlt : i < slotRow rowsIn bk i (st.pos i))
    (hdis : distinctIndicesIn p rowsIn i (slotRow rowsIn bk i (st.pos i)) = true)
    (hcount : st'.outCount = st.outCount + 1) (hstale : st'.stale = false)
    (hfound : st'.found = st.found ++ [(i, slotRow rowsIn bk i (st.pos i))])
    (hpos : ∀ k, k ≠ i → st'.pos k = st.pos k) (hgt : st.pos i < st'.pos i)
    (hgo : st.outCount < p.maxOutRows → st'.pos i = st.pos i + 1)
    (hrows : ∀ m < p.maxOutRows, ∀ q, st'.found[m]? = some q → Emitted p rowsIn st'.rowsOut m q) :
    PairInv p rowsIn bk st' := by
  have hle : ∀ k, st.pos k ≤ st'.pos k := fun k => by
    by_cases hk : k = i
    · subst hk; exact hgt.le
    · exact (hpos k hk).ge
  refine ⟨by rw [hcount, hfound, List.length_append, List.length_singleton, h.count],
    fun q hq => ?_, ?_, fun hcap k hk s hsk hcnt hks hkd => ?_, hrows, hstale⟩
  · rw [hfound] at hq
    rcases List.mem_append.mp hq with hq | hq
    · obtain ⟨h₁, h₂, h₃, s, hsq, h₄⟩ := h.sound q hq
      exact ⟨h₁, h₂, h₃, s, lt_of_lt_of_le hsq (hle _), h₄⟩
    · rw [List.mem_singleton] at hq
      subst hq
      exact ⟨hi, hlt, hdis, st.pos i, hgt, hs, rfl⟩
  · rw [hfound]
    refine List.nodup_append'.mpr ⟨h.nodup, List.nodup_singleton _, ?_⟩
    rw [List.disjoint_singleton]
    exact h.not_found hok hs
  · rw [hcount] at hcap
    rw [hfound, List.mem_append, List.mem_singleton]
    by_cases hki : k = i
    · subst hki
      rw [hgo (by omega)] at hsk
      rcases Nat.lt_succ_iff_lt_or_eq.mp hsk with hsk | rfl
      · exact .inl (h.complete (by omega) k hk s hsk hcnt hks hkd)
      · exact .inr rfl
    · rw [hpos k hki] at hsk
      exact .inl (h.complete (by omega) k hk s hsk hcnt hks hkd)

/-- Step lemma for one turn of one invocation. -/
theorem PairInv.step {st : PairState} (h : PairInv p rowsIn bk st) (hok : PassOk p rowsIn bk)
    (i : ℕ) : PairInv p rowsIn bk (pairEmit p rowsIn bk st i) := by
  by_cases hi : i ≥ p.nRows
  · rw [pairEmit, if_pos hi]; exact h
  by_cases hs : st.pos i ≥ slotCount rowsIn bk i
  · simp only [pairEmit, if_neg hi, if_pos hs]; exact h
  have hlt : st.pos i < slotCount rowsIn bk i := Nat.lt_of_not_le hs
  have hj := (hok.slots.mem i _ hlt).1
  by_cases hji : slotRow rowsIn bk i (st.pos i) ≤ i
  · simp only [pairEmit, if_neg hi, if_neg hs, if_pos hji]
    exact h.skip rfl rfl rfl h.fresh rfl fun hlt => absurd hlt (Nat.not_lt.mpr hji)
  have hstale : (st.stale || !(freshRow rowsIn p.indicesCountIn i &&
      freshRow rowsIn p.indicesCountIn (slotRow rowsIn bk i (st.pos i)))) = false := by
    simp [h.fresh, hok.fresh i (by omega), hok.fresh _ hj]
  by_cases hdis : distinctIndicesIn p rowsIn i (slotRow rowsIn bk i (st.pos i)) = true
  swap
  · simp only [pairEmit, if_neg hi, if_neg hs, if_neg hji, hdis, Bool.not_false, if_true]
    exact h.skip rfl rfl rfl hstale rfl fun _ => hdis
  by_cases hover : st.outCount ≥ p.maxOutRows
  · -- past the buffer: the pair is counted and the loop abandoned
    simp only [pairEmit, if_neg hi, if_neg hs, if_neg hji, hdis, Bool.not_true, Bool.false_eq_true,
      if_false, if_pos hover]
    refine h.find hok (by omega) hlt (by omega) hdis rfl hstale rfl
      (fun k hk => by simp [hk]) (by simpa using hlt) (fun hc => absurd hc (by omega)) ?_
    intro m hm q hq
    refine h.rows m hm q ?_
    have hcount := h.count
    rwa [List.getElem?_append_left (by omega)] at hq
  · -- the reserved row is made of the pair
    simp only [pairEmit, if_neg hi, if_neg hs, if_neg hji, hdis, Bool.not_true, Bool.false_eq_true,
      if_false, if_neg hover]
    refine h.find hok (by omega) hlt (by omega) hdis rfl hstale rfl
      (fun k hk => by simp [hk]) (by simp) (fun _ => by simp) ?_
    intro m hm q hq
    have hcount := h.count
    dsimp only at hq ⊢
    rw [List.getElem?_append] at hq
    split_ifs at hq with hml
    · exact (h.rows m hm q hq).sameRow (emitRow_sameRow _ _ _ (by omega) hok.fits) hok.fits
    · have hm' : m = st.outCount := by
        have := (List.getElem?_eq_some_iff.mp hq).1
        simp only [List.length_singleton] at this
        omega
      rw [hm', hcount, Nat.sub_self] at hq
      cases hq
      rw [hm']
      exact emitRow_emitted _ _ _ _ hok.pos

/-- Run lemma: the invariant after any list of turns. -/
theorem pairInv_pass (hok : PassOk p rowsIn bk) (rowsOut : Buffer) (order : List ℕ) :
    PairInv p rowsIn bk
      (order.foldl (pairEmit p rowsIn bk) ⟨0, rowsOut.recycle, fun _ => 0, [], false⟩) := by
  induction order using List.reverseRecOn with
  | nil =>
    exact ⟨rfl, by simp, List.nodup_nil, by simp, by simp, rfl⟩
  | append_singleton order i ih =>
    rw [List.foldl_concat]
    exact ih.step hok i

end Equium.Gpu
