import Equium.Gpu.RunNonce

/-! @src clients/gpu-miner/src/shader_ref.rs | name:sequential order | scheme:fold over the turns

    One complete order of all passes: every invocation in turn, each loop to its end. It is complete
    for any leaves and any device, so the statements about complete orders are not empty. -/

namespace Equium.Gpu
open Schemes Solver

variable {r n : ℕ} {buf : Buffer}

/-- One invocation after another, each loop to its end, of `m` invocations: the order of
    `shader_ref::wagner_full`. -/
def sequential (m : ℕ) : Schedule where
  init := List.range m
  round := fun _ => ⟨List.range m,
    (List.range m).flatMap fun i => List.replicate maxPerBucket i⟩
  scan := List.range m

theorem covers_range {m : ℕ} (h : n ≤ m) : Covers (List.range m) n :=
  ⟨List.nodup_range, fun _ hi => List.mem_range.mpr (by omega)⟩

/-- A turn moves the invocation's loop, unless it is over, and no other. -/
theorem pairEmit_pos {p : Params} {bk : Buckets} (st : PairState) {i k : ℕ} (hk : k < p.nRows) :
    st.pos k ≤ (pairEmit p buf bk st i).pos k ∧
      (i = k → min (st.pos k + 1) (slotCount buf bk k) ≤ (pairEmit p buf bk st i).pos k) := by
  by_cases hi : i ≥ p.nRows
  · rw [pairEmit, if_pos hi]
    exact ⟨le_rfl, fun h => by omega⟩
  by_cases hs : st.pos i ≥ slotCount buf bk i
  · simp only [pairEmit, if_neg hi, if_pos hs]
    refine ⟨le_rfl, fun h => ?_⟩
    subst h
    exact (min_le_right _ _).trans hs
  -- in every branch of the turn the counter is one higher, or at the end
  have hpos : (pairEmit p buf bk st i).pos = Function.update st.pos i (st.pos i + 1) ∨
      (pairEmit p buf bk st i).pos = Function.update st.pos i (slotCount buf bk i) := by
    simp only [pairEmit, if_neg hi, if_neg hs]
    split_ifs
    · exact .inl rfl
    · exact .inl rfl
    · exact .inr (Function.update_idem _ _ _)
    · exact .inl rfl
  by_cases hik : i = k
  · subst hik
    rcases hpos with hpos | hpos <;> rw [hpos, Function.update_self] <;>
      exact ⟨by omega, fun _ => by omega⟩
  · rcases hpos with hpos | hpos <;> rw [hpos, Function.update_of_ne (Ne.symm hik)] <;>
      exact ⟨le_rfl, fun h => absurd h hik⟩

/-- As many turns as slots end a loop. -/
theorem pass_pos {p : Params} {bk : Buckets} (st : PairState) {k : ℕ} (hk : k < p.nRows)
    (order : List ℕ) : min (order.count k) (slotCount buf bk k) ≤
      (order.foldl (pairEmit p buf bk) st).pos k := by
  induction order using List.reverseRecOn with
  | nil => simp
  | append_singleton order i ih =>
    rw [List.foldl_concat, List.count_append]
    generalize order.foldl (pairEmit p buf bk) st = done at ih
    obtain ⟨hmono, hturn⟩ := @pairEmit_pos buf p bk done i k hk
    by_cases hik : i = k
    · have := hturn hik
      subst hik
      simp only [List.count_singleton_self]
      omega
    · rw [List.count_singleton, if_neg (by simpa using hik), Nat.add_zero]
      omega

/-- A round's orders are complete when the count pass covers the rows and the pair pass names each row
    as often as a bucket has slots. -/
theorem legal_of_turns {sched : RoundSchedule} (hc : Covers sched.count n)
    (hp : ∀ i < n, maxPerBucket ≤ sched.pair.count i) (rowsOut : Buffer) (slots : ℕ → ℕ) :
    (levelLog sched r n buf rowsOut slots).Legal := by
  refine ⟨hc, fun i hi => ?_⟩
  have hpos := @pass_pos buf ⟨n, maxRows, 2 ^ r⟩ (levelLog sched r n buf rowsOut slots).buckets
    ⟨0, rowsOut.recycle, fun _ => 0, [], false⟩ i hi sched.pair
  exact le_trans (le_min (le_trans (min_le_right _ _) (hp i hi)) le_rfl) hpos

theorem turns_count {m c i : ℕ} (hi : i < m) :
    c ≤ ((List.range m).flatMap fun i => List.replicate c i).count i := by
  rw [← List.replicate_sublist_iff]
  exact List.sublist_flatten_of_mem (List.mem_map.mpr ⟨i, List.mem_range.mpr hi, rfl⟩)

theorem sequential_rounds {m : ℕ} (r : ℕ) (hn : n ≤ m) (rowsOut : Buffer) (slots : ℕ → ℕ) :
    (levelLog ((sequential m).round r) r n buf rowsOut slots).Legal :=
  legal_of_turns (covers_range hn) (fun _ hi => turns_count (hi.trans_le hn)) rowsOut slots

theorem sequential_host {m : ℕ} (hm : maxRows ≤ m) (remaining r n : ℕ) (rowsIn rowsOut : Buffer)
    (slots : ℕ → ℕ) (hn : n ≤ m) :
    (∀ log ∈ (hostRounds (sequential m) remaining r n rowsIn rowsOut slots).logs, log.Legal) ∧
    ∀ p st, (hostRounds (sequential m) remaining r n rowsIn rowsOut slots).scan = some (p, st) →
      Covers (sequential m).scan p.nRows := by
  induction remaining generalizing r n rowsIn rowsOut slots with
  | zero =>
    refine ⟨fun log hlog => (by cases hlog), fun p st hst => ?_⟩
    have hp : p = ⟨n, maxRows, 32⟩ := (Prod.mk.inj (Option.some.inj hst)).1.symm
    rw [hp]
    exact covers_range hn
  | succ remaining ih =>
    have hhead : (levelLog ((sequential m).round r) r n rowsIn rowsOut slots).Legal :=
      sequential_rounds r hn rowsOut slots
    rw [hostRounds_succ]
    split_ifs with hzero hbig
    · exact ⟨fun log hlog => List.mem_singleton.mp hlog ▸ hhead, fun p st hst => by cases hst⟩
    · exact ⟨fun log hlog => List.mem_singleton.mp hlog ▸ hhead, fun p st hst => by cases hst⟩
    · obtain ⟨hlogs, hscan⟩ := ih (r + 1) _
        (levelLog ((sequential m).round r) r n rowsIn rowsOut slots).pairs.rowsOut rowsIn
        (levelLog ((sequential m).round r) r n rowsIn rowsOut slots).buckets.slots
        ((Nat.le_of_not_lt hbig).trans hm)
      refine ⟨fun log hlog => ?_, hscan⟩
      rcases List.mem_cons.mp hlog with rfl | hlog
      exacts [hhead, hlogs log hlog]

/-- The sequential order is complete, whatever the leaves and the device hold. -/
theorem sequential_legal {m : ℕ} (hm : maxRows ≤ m) (leaves : ℕ → UInt32) (dev : Device) :
    (sequential m).Legal leaves dev := by
  have hn : nLeaves ≤ m := (by decide : nLeaves ≤ maxRows).trans hm
  obtain ⟨hlogs, hscan⟩ := sequential_host hm 5 0 nLeaves
    ((sequential m).init.foldl (initRows ⟨nLeaves, maxRows, 1⟩ leaves) dev.rowsA.recycle) dev.rowsB
    dev.slots hn
  exact ⟨covers_range hn, hlogs, hscan⟩

/-! ### What the sequential pair pass finds, in order -/

variable {p : Params} {bk : Buckets}

/-- The pairs of row `i` among the first `t` slots of its bucket. -/
def slotPairs (p : Params) (rowsIn : Buffer) (bk : Buckets) (i t : ℕ) : List (ℕ × ℕ) :=
  ((List.range t).map fun s => (i, slotRow rowsIn bk i s)).filter fun q =>
    decide (q.1 < q.2) && distinctIndicesIn p rowsIn q.1 q.2

theorem slotPairs_succ (i t : ℕ) : slotPairs p buf bk i (t + 1) = slotPairs p buf bk i t ++
    if i < slotRow buf bk i t ∧ distinctIndicesIn p buf i (slotRow buf bk i t) = true then
      [(i, slotRow buf bk i t)] else [] := by
  rw [slotPairs, List.range_succ, List.map_append, List.filter_append, ← slotPairs]
  by_cases h : i < slotRow buf bk i t ∧ distinctIndicesIn p buf i (slotRow buf bk i t) = true
  · simp [h]
  · rw [if_neg h, List.append_cancel_left_eq]
    simpa using h

theorem slotPairs_length_le (i : ℕ) {t t' : ℕ} (h : t ≤ t') :
    (slotPairs p buf bk i t).length ≤ (slotPairs p buf bk i t').length :=
  (((List.range_sublist.mpr h).map _).filter _).length_le

/-- Row `i` has had `t` turns and has found what is in its first `t` slots. -/
structure TurnsOf (p : Params) (buf : Buffer) (bk : Buckets) (found : List (ℕ × ℕ)) (i t : ℕ)
    (st : PairState) : Prop where
  found : st.found = found ++ slotPairs p buf bk i (min t (slotCount buf bk i))
  count : st.outCount = st.found.length
  pos : st.pos i = min t (slotCount buf bk i)
  idle : ∀ k, i < k → st.pos k = 0

/-- Step lemma: one more turn of row `i`, while the buffer has room for all its pairs. -/
theorem TurnsOf.turn {found : List (ℕ × ℕ)} {i t : ℕ} {st : PairState}
    (h : TurnsOf p buf bk found i t st) (hi : i < p.nRows)
    (hcap : (found ++ slotPairs p buf bk i (slotCount buf bk i)).length ≤ p.maxOutRows) :
    TurnsOf p buf bk found i (t + 1) (pairEmit p buf bk st i) := by
  obtain ⟨hfound, hcount, hpos, hidle⟩ := h
  by_cases hs : st.pos i ≥ slotCount buf bk i
  · -- the loop is over
    rw [pairEmit, if_neg (by omega)]
    simp only [if_pos hs]
    rw [show min t (slotCount buf bk i) = min (t + 1) (slotCount buf bk i) by omega] at hfound hpos
    exact ⟨hfound, hcount, hpos, hidle⟩
  have ht : st.pos i = t := by omega
  have hmin : min (t + 1) (slotCount buf bk i) = t + 1 := by omega
  rw [show min t (slotCount buf bk i) = t by omega] at hfound
  have hset : ∀ k, i < k → Function.update st.pos i (t + 1) k = 0 := fun k hk => by
    rw [Function.update_of_ne (by omega), hidle k hk]
  have hskip : ¬ (i < slotRow buf bk i t ∧ distinctIndicesIn p buf i (slotRow buf bk i t) = true) →
      st.found = found ++ slotPairs p buf bk i (min (t + 1) (slotCount buf bk i)) := fun hno => by
    rw [hmin, slotPairs_succ, if_neg hno, List.append_nil, hfound]
  by_cases hji : slotRow buf bk i (st.pos i) ≤ i
  · simp only [pairEmit, if_neg (Nat.not_le.mpr hi), if_neg hs, if_pos hji]
    rw [ht] at hji ⊢
    exact ⟨hskip (by omega), hcount, by simp [hmin], hset⟩
  by_cases hdis : distinctIndicesIn p buf i (slotRow buf bk i (st.pos i)) = true
  · have hpair : slotPairs p buf bk i (t + 1) = slotPairs p buf bk i t ++
        [(i, slotRow buf bk i t)] := by
      rw [slotPairs_succ, if_pos ⟨by rw [ht] at hji; omega, ht ▸ hdis⟩]
    -- the pair is one of those there is room for
    have hroom : ¬ st.outCount ≥ p.maxOutRows := by
      have hle := @slotPairs_length_le buf p bk i _ _ (show t + 1 ≤ slotCount buf bk i by omega)
      rw [hpair] at hle
      simp only [List.length_append, List.length_singleton] at hle hcap
      rw [hcount, hfound, List.length_append]
      omega
    simp only [pairEmit, if_neg (Nat.not_le.mpr hi), if_neg hs, if_neg hji, hdis, Bool.not_true,
      Bool.false_eq_true, if_false, if_neg hroom]
    rw [ht]
    refine ⟨?_, by simp [hcount], by simp [hmin], hset⟩
    rw [hmin, hpair, hfound, List.append_assoc]
  · simp only [pairEmit, if_neg (Nat.not_le.mpr hi), if_neg hs, if_neg hji, hdis, Bool.not_false,
      if_true]
    rw [ht] at hdis ⊢
    exact ⟨hskip fun hc => hdis hc.2, hcount, by simp [hmin], hset⟩

theorem TurnsOf.turns {found : List (ℕ × ℕ)} {i : ℕ} {st : PairState}
    (h : TurnsOf p buf bk found i 0 st) (hi : i < p.nRows)
    (hcap : (found ++ slotPairs p buf bk i (slotCount buf bk i)).length ≤ p.maxOutRows) :
    ∀ t, TurnsOf p buf bk found i t ((List.replicate t i).foldl (pairEmit p buf bk) st) := by
  intro t
  induction t with
  | zero => exact h
  | succ t ih =>
    rw [List.replicate_succ', List.foldl_concat]
    exact ih.turn hi hcap

/-- Rows beyond the last do nothing. -/
theorem pairEmit_idle (st : PairState) {order : List ℕ} (h : ∀ i ∈ order, p.nRows ≤ i) :
    order.foldl (pairEmit p buf bk) st = st := by
  induction order with
  | nil => rfl
  | cons i order ih =>
    rw [List.foldl_cons, pairEmit, if_pos (h i List.mem_cons_self)]
    exact ih fun j hj => h j (List.mem_cons_of_mem _ hj)

/-- The pairs of the first `k` rows. -/
def rowPairs (p : Params) (buf : Buffer) (bk : Buckets) (k : ℕ) : List (ℕ × ℕ) :=
  (List.range k).flatMap fun i => slotPairs p buf bk i (slotCount buf bk i)

theorem rowPairs_succ (k : ℕ) : rowPairs p buf bk (k + 1) =
    rowPairs p buf bk k ++ slotPairs p buf bk k (slotCount buf bk k) := by
  simp [rowPairs, List.range_succ]

theorem rowPairs_mono {k k' : ℕ} (h : k ≤ k') : rowPairs p buf bk k <+: rowPairs p buf bk k' := by
  induction h with
  | refl => exact List.prefix_rfl
  | step _ ih => exact ih.trans (rowPairs_succ _ ▸ List.prefix_append _ _)

/-- Run lemma: the pass finds the pairs row by row, if the buffer has room for all of them. -/
theorem sequential_found (rowsOut : Buffer) {c : ℕ} (hc : maxPerBucket ≤ c)
    (hcap : (rowPairs p buf bk p.nRows).length ≤ p.maxOutRows) : ∀ k ≤ p.nRows,
    let st := ((List.range k).flatMap fun i => List.replicate c i).foldl (pairEmit p buf bk)
      ⟨0, rowsOut.recycle, fun _ => 0, [], false⟩
    st.found = rowPairs p buf bk k ∧ st.outCount = st.found.length ∧
      ∀ i, k ≤ i → st.pos i = 0 := by
  intro k hk
  induction k with
  | zero => exact ⟨rfl, rfl, fun _ _ => rfl⟩
  | succ k ih =>
    obtain ⟨hfound, hcount, hidle⟩ := ih (by omega)
    have hroom := (@rowPairs_mono buf p bk _ _ hk).length_le.trans hcap
    rw [rowPairs_succ] at hroom ⊢
    rw [List.range_succ, List.flatMap_append, List.foldl_append, List.flatMap_singleton]
    generalize ((List.range k).flatMap fun i => List.replicate c i).foldl (pairEmit p buf bk)
      ⟨0, rowsOut.recycle, fun _ => 0, [], false⟩ = done at hfound hcount hidle
    -- the row starts with no turn taken, and `c` turns end its loop
    have hstart : TurnsOf p buf bk (rowPairs p buf bk k) k 0 done :=
      ⟨by rw [Nat.zero_min]; exact hfound.trans (List.append_nil _).symm, hcount,
        by rw [Nat.zero_min]; exact hidle k le_rfl, fun j hj => hidle j hj.le⟩
    have hend := hstart.turns hk hroom c
    have hall : min c (slotCount buf bk k) = slotCount buf bk k :=
      min_eq_right ((min_le_right _ _).trans hc)
    exact ⟨hall ▸ hend.found, hend.count, fun i hi => hend.idle i hi⟩

/-- The invocations past the last row change nothing. -/
theorem sequential_pass (rowsOut : Buffer) {m : ℕ} (hm : p.nRows ≤ m)
    (hcap : (rowPairs p buf bk p.nRows).length ≤ p.maxOutRows) :
    (((sequential m).round r).pair.foldl (pairEmit p buf bk)
      ⟨0, rowsOut.recycle, fun _ => 0, [], false⟩).found = rowPairs p buf bk p.nRows := by
  obtain ⟨d, rfl⟩ := Nat.exists_eq_add_of_le hm
  rw [show ((sequential (p.nRows + d)).round r).pair =
      (List.range (p.nRows + d)).flatMap fun i => List.replicate maxPerBucket i from rfl,
    List.range_add, List.flatMap_append, List.foldl_append, pairEmit_idle]
  · exact (sequential_found rowsOut le_rfl hcap p.nRows le_rfl).1
  · intro i hi
    obtain ⟨k, hk, hik⟩ := List.mem_flatMap.mp hi
    obtain ⟨e, -, rfl⟩ := List.mem_map.mp hk
    rw [(List.mem_replicate.mp hik).2]
    exact Nat.le_add_right _ _

end Equium.Gpu
