import Equium.Solver.Rounds

/-! @src crates/equihash-core/src/solver.rs | name:try_nonce | scheme:soundness and completeness

    The two searches of one nonce. The rows after the last round are the level-`k` subtrees, a row's
    remaining hash is zero exactly when all its leaves cancel, and those are what the verifier
    accepts; so the first candidate is always accepted, and there is one when there is a solution. -/

namespace Equium.Solver
open Schemes Equium.Core

variable {n k : UInt32}

/-- Parameters the solver accepts with a byte-aligned collision length. -/
structure Params (n k : UInt32) : Prop where
  accepts : acceptsParams n k = true
  le : n.toNat ≤ 512
  aligned : cbitsOf n k = 8 ∨ cbitsOf n k = 16 ∨ cbitsOf n k = 24

/-- The guards of `BaseState::new`, read off. -/
theorem acceptsParams_iff : acceptsParams n k = true ↔ n.toNat ≠ 0 ∧ k.toNat ≠ 0 ∧
    n.toNat % 8 = 0 ∧ n.toNat % (k.toNat + 1) = 0 ∧ k.toNat < n.toNat := by
  simp [acceptsParams, and_assoc]

theorem Params.cbits (p : Params n k) : 8 * (cbitsOf n k / 8) = cbitsOf n k := by
  have := p.aligned
  omega

/-- A leaf is `k + 1` collision lengths long. -/
theorem Params.width (p : Params n k) : (k.toNat + 1) * (cbitsOf n k / 8) = leafBytes n := by
  obtain ⟨-, -, -, hdvd, -⟩ := acceptsParams_iff.mp p.accepts
  have hn : (k.toNat + 1) * cbitsOf n k = n.toNat :=
    Nat.mul_div_cancel' (Nat.dvd_of_mod_eq_zero hdvd)
  rw [← p.cbits] at hn
  rw [leafBytes, ← hn, Nat.mul_left_comm, Nat.mul_div_cancel_left _ (by omega)]

theorem Params.count_le (p : Params n k) : nInitLeaves n k ≤ 2 ^ 32 := by
  have := p.aligned
  exact Nat.pow_le_pow_right (by omega) (by omega)

/-- A table of `2^(cbits+1)` leaves of `n / 8` bytes. -/
def Params.table (p : Params n k) (leaf : UInt32 → List UInt8)
    (hlen : ∀ i : UInt32, i.toNat < nInitLeaves n k → (leaf i).length = leafBytes n) :
    LeafTable where
  cbytes := cbitsOf n k / 8
  k := k.toNat
  count := nInitLeaves n k
  leaf := leaf
  cbytes_pos := by have := p.aligned; omega
  count_le := p.count_le
  leaf_length := fun i hi => (hlen i hi).trans p.width.symm

/-- The run lemma at the code's own parameters. -/
theorem Params.level (p : Params n k) {leaf : UInt32 → List UInt8}
    (hlen : ∀ i : UInt32, i.toNat < nInitLeaves n k → (leaf i).length = leafBytes n) {r : ℕ}
    (hr : r ≤ k.toNat) : Level (p.table leaf hlen) r
      (iterRound (cbitsOf n k) r (leafRows (nInitLeaves n k) leaf)) := by
  have := level_rounds (p.table leaf hlen) (r := r) hr
  rwa [show 8 * (p.table leaf hlen).cbytes = cbitsOf n k from p.cbits] at this

/-! ### The leaves of a nonce -/

/-- `blake2b_simd` returns as many bytes as its `hash_length` asks for (at most 64). -/
def DigestLength (c : Crates) : Prop :=
  ∀ len personal data, len ≤ 64 → (c.blake2b len personal data).length = len

theorem hashOutputLen_le (n : UInt32) : hashOutputLen n ≤ 64 := by
  have := Nat.div_mul_le_self 512 n.toNat
  unfold hashOutputLen
  omega

theorem baseState_new {input : Vector UInt8 iLen} {base : BaseState} (p : Params n k)
    (h : BaseState.new n k input = .ok base) :
    base = ⟨(initState n k (hashOutputLen n)).update input.toList, n, k⟩ := by
  rw [BaseState.new, if_pos p.accepts,
    Nat.mod_eq_of_lt (lt_of_le_of_lt (hashOutputLen_le n) (by omega))] at h
  exact (Except.ok.inj h).symm

/-- The slices of the leaves lie in the digest. -/
theorem slice_le_hashOutputLen (hacc : acceptsParams n k = true) (hle : n.toNat ≤ 512) (i : ℕ) :
    i % (512 / n.toNat) * (n.toNat / 8) + n.toNat / 8 ≤ hashOutputLen n := by
  obtain ⟨hn, -, h8, -, -⟩ := acceptsParams_iff.mp hacc
  have hper : 0 < 512 / n.toNat := Nat.div_pos hle (by omega)
  have hout : hashOutputLen n = 512 / n.toNat * (n.toNat / 8) := by
    unfold hashOutputLen
    obtain ⟨m, hm⟩ := Nat.dvd_of_mod_eq_zero h8
    rw [hm, Nat.mul_div_cancel_left m (by omega), Nat.mul_left_comm,
      Nat.mul_div_cancel_left _ (by omega)]
  rw [hout, ← Nat.succ_mul]
  exact Nat.mul_le_mul_right _ (Nat.mod_lt _ hper)

/-- A leaf hash is a whole slice of its BLAKE2b digest. -/
theorem nonceLeaf_length {c : Crates} (hc : DigestLength c) (p : Params n k)
    {input : Vector UInt8 iLen} {base : BaseState} (h : BaseState.new n k input = .ok base)
    (nonce : Bytes32) (i : UInt32) : (nonceLeaf c base nonce i).length = leafBytes n := by
  have hslice := slice_le_hashOutputLen p.accepts p.le i.toNat
  rw [baseState_new p h]
  simp only [nonceLeaf, generateLeafHash, Blake2bState.finalize, Blake2bState.update, initState,
    List.length_take, List.length_drop, hc _ _ _ (hashOutputLen_le n), leafBytes]
  omega

/-- The table `try_nonce` searches. -/
def nonceTable {c : Crates} (hc : DigestLength c) (p : Params n k) {input : Vector UInt8 iLen}
    {base : BaseState} (h : BaseState.new n k input = .ok base) (nonce : Bytes32) : LeafTable :=
  p.table (nonceLeaf c base nonce) fun i _ => nonceLeaf_length hc p h nonce i

/-! ### Solutions -/

/-- A solution over a table: a valid level-`k` tree whose leaves cancel. -/
def LeafTable.Solution (T : LeafTable) (t : List UInt32) : Prop :=
  T.Subtree T.k t ∧ T.xorOf t = zeros ((T.k + 1) * T.cbytes)

/-- What the third-party verifier is relied on for, at one input and nonce: it accepts exactly the
    packed solutions over this table. -/
def VerifierSpec (c : Crates) (n k : UInt32) (T : LeafTable) (input : Vector UInt8 iLen)
    (nonce : Bytes32) : Prop :=
  ∀ soln, c.isValidSolution n k input.toList nonce soln = true ↔
    ∃ t, T.Solution t ∧ soln = compressIndices n k t

/-- Rows that reach the verifier. -/
def Candidate (k : UInt32) (row : Row) : Prop :=
  row.indices.length = 2 ^ k.toNat ∧ row.hash.all (· == 0) = true

theorem all_zero_iff {bytes : List UInt8} :
    bytes.all (· == 0) = true ↔ bytes = zeros bytes.length := by
  induction bytes with
  | nil => simp [zeros]
  | cons b bs ih =>
    simp only [List.all_cons, Bool.and_eq_true, beq_iff_eq, zeros, List.length_cons,
      List.replicate_succ, List.cons.injEq] at ih ⊢
    rw [ih]

/-- A row of the last level is a candidate exactly when its tuple is a solution. -/
theorem Level.candidate_iff {T : LeafTable} {rows : List Row} (h : Level T T.k rows)
    (hk : T.k = k.toNat) {row : Row} (hr : row ∈ rows) :
    Candidate k row ↔ T.Solution row.indices := by
  have hsub := h.subtree hr
  have hlen : row.hash.length = T.cbytes := by
    rw [h.hash_length hr, Nat.add_sub_cancel_left, Nat.one_mul]
  rw [Candidate, LeafTable.Solution, h.hash row hr, Nat.succ_mul, zeros_add, all_zero_iff, hlen,
    List.append_cancel_left_eq, hsub.length, hk]
  simp only [← hk, true_and, hsub]

/-- No row that reaches the verifier is turned away. -/
theorem Level.accepted {T : LeafTable} {rows : List Row} (h : Level T T.k rows) (hk : T.k = k.toNat)
    {c : Crates} {input : Vector UInt8 iLen} {nonce : Bytes32} (hv : VerifierSpec c n k T input nonce)
    {row : Row} (hr : row ∈ rows) (hrow : Candidate k row) :
    c.isValidSolution n k input.toList nonce (compressIndices n k row.indices) = true :=
  (hv _).mpr ⟨_, (h.candidate_iff hk hr).mp hrow, rfl⟩

instance (k : UInt32) (row : Row) : Decidable (Candidate k row) :=
  inferInstanceAs (Decidable (_ ∧ _))

/-- One step of the scan. -/
theorem firstValid_cons (c : Crates) (input : Vector UInt8 iLen) (nonce : Bytes32) (row : Row)
    (rows : List Row) : firstValid c n k input nonce (row :: rows) =
      if Candidate k row ∧
          c.isValidSolution n k input.toList nonce (compressIndices n k row.indices) = true then
        some (compressIndices n k row.indices)
      else firstValid c n k input nonce rows := by
  rw [firstValid]
  by_cases hlen : row.indices.length = 2 ^ k.toNat
  · by_cases hzero : row.hash.all (· == 0) = true
    · rw [if_neg (not_not.mpr hlen), if_neg (by simp [hzero])]
      simp only [show Candidate k row from ⟨hlen, hzero⟩, true_and]
    · rw [if_neg (not_not.mpr hlen), if_pos (by simpa using hzero),
        if_neg fun hc => hzero hc.1.2]
  · rw [if_pos hlen, if_neg fun hc => hlen hc.1.1]

/-- The scan answers when some candidate passes the verifier. -/
theorem firstValid_isSome {c : Crates} {input : Vector UInt8 iLen} {nonce : Bytes32}
    {rows : List Row} : (firstValid c n k input nonce rows).isSome ↔ ∃ row ∈ rows,
      Candidate k row ∧
        c.isValidSolution n k input.toList nonce (compressIndices n k row.indices) = true := by
  induction rows with
  | nil => simp [firstValid]
  | cons row rows ih =>
    rw [firstValid_cons]
    simp only [List.mem_cons, exists_eq_or_imp, ← ih]
    split_ifs with hc
    · simp [hc]
    · simp only [hc, false_or]

theorem firstValid_valid {c : Crates} {input : Vector UInt8 iLen} {nonce : Bytes32}
    {soln : List UInt8} {rows : List Row} (h : firstValid c n k input nonce rows = some soln) :
    c.isValidSolution n k input.toList nonce soln = true := by
  induction rows with
  | nil => cases h
  | cons row rows ih =>
    rw [firstValid_cons] at h
    split_ifs at h with hc
    · exact Option.some.inj h ▸ hc.2
    · exact ih h

/-- The search of one nonce, as a scan of the rows after the last round. -/
theorem tryNonce_eq (c : Crates) (p : Params n k) {input : Vector UInt8 iLen} {base : BaseState}
    (h : BaseState.new n k input = .ok base) (nonce : Bytes32) :
    tryNonce c base input nonce = firstValid c n k input nonce (iterRound (cbitsOf n k) k.toNat
      (leafRows (nInitLeaves n k) (nonceLeaf c base nonce))) := by
  have hb := baseState_new p h
  have hn : base.n = n := by rw [hb]
  have hk : base.k = k := by rw [hb]
  rw [tryNonce, rounds_bind rfl, hn, hk]

/-- Equal leaves, equal rows. -/
theorem leafRows_congr {count : ℕ} (hc : count ≤ 2 ^ 32) {leaf leaf' : UInt32 → List UInt8}
    (h : ∀ i : UInt32, i.toNat < count → leaf i = leaf' i) :
    leafRows count leaf = leafRows count leaf' := by
  refine List.map_congr_left fun i hi => ?_
  have hlt := List.mem_range.mp hi
  rw [h (UInt32.ofNat i) (by rw [UInt32.toNat_ofNat_of_lt' (lt_of_lt_of_le hlt hc)]; exact hlt)]

/-- CPU WAGNER SOLVER: for byte-aligned parameters and any table of leaves, after `r ≤ k` rounds the
    rows are the level-`r` subtrees, each once, with the XOR of their leaves less the zero prefix. So
    if the verifier accepts exactly the packed solutions of the nonce, `try_nonce` answers exactly when
    there is one, no candidate is rejected, and `try_nonce_with_leaves` gives the same answer on the
    nonce's table. -/
theorem wagner_sound_complete (c : Crates) (hc : DigestLength c) (n k : UInt32) (p : Params n k) :
    (∀ leaf hlen, ∀ r ≤ k.toNat, Level (p.table leaf hlen) r
      (iterRound (cbitsOf n k) r (leafRows (nInitLeaves n k) leaf))) ∧
    ∀ input base (h : BaseState.new n k input = .ok base) nonce,
      VerifierSpec c n k (nonceTable hc p h nonce) input nonce →
      ((tryNonce c base input nonce).isSome ↔
        ∃ soln, c.isValidSolution n k input.toList nonce soln = true) ∧
      (∀ soln, tryNonce c base input nonce = some soln →
        c.isValidSolution n k input.toList nonce soln = true) ∧
      (∀ row ∈ iterRound (cbitsOf n k) k.toNat
          (leafRows (nInitLeaves n k) (nonceLeaf c base nonce)), Candidate k row →
        c.isValidSolution n k input.toList nonce (compressIndices n k row.indices) = true) ∧
      ∀ leaves : List UInt8, nInitLeaves n k * leafBytes n ≤ leaves.length →
        (∀ i : UInt32, i.toNat < nInitLeaves n k →
          tableLeaf leaves (leafBytes n) i = nonceLeaf c base nonce i) →
        tryNonceWithLeaves c n k input nonce leaves = tryNonce c base input nonce := by
  refine ⟨fun leaf hlen r hr => p.level hlen hr, fun input base h nonce hv => ?_⟩
  have hlevel : Level (nonceTable hc p h nonce) k.toNat _ :=
    p.level (fun i _ => nonceLeaf_length hc p h nonce i) le_rfl
  have heq := tryNonce_eq c p h nonce
  have hcand : ∀ row ∈ iterRound (cbitsOf n k) k.toNat
      (leafRows (nInitLeaves n k) (nonceLeaf c base nonce)), Candidate k row →
      c.isValidSolution n k input.toList nonce (compressIndices n k row.indices) = true :=
    fun row hr hrow => Level.accepted hlevel rfl hv hr hrow
  refine ⟨?_, fun soln hs => firstValid_valid (heq ▸ hs), hcand, fun leaves hlen hleaf => ?_⟩
  · rw [heq, firstValid_isSome]
    constructor
    · rintro ⟨row, -, -, hval⟩
      exact ⟨_, hval⟩
    · rintro ⟨soln, hval⟩
      obtain ⟨t, ht, rfl⟩ := (hv soln).mp hval
      obtain ⟨row, hr, rfl⟩ := List.mem_map.mp ((hlevel.exact t).mpr ht.1)
      exact ⟨row, hr, (Level.candidate_iff hlevel rfl hr).mpr ht, hval⟩
  · rw [heq, tryNonceWithLeaves, p.accepts, if_neg (by simp), if_neg (by omega), rounds_bind rfl]
    rw [leafRows_congr p.count_le hleaf]

/-! ### A small instance -/

instance (T : LeafTable) (t : List UInt32) : Decidable (T.Solution t) :=
  inferInstanceAs (Decidable (_ ∧ _))

namespace Demo

/-- A stand-in digest that depends on every byte it is fed. -/
def digest (len : ℕ) (personal data : List UInt8) : List UInt8 :=
  (List.range len).map fun i =>
    UInt8.ofNat ((personal ++ data).foldl (fun acc b => (acc * 257 + b.toNat) % 65521) i)

/-- Crates with a given verifier. -/
def crates (isValidSolution : UInt32 → UInt32 → List UInt8 → Bytes32 → List UInt8 → Bool) :
    Crates :=
  ⟨fun _ => Vector.replicate 32 0, isValidSolution, digest⟩

theorem crates_isValidSolution
    (v : UInt32 → UInt32 → List UInt8 → Bytes32 → List UInt8 → Bool) :
    (crates v).isValidSolution = v := rfl

theorem digestLength (v : UInt32 → UInt32 → List UInt8 → Bytes32 → List UInt8 → Bool) :
    DigestLength (crates v) := fun len _ _ _ => by simp [crates, digest]

theorem params : Params 16 1 := ⟨by decide, by decide, by decide⟩

/-- The pairs of leaves of a (16, 1) table. -/
def tuples : List (List UInt32) :=
  (List.range 512).flatMap fun i => (List.range 512).map fun j => [UInt32.ofNat i, UInt32.ofNat j]

def input : Vector UInt8 iLen := Vector.replicate iLen 1

def nonce : Bytes32 := Vector.replicate 32 7

def base : BaseState := ⟨(initState 16 1 64).update input.toList, 16, 1⟩

theorem base_eq : BaseState.new 16 1 input = .ok base := rfl

/-- The table of the demonstration nonce; the verifier plays no part in it. -/
def table : LeafTable := nonceTable (digestLength fun _ _ _ _ _ => false) params base_eq nonce

/-- A verifier that tries every pair of leaves. -/
def verifier (_ _ : UInt32) (_ : List UInt8) (_ : Bytes32) (soln : List UInt8) : Bool :=
  tuples.any fun t => decide (table.Solution t ∧ soln = compressIndices 16 1 t)

theorem leaf_eq (v : UInt32 → UInt32 → List UInt8 → Bytes32 → List UInt8 → Bool) :
    nonceTable (digestLength v) params base_eq nonce = table := rfl

theorem count_eq : table.count = 512 := by decide

theorem verifierSpec : VerifierSpec (crates verifier) 16 1
    (nonceTable (digestLength verifier) params base_eq nonce) input nonce := by
  intro soln
  rw [leaf_eq]
  rw [crates_isValidSolution, verifier, List.any_eq_true]
  constructor
  · rintro ⟨t, -, ht⟩
    exact ⟨t, of_decide_eq_true ht⟩
  · rintro ⟨t, ht, hs⟩
    refine ⟨t, ?_, decide_eq_true ⟨ht, hs⟩⟩
    have hsub : table.Subtree (0 + 1) t := ht.1
    obtain ⟨a, b, rfl, ha, hb, -⟩ := subtree_succ.mp hsub
    obtain ⟨i, hi, rfl⟩ := subtree_zero.mp ha
    obtain ⟨j, hj, rfl⟩ := subtree_zero.mp hb
    rw [count_eq] at hi hj
    refine List.mem_flatMap.mpr ⟨i.toNat, List.mem_range.mpr hi, List.mem_map.mpr
      ⟨j.toNat, List.mem_range.mpr hj, ?_⟩⟩
    rw [UInt32.ofNat_toNat, UInt32.ofNat_toNat]
    rfl

end Demo

/-- The (16, 1) search over the demonstration nonce. -/
theorem wagner_sound_complete_demo :
    (tryNonce (Demo.crates Demo.verifier) Demo.base Demo.input Demo.nonce).isSome ↔
      ∃ soln, (Demo.crates Demo.verifier).isValidSolution 16 1 Demo.input.toList Demo.nonce soln =
        true :=
  ((wagner_sound_complete (Demo.crates Demo.verifier) (Demo.digestLength _) 16 1 Demo.params).2
    Demo.input Demo.base Demo.base_eq Demo.nonce Demo.verifierSpec).1

end Equium.Solver
