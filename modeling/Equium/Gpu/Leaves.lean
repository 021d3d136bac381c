import Equium.Schemes.Blake2b
import Equium.Solver.Wagner

/-! @src clients/gpu-miner/src/shader_ref.rs | name:Leaves on pairs of words | scheme:simulation

    A shader has no 64-bit words, so the leaf kernel keeps them as pairs of 32-bit halves, with the
    carry and the rotations by hand. The port below is the kernel line by line. Its pairs simulate
    the words of BLAKE2b, so its digests are BLAKE2b's, and its table of leaves is the solver's. -/

namespace Equium.Gpu
open Schemes Solver Equium.Core

/-- `(lo, hi)`. -/
abbrev U64 := UInt32 × UInt32

namespace ShaderRef

def u64Add (a b : U64) : U64 :=
  let lo := a.1 + b.1
  let carry := if lo < a.1 then 1 else 0
  let hi := a.2 + b.2 + carry
  (lo, hi)

def u64Xor (a b : U64) : U64 := (a.1 ^^^ b.1, a.2 ^^^ b.2)

/-- A rotation by 1 to 63. -/
def u64Rotr (a : U64) (n : ℕ) : U64 :=
  if n = 32 then (a.2, a.1)
  else if n < 32 then
    let lo := (a.1 >>> UInt32.ofNat n) ||| (a.2 <<< UInt32.ofNat (32 - n))
    let hi := (a.2 >>> UInt32.ofNat n) ||| (a.1 <<< UInt32.ofNat (32 - n))
    (lo, hi)
  else
    let m := n - 32
    let swapped := (a.2, a.1)
    let lo := (swapped.1 >>> UInt32.ofNat m) ||| (swapped.2 <<< UInt32.ofNat (32 - m))
    let hi := (swapped.2 >>> UInt32.ofNat m) ||| (swapped.1 <<< UInt32.ofNat (32 - m))
    (lo, hi)

def pairOps : Blake2b.WordOps U64 := ⟨u64Add, u64Xor, u64Rotr⟩

def iv : Vector U64 8 :=
  #v[(0xf3bcc908, 0x6a09e667), (0x84caa73b, 0xbb67ae85), (0xfe94f82b, 0x3c6ef372),
    (0x5f1d36f1, 0xa54ff53a), (0xade682d1, 0x510e527f), (0x2b3e6c1f, 0x9b05688c),
    (0xfb41bd6b, 0x1f83d9ab), (0x137e2179, 0x5be0cd19)]

def sigma : List (Vector (Fin 16) 16) :=
  [[0, 1, 2, 3, 4, 5, 6, 7, 8, 9, 10, 11, 12, 13, 14, 15],
    [14, 10, 4, 8, 9, 15, 13, 6, 1, 12, 0, 2, 11, 7, 5, 3],
    [11, 8, 12, 0, 5, 2, 15, 13, 10, 14, 3, 6, 7, 1, 9, 4],
    [7, 9, 3, 1, 13, 12, 11, 14, 2, 6, 5, 10, 4, 0, 15, 8],
    [9, 0, 5, 7, 2, 4, 10, 15, 14, 1, 11, 12, 6, 8, 3, 13],
    [2, 12, 6, 10, 0, 11, 8, 3, 4, 13, 7, 5, 15, 14, 1, 9],
    [12, 5, 1, 15, 14, 13, 4, 10, 0, 7, 6, 3, 9, 2, 8, 11],
    [13, 11, 7, 14, 12, 1, 3, 9, 5, 0, 15, 4, 8, 6, 2, 10],
    [6, 15, 14, 9, 11, 3, 0, 8, 12, 2, 13, 7, 1, 4, 10, 5],
    [10, 2, 8, 4, 7, 6, 1, 5, 15, 11, 9, 14, 3, 12, 13, 0],
    [0, 1, 2, 3, 4, 5, 6, 7, 8, 9, 10, 11, 12, 13, 14, 15],
    [14, 10, 4, 8, 9, 15, 13, 6, 1, 12, 0, 2, 11, 7, 5, 3]].map Blake2b.order

/-- One compression; `f` is all ones for the last block. -/
def compress (h : Vector U64 8) (block : Vector U64 16) (t : U64) (f : UInt32) : Vector U64 8 :=
  let v := h ++ iv
  let v := Blake2b.modify v 12 fun w => u64Xor w t
  let v := Blake2b.modify v 14 fun w => (w.1 ^^^ f, w.2 ^^^ f)
  Blake2b.finish pairOps h (Blake2b.rounds pairOps block sigma v)

/-- `IV ^ param_block`. -/
def initialState (personalization : Vector UInt8 16) (digestLen : UInt32) : Vector U64 8 :=
  let p := personalization.toList
  let p0Lo : UInt32 := digestLen ||| ((1 : UInt32) <<< 16) ||| ((1 : UInt32) <<< 24)
  let h := Blake2b.modify iv 0 fun w => (w.1 ^^^ p0Lo, w.2)
  let h := Blake2b.modify h 6 fun w => u64Xor w (word4 (p.take 4), word4 ((p.drop 4).take 4))
  Blake2b.modify h 7 fun w => u64Xor w (word4 ((p.drop 8).take 4), word4 ((p.drop 12).take 4))

/-- The 128-byte block: input, nonce, call index, padding. -/
def blockBytes (input : Vector UInt8 iLen) (nonce : Bytes32) (callIdx : UInt32) : List UInt8 :=
  input.toList ++ nonce.toList ++ bytes4 callIdx ++ List.replicate 11 0

/-- Its 16 pairs of words. -/
def blockWords (bs : List UInt8) : Vector U64 16 :=
  Vector.ofFn fun i => (word4 ((bs.drop (i * 8)).take 4), word4 ((bs.drop (i * 8 + 4)).take 4))

/-- The first 60 bytes of the state after the one compression. -/
def kernelDigest (personalization : Vector UInt8 16) (digestLen : UInt32)
    (input : Vector UInt8 iLen) (nonce : Bytes32) (callIdx : UInt32) : List UInt8 :=
  let h := initialState personalization digestLen
  let block := blockWords (blockBytes input nonce callIdx)
  let h := compress h block (117, 0) 0xFFFFFFFF
  (h.toList.flatMap fun w => bytes4 w.1 ++ bytes4 w.2).take 60

/-- `"ZcashPoW" || 96 || 5`. -/
def personal : Vector UInt8 16 :=
  (#v[90, 99, 97, 115, 104, 80, 111, 87] : Vector UInt8 8) ++ toLe32 96 ++ toLe32 5

/-- The table of leaves. Its `u32` indices stay below `n_leaves + 5`, and the last call of the
    largest table ends one below `2^32`. -/
def leaves (input : Vector UInt8 iLen) (nonce : Bytes32) (nLeaves : UInt32) : List UInt8 :=
  let nCalls := (nLeaves.toNat + 4) / 5
  (List.range nCalls).flatMap fun callIdx =>
    let digest := kernelDigest personal 60 input nonce (UInt32.ofNat callIdx)
    -- the loop breaks at the first index that is no leaf
    ((List.range 5).takeWhile fun k => decide (callIdx * 5 + k < nLeaves.toNat)).flatMap fun k =>
      (digest.drop (k * 12)).take 12

/-! ### Pairs simulate words -/

theorem joinWords_add (a b : U64) : joinWords (u64Add a b) = joinWords a + joinWords b := by
  refine UInt64.toNat_inj.mp ?_
  have ha := a.1.toNat_lt
  have ha' := a.2.toNat_lt
  have hb := b.1.toNat_lt
  have hb' := b.2.toNat_lt
  rw [UInt64.toNat_add, joinWords_toNat, joinWords_toNat, joinWords_toNat, u64Add]
  by_cases hc : a.1 + b.1 < a.1
  · have hc' := UInt32.lt_iff_toNat_lt.mp hc
    rw [UInt32.toNat_add] at hc'
    simp only [if_pos hc, UInt32.toNat_add, UInt32.toNat_one]
    omega
  · have hc' : ¬ (a.1 + b.1).toNat < a.1.toNat := fun h => hc (UInt32.lt_iff_toNat_lt.mpr h)
    rw [UInt32.toNat_add] at hc'
    simp only [if_neg hc, UInt32.toNat_add, UInt32.toNat_zero]
    omega

theorem joinWords_xor (a b : U64) : joinWords (u64Xor a b) = joinWords a ^^^ joinWords b := by
  refine UInt64.toBitVec_inj.mp ?_
  exact (BitVec.xor_append).symm

/-- Bit by bit: a rotation swaps the halves or shifts each into the other. -/
theorem joinWords_rotr (a : U64) {n : ℕ} (h0 : 0 < n) (hn : n < 64) :
    joinWords (u64Rotr a n) = ⟨(joinWords a).toBitVec.rotateRight n⟩ := by
  refine UInt64.toBitVec_inj.mp (BitVec.eq_of_getLsbD_eq fun i hi => ?_)
  rw [rotateRight_bit _ hn hi, joinWords_bit, joinWords_bit, joinWords_bit]
  obtain hlt | rfl | hgt := Nat.lt_trichotomy n 32
  · simp only [u64Rotr, if_neg hlt.ne, if_pos hlt]
    by_cases hi' : i < 32
    · rw [if_pos hi', funnel_bit _ _ h0 hlt hi']
      grind
    · rw [if_neg hi', funnel_bit _ _ h0 hlt (by omega)]
      grind
  · simp only [u64Rotr, if_true]
    grind
  · have hm : n - 32 < 32 := by omega
    simp only [u64Rotr, if_neg hgt.ne', if_neg hgt.not_gt]
    by_cases hi' : i < 32
    · rw [if_pos hi', funnel_bit _ _ (by omega) hm hi']
      grind
    · rw [if_neg hi', funnel_bit _ _ (by omega) hm (by omega)]
      grind

/-- What the rounds do with pairs is what they do with words. -/
theorem pairOps_hom : pairOps.Hom Blake2b.wordOps joinWords where
  add := joinWords_add
  xor := joinWords_xor
  rotr a n hn := by
    have hrange : ∀ n ∈ Blake2b.rotations, 0 < n ∧ n < 64 := by decide
    obtain ⟨h0, h64⟩ := hrange n hn
    exact joinWords_rotr a h0 h64

theorem iv_map : iv.map joinWords = Blake2b.iv := by
  rw [← Vector.toList_inj, Vector.toList_map]
  decide

theorem sigma_eq : sigma = Blake2b.schedule := by decide

theorem modify_xor_map {n : ℕ} (v : Vector U64 n) (i : ℕ) (x : U64) :
    (Blake2b.modify v i fun w => u64Xor w x).map joinWords =
      Blake2b.modify (v.map joinWords) i (· ^^^ joinWords x) := by
  refine Blake2b.modify_map ?_ v i
  exact fun w => joinWords_xor w x

/-- The last compression on pairs is the last compression on words. -/
theorem compress_map (h : Vector U64 8) (block : Vector U64 16) (t : ℕ) (ht : t < 2 ^ 32) :
    (compress h block (UInt32.ofNat t, 0) 0xFFFFFFFF).map joinWords =
      Blake2b.F (h.map joinWords) (block.map joinWords) t true := by
  have hlo : joinWords (UInt32.ofNat t, 0) = UInt64.ofNat t := by
    refine UInt64.toNat_inj.mp ?_
    rw [joinWords_toNat, UInt32.toNat_ofNat_of_lt' ht,
      UInt64.toNat_ofNat_of_lt' (ht.trans (by decide))]
    rfl
  have hones : joinWords (0xFFFFFFFF, 0xFFFFFFFF) = 0xFFFFFFFFFFFFFFFF := by decide
  have hflag : (fun w : U64 => (w.1 ^^^ 0xFFFFFFFF, w.2 ^^^ 0xFFFFFFFF)) =
      fun w => u64Xor w (0xFFFFFFFF, 0xFFFFFFFF) := rfl
  rw [compress, Blake2b.finish_map pairOps_hom, Blake2b.rounds_map pairOps_hom,
    Blake2b.F_last _ _ (ht.trans (by decide)), sigma_eq, hflag, modify_xor_map, modify_xor_map,
    Vector.map_append, iv_map, hlo, hones]

/-! ### The digest -/

theorem initialState_map :
    (initialState personal 60).map joinWords = Blake2b.initial 60 personal.toList := by
  rw [← Vector.toList_inj, Vector.toList_map, Blake2b.initial, Vector.toList_zipWith,
    Blake2b.words8, Vector.toList_ofFn]
  decide

theorem blockWords_map {bs : List UInt8} (h : bs.length = 128) :
    (blockWords bs).map joinWords = Blake2b.words8 16 bs := by
  ext i hi
  have hlo : ((bs.drop (i * 8)).take 4).length = 4 := by
    rw [List.length_take, List.length_drop]
    omega
  have hhi : ((bs.drop (i * 8 + 4)).take 4).length = 4 := by
    rw [List.length_take, List.length_drop]
    omega
  have hsplit : (bs.drop (8 * i)).take 8 =
      (bs.drop (i * 8)).take 4 ++ (bs.drop (i * 8 + 4)).take 4 := by
    rw [Nat.mul_comm, show 8 = 4 + 4 from rfl, List.take_add, List.drop_drop]
  simp only [blockWords, Blake2b.words8, Vector.getElem_map, Vector.getElem_ofFn, hsplit,
    joinWords_word4 hlo hhi]

theorem stateBytes_map (h : Vector U64 8) :
    (h.toList.flatMap fun w => bytes4 w.1 ++ bytes4 w.2) =
      (h.map joinWords).toList.flatMap bytes8 := by
  rw [Vector.toList_map, List.flatMap_map]
  exact List.flatMap_congr fun w _ => (bytes8_joinWords w).symm

@[simp] theorem blockBytes_length (input : Vector UInt8 iLen) (nonce : Bytes32)
    (callIdx : UInt32) : (blockBytes input nonce callIdx).length = 128 := by
  simp [blockBytes]

/-- The kernel computes a BLAKE2b digest. -/
theorem kernelDigest_eq (input : Vector UInt8 iLen) (nonce : Bytes32) (callIdx : UInt32) :
    kernelDigest personal 60 input nonce callIdx =
      Blake2b.digest 60 personal.toList (input.toList ++ nonce.toList ++ bytes4 callIdx) := by
  have hlen : (input.toList ++ nonce.toList ++ bytes4 callIdx).length = 117 := by simp
  have hcompress := compress_map (initialState personal 60)
    (blockWords (blockBytes input nonce callIdx)) 117 (by decide)
  rw [initialState_map, blockWords_map (blockBytes_length _ _ _)] at hcompress
  rw [Blake2b.digest_short 60 _ (by omega), hlen, kernelDigest, stateBytes_map]
  exact congrArg (fun h => (h.toList.flatMap bytes8).take 60) hcompress

/-! ### The table -/

/-- The leaf the port puts at an index. -/
def leafAt (input : Vector UInt8 iLen) (nonce : Bytes32) (i : ℕ) : List UInt8 :=
  ((kernelDigest personal 60 input nonce (UInt32.ofNat (i / 5))).drop (i % 5 * 12)).take 12

/-- Five leaves a call, and no call runs past the table. -/
theorem leaves_eq (input : Vector UInt8 iLen) (nonce : Bytes32) (nLeaves : UInt32) :
    leaves input nonce nLeaves = (List.range nLeaves.toNat).flatMap (leafAt input nonce) := by
  have hcover : nLeaves.toNat ≤ (nLeaves.toNat + 4) / 5 * 5 := by omega
  rw [← flatMap_chunks (leafAt input nonce) hcover]
  refine List.flatMap_congr fun callIdx _ => List.flatMap_congr fun k hk => ?_
  have hk5 : k < 5 := List.mem_range.mp (List.takeWhile_subset _ hk)
  have hdiv : (callIdx * 5 + k) / 5 = callIdx := by omega
  have hmod : (callIdx * 5 + k) % 5 = k := by omega
  rw [leafAt, hdiv, hmod]

theorem leafAt_length (input : Vector UInt8 iLen) (nonce : Bytes32) (i : ℕ) :
    (leafAt input nonce i).length = 12 := by
  simp [leafAt, kernelDigest]
  omega

end ShaderRef

/-- `blake2b_simd` implements BLAKE2b. -/
def ImplementsBlake2b (c : Crates) : Prop :=
  ∀ len personal data, 1 ≤ len → len ≤ 64 → personal.length ≤ 16 →
    c.blake2b len personal data = Blake2b.digest len personal data

open ShaderRef in
theorem generateLeafHash_eq {c : Crates} (hc : ImplementsBlake2b c) (input : Vector UInt8 iLen)
    (nonce : Bytes32) (i : UInt32) :
    generateLeafHash c (((initState 96 5 60).update input.toList).update nonce.toList) 96 i =
      leafAt input nonce i.toNat := by
  have hi := i.toNat_lt
  have hcall : (UInt32.ofNat (i.toNat / 5)).toNat = i.toNat / 5 :=
    UInt32.toNat_ofNat_of_lt' (by change _ < 4294967296; omega)
  rw [leafAt, kernelDigest_eq, bytes4, hcall,
    ← hc 60 personal.toList _ (by decide) (by decide) (by decide)]
  rfl

open ShaderRef in
/-- TABLE: the port's table has the solver's leaves, slices of BLAKE2b digests, and its pairs of words
    simulate 64-bit words in every prefix of the twelve rounds. -/
theorem leaves_solver_table (c : Crates) (hc : ImplementsBlake2b c) (input : Vector UInt8 iLen)
    (nonce : Bytes32) (nLeaves : UInt32) :
    (leaves input nonce nLeaves).length = nLeaves.toNat * 12 ∧
    (∀ i < nLeaves,
      ((leaves input nonce nLeaves).drop (i.toNat * 12)).take 12 = generateLeafHash c
        (((initState 96 5 60).update input.toList).update nonce.toList) 96 i ∧
      ((leaves input nonce nLeaves).drop (i.toNat * 12)).take 12 =
        ((Blake2b.digest 60 (zcashPoW ++ leBytes 4 96 ++ leBytes 4 5)
          (input.toList ++ nonce.toList ++ leBytes 4 (i.toNat / 5))).drop
            (12 * (i.toNat % 5))).take 12) ∧
    pairOps.Hom Blake2b.wordOps joinWords ∧
    ∀ r ≤ 12, ∀ m v : Vector U64 16,
      (Blake2b.rounds pairOps m (sigma.take r) v).map joinWords =
        Blake2b.rounds Blake2b.wordOps (m.map joinWords) (Blake2b.schedule.take r)
          (v.map joinWords) := by
  refine ⟨?_, ?_, pairOps_hom, fun r _ m v => ?_⟩
  · rw [leaves_eq, List.length_flatMap, List.map_congr_left fun i _ => leafAt_length input nonce i,
      List.map_const', List.sum_replicate, List.length_range]
    rfl
  · intro i hi
    have hlt := UInt32.lt_iff_toNat_lt.mp hi
    have hi4 := i.toNat_lt
    have hcall : (UInt32.ofNat (i.toNat / 5)).toNat = i.toNat / 5 :=
      UInt32.toNat_ofNat_of_lt' (by change _ < 4294967296; omega)
    have hblock := @flatMap_block _ _ (leafAt input nonce) 12 (List.range nLeaves.toNat)
      (fun i _ => leafAt_length input nonce i) i.toNat (by rwa [List.length_range])
    rw [List.getElem_range] at hblock
    rw [leaves_eq, hblock]
    refine ⟨(generateLeafHash_eq hc input nonce i).symm, ?_⟩
    rw [leafAt, kernelDigest_eq, bytes4, hcall, Nat.mul_comm 12]
    rfl
  · rw [Blake2b.rounds_map pairOps_hom, sigma_eq]

/-- With a crate that runs BLAKE2b, the last leaf of a table of seven is the solver's. -/
theorem leaves_solver_table_demo :
    ((ShaderRef.leaves (Vector.replicate iLen 1) (Vector.replicate 32 2) 7).drop (6 * 12)).take 12 =
      generateLeafHash ⟨fun _ => Vector.replicate 32 0, fun _ _ _ _ _ => true, Blake2b.digest⟩
        (((initState 96 5 60).update (List.replicate iLen 1)).update (List.replicate 32 2)) 96 6 := by
  have h := leaves_solver_table
    ⟨fun _ => Vector.replicate 32 0, fun _ _ _ _ _ => true, Blake2b.digest⟩
    (fun _ _ _ _ _ _ => rfl) (Vector.replicate iLen 1) (Vector.replicate 32 2) 7
  exact (h.2.1 6 (by decide)).1

end Equium.Gpu
