import Equium.Miner.Attempts
import Equium.Schemes.Bits
import Equium.Solver.Checked

/-! @src crates/equihash-core/src/solver.rs, clients/gpu-miner/src/main.rs,
    clients/web-miner/wasm/src/lib.rs | name:Packed solutions

    The bit loop that packs indices exists three times. Read back with the most significant bit first
    it gives the indices, and the three copies agree on the network's parameters. -/

namespace Equium.Miner
open Schemes Equium.Core Equium.Solver

/-- `compress_indices_96_5` of the GPU miner, with its panics. -/
def checkedCompressIndices96_5 (indices : List UInt32) : Option (List UInt8) :=
  -- BITS_PER = 17
  Checked.packBits 17 indices

/-- `compress_indices_internal` of the browser solver, with its panics. -/
def compressIndicesInternal (n k : UInt32) (indices : List UInt32) : Option (List UInt8) :=
  if k.toNat + 1 < 2 ^ 32 then
    let cbits := n.toNat / (k.toNat + 1)
    Checked.packBits (cbits + 1) indices
  else none

/-! ### The bits written -/

/-- The loop writes its bits in order. -/
theorem foldl_setBit (bits : List UInt32) (pos : ℕ) (out : List UInt8) :
    (bits.zipIdx pos).foldl (fun out p => setBit out p.2 p.1) out =
      writeBits out pos (bits.map UInt32.toUInt8) := by
  induction bits generalizing pos out with
  | nil => rfl
  | cons bit bits ih =>
    rw [List.zipIdx_cons, List.foldl_cons, ih]
    rfl

theorem bit_eq (idx : UInt32) {b : ℕ} (hb : b < 32) :
    ((idx >>> UInt32.ofNat b) &&& 1).toUInt8 = if idx.toNat.testBit b then 1 else 0 := by
  have hshift : (UInt32.ofNat b).toNat % 32 = b := by
    have hsize : b < UInt32.size := hb.trans (by decide)
    rw [UInt32.toNat_ofNat_of_lt' hsize, Nat.mod_eq_of_lt hb]
  have hbit : ((idx >>> UInt32.ofNat b) &&& 1).toUInt8.toNat = idx.toNat / 2 ^ b % 2 := by
    rw [UInt32.toNat_toUInt8, UInt32.toNat_and, UInt32.toNat_shiftRight, hshift,
      Nat.shiftRight_eq_div_pow, UInt32.toNat_one, Nat.and_one_is_mod]
    omega
  refine UInt8.toNat_inj.mp (hbit.trans ?_)
  rw [Nat.testBit_eq_decide_div_mod_eq]
  rcases Nat.mod_two_eq_zero_or_one (idx.toNat / 2 ^ b) with h | h <;> simp [h]

/-- The bits of the indices, as the loop writes them and as they are read. -/
theorem flatMap_indexBits {bitsPer : ℕ} (hbits : bitsPer ≤ 32) (indices : List UInt32) :
    (∀ b ∈ (indices.flatMap (Checked.indexBits bitsPer)).map UInt32.toUInt8, b = 0 ∨ b = 1) ∧
      ((indices.flatMap (Checked.indexBits bitsPer)).map UInt32.toUInt8).map (· == 1) =
        (indices.map UInt32.toNat).flatMap (bitsBe bitsPer) := by
  have hone : ∀ idx : UInt32, (Checked.indexBits bitsPer idx).map UInt32.toUInt8 =
      (bitsBe bitsPer idx.toNat).map fun bit => if bit then 1 else 0 := fun idx => by
    rw [Checked.indexBits, bitsBe, List.map_map, List.map_map]
    refine List.map_congr_left fun b hb => ?_
    have := List.mem_range.mp (List.mem_reverse.mp hb)
    exact bit_eq idx (by omega)
  have hall : (indices.flatMap (Checked.indexBits bitsPer)).map UInt32.toUInt8 =
      ((indices.map UInt32.toNat).flatMap (bitsBe bitsPer)).map
        fun bit => if bit then 1 else 0 := by
    simp only [List.map_flatMap, List.flatMap_map, hone]
  rw [hall]
  constructor
  · intro b hb
    obtain ⟨bit, -, rfl⟩ := List.mem_map.mp hb
    cases bit
    exacts [.inl rfl, .inr rfl]
  · rw [List.map_map]
    refine (List.map_congr_left fun bit _ => ?_).trans (List.map_id _)
    cases bit <;> rfl

/-- What the packer returns, bit by bit: the indices, then padding. -/
theorem bitsOf_packBits {bitsPer : ℕ} (hbits : bitsPer ≤ 32) (indices : List UInt32) :
    ∃ out, Checked.packBits bitsPer indices = some out ∧
      out.length = divCeil8 (bitsPer * indices.length) ∧
      bitsOf out = (indices.map UInt32.toNat).flatMap (bitsBe bitsPer) ++
        List.replicate (8 * out.length - bitsPer * indices.length) false := by
  obtain ⟨hbit, hread⟩ := flatMap_indexBits hbits indices
  have hlen : ((indices.flatMap (Checked.indexBits bitsPer)).map UInt32.toUInt8).length =
      bitsPer * indices.length := by
    rw [List.length_map, Checked.flatMap_indexBits_length]
  have hle : bitsPer * indices.length ≤ 8 * divCeil8 (bitsPer * indices.length) := by
    unfold divCeil8
    omega
  have hbits' := bitsOf_writeBits hbit (m := divCeil8 (bitsPer * indices.length)) (by rwa [hlen])
  refine ⟨_, Checked.packBits_eq hbits indices, ?_, ?_⟩
  · rw [foldl_setBit, writeBits_length, List.length_replicate]
  · rw [foldl_setBit, hbits', hread, hlen, writeBits_length, List.length_replicate]

/-- Indices in range are read back, and the padding is zero. -/
theorem packBits_lossless {bitsPer : ℕ} (hbits : bitsPer ≤ 32) {indices : List UInt32}
    (hlt : ∀ i ∈ indices, i.toNat < 2 ^ bitsPer) :
    ∃ out, Checked.packBits bitsPer indices = some out ∧
      out.length = divCeil8 (bitsPer * indices.length) ∧
      readGroups bitsPer indices.length (bitsOf out) = indices.map UInt32.toNat ∧
      ∀ bit ∈ (bitsOf out).drop (bitsPer * indices.length), bit = false := by
  obtain ⟨out, hout, hlen, hread⟩ := bitsOf_packBits hbits indices
  have hflat : ((indices.map UInt32.toNat).flatMap (bitsBe bitsPer)).length =
      bitsPer * indices.length := by
    rw [← (flatMap_indexBits hbits indices).2, List.length_map, List.length_map,
      Checked.flatMap_indexBits_length]
  have hsmall : ∀ x ∈ indices.map UInt32.toNat, x < 2 ^ bitsPer := by
    rintro x hx
    obtain ⟨i, hi, rfl⟩ := List.mem_map.mp hx
    exact hlt i hi
  have hgroups := readGroups_flatMap hsmall
    (List.replicate (8 * out.length - bitsPer * indices.length) false)
  rw [List.length_map] at hgroups
  refine ⟨out, hout, hlen, by rw [hread, hgroups], fun bit hbit => ?_⟩
  rw [hread, List.drop_left' hflat] at hbit
  exact List.eq_of_mem_replicate hbit

/-! ### The three packers -/

/-- LOSSLESS: packing in range can be undone, so lists of one length keep apart; and the three packers
    return the same bytes for every 32 words. -/
theorem packing_lossless (n k : UInt32) (cbits : ℕ) (hcbits : Checked.cbitsOf n k = some cbits)
    (hbits : cbits + 1 ≤ 32) :
    (∀ indices : List UInt32, (∀ i ∈ indices, i.toNat < 2 ^ (cbits + 1)) →
      ∃ out, Checked.compressIndices n k indices = some out ∧
        out.length = divCeil8 ((cbits + 1) * indices.length) ∧
        readGroups (cbits + 1) indices.length (bitsOf out) = indices.map UInt32.toNat ∧
        ∀ bit ∈ (bitsOf out).drop ((cbits + 1) * indices.length), bit = false) ∧
      (∀ xs ys : List UInt32, (∀ i ∈ xs, i.toNat < 2 ^ (cbits + 1)) →
        (∀ i ∈ ys, i.toNat < 2 ^ (cbits + 1)) → xs.length = ys.length → xs ≠ ys →
        Checked.compressIndices n k xs ≠ Checked.compressIndices n k ys) ∧
      ∀ indices : List UInt32, indices.length = 32 →
        ∃ out, Checked.compressIndices 96 5 indices = some out ∧
          checkedCompressIndices96_5 indices = some out ∧
          compressIndicesInternal 96 5 indices = some out := by
  have hpack : ∀ indices, Checked.compressIndices n k indices =
      Checked.packBits (cbits + 1) indices := fun indices => by
    rw [Checked.compressIndices, bind_of_some hcbits]
  refine ⟨fun indices hlt => ?_, fun xs ys hxs hys hlen hne he => ?_, fun indices _ => ?_⟩
  · rw [hpack]
    exact packBits_lossless hbits hlt
  · obtain ⟨out, hout, -, hread, -⟩ := packBits_lossless hbits hxs
    obtain ⟨out', hout', -, hread', -⟩ := packBits_lossless hbits hys
    rw [hpack, hpack, hout, hout', Option.some.injEq] at he
    rw [he, hlen, hread'] at hread
    exact hne (List.map_injective_iff.mpr (fun _ _ h => UInt32.toNat_inj.mp h) hread).symm
  · obtain ⟨out, hout, -, -⟩ := bitsOf_packBits (by decide : 17 ≤ 32) indices
    exact ⟨out, hout, hout, hout⟩

/-- Three indices of 17 bits in seven bytes: they are read back, and another last one packs otherwise. -/
theorem packing_lossless_demo : (∃ out, Checked.compressIndices 96 5 [1, 131071, 70000] = some out ∧
      out.length = 7 ∧ readGroups 17 3 (bitsOf out) = [1, 131071, 70000]) ∧
    Checked.compressIndices 96 5 [1, 131071, 70000] ≠ Checked.compressIndices 96 5 [1, 131071, 70001] := by
  have hsmall : ∀ i ∈ ([1, 131071, 70000] : List UInt32), i.toNat < 2 ^ (16 + 1) := by simp
  obtain ⟨hround, hdiffer, -⟩ := packing_lossless 96 5 16 rfl (by decide)
  obtain ⟨out, hout, hlen, hread, -⟩ := hround [1, 131071, 70000] hsmall
  exact ⟨⟨out, hout, hlen, hread⟩, hdiffer _ _ hsmall (by simp) rfl (by simp)⟩

/-- The packer of the GPU miner's attempt is the one above. -/
theorem checkedCompressIndices96_5_eq (indices : List UInt32) :
    checkedCompressIndices96_5 indices = some (compressIndices96_5 indices) :=
  Checked.packBits_eq (by decide) indices

end Equium.Miner
