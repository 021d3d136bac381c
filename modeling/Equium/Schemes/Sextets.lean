import Mathlib.Data.Nat.Bitwise
import Mathlib.Tactic.IntervalCases

/-! Scheme sextets: three bytes cut into four numbers of six bits, and put together again.

    A number of six bits is a byte below 64. Bytes and sextets determine each other; where a group has
    only one byte or two, the last sextet has bits to spare, and they are zero. -/

namespace Equium.Schemes

def sextet0 (b0 : UInt8) : UInt8 := b0 >>> 2
def sextet1 (b0 b1 : UInt8) : UInt8 := ((b0 &&& 0b11) <<< 4) ||| (b1 >>> 4)
def sextet2 (b1 b2 : UInt8) : UInt8 := ((b1 &&& 0b1111) <<< 2) ||| (b2 >>> 6)
def sextet3 (b2 : UInt8) : UInt8 := b2 &&& 0b111111

def byte0 (s0 s1 : UInt8) : UInt8 := (s0 <<< 2) ||| (s1 >>> 4)
def byte1 (s1 s2 : UInt8) : UInt8 := (s1 <<< 4) ||| (s2 >>> 2)
def byte2 (s2 s3 : UInt8) : UInt8 := (s2 <<< 6) ||| s3

/-! ### Six bits -/

theorem lt_64_iff (s : UInt8) : s < 64 ↔ s >>> 6 = 0 := by
  rw [UInt8.lt_iff_toNat_lt, ← UInt8.toNat_inj]
  simp [Nat.shiftRight_eq_div_pow]

/-- Two bytes with the same eight bits. -/
theorem eq_of_bits {a b : UInt8}
    (h : ∀ i < 8, a.toBitVec.getLsbD i = b.toBitVec.getLsbD i) : a = b :=
  UInt8.eq_of_toBitVec_eq (BitVec.eq_of_getLsbD_eq h)

theorem high_bits {s : UInt8} (h : s < 64) :
    s.toBitVec.getLsbD 6 = false ∧ s.toBitVec.getLsbD 7 = false := by
  have hlt : s.toBitVec.toNat < 64 := UInt8.lt_iff_toNat_lt.mp h
  constructor
  · exact Nat.testBit_eq_false_of_lt (by omega)
  · exact Nat.testBit_eq_false_of_lt (by omega)

theorem low_bits2 {s : UInt8} (h : s &&& 3 = 0) :
    s.toBitVec.getLsbD 0 = false ∧ s.toBitVec.getLsbD 1 = false := by
  have hbit : ∀ i, (s &&& 3).toBitVec.getLsbD i = false := fun i => by rw [h]; simp
  exact ⟨by simpa using hbit 0, by simpa using hbit 1⟩

theorem low_bits4 {s : UInt8} (h : s &&& 15 = 0) :
    s.toBitVec.getLsbD 0 = false ∧ s.toBitVec.getLsbD 1 = false ∧
      s.toBitVec.getLsbD 2 = false ∧ s.toBitVec.getLsbD 3 = false := by
  have hbit : ∀ i, (s &&& 15).toBitVec.getLsbD i = false := fun i => by rw [h]; simp
  exact ⟨by simpa using hbit 0, by simpa using hbit 1, by simpa using hbit 2, by simpa using hbit 3⟩

theorem sextet0_lt (b0 : UInt8) : sextet0 b0 < 64 := by
  rw [lt_64_iff]
  refine eq_of_bits fun i hi => ?_
  interval_cases i <;> simp [sextet0]

theorem sextet1_lt (b0 b1 : UInt8) : sextet1 b0 b1 < 64 := by
  rw [lt_64_iff]
  refine eq_of_bits fun i hi => ?_
  interval_cases i <;> simp [sextet1]

theorem sextet2_lt (b1 b2 : UInt8) : sextet2 b1 b2 < 64 := by
  rw [lt_64_iff]
  refine eq_of_bits fun i hi => ?_
  interval_cases i <;> simp [sextet2]

theorem sextet3_lt (b2 : UInt8) : sextet3 b2 < 64 := by
  rw [lt_64_iff]
  refine eq_of_bits fun i hi => ?_
  interval_cases i <;> simp [sextet3]

/-! ### Bytes from their sextets -/

theorem byte0_sextets (b0 b1 : UInt8) : byte0 (sextet0 b0) (sextet1 b0 b1) = b0 := by
  refine eq_of_bits fun i hi => ?_
  interval_cases i <;> simp [byte0, sextet0, sextet1]

theorem byte1_sextets (b0 b1 b2 : UInt8) : byte1 (sextet1 b0 b1) (sextet2 b1 b2) = b1 := by
  refine eq_of_bits fun i hi => ?_
  interval_cases i <;> simp [byte1, sextet1, sextet2]

theorem byte2_sextets (b1 b2 : UInt8) : byte2 (sextet2 b1 b2) (sextet3 b2) = b2 := by
  refine eq_of_bits fun i hi => ?_
  interval_cases i <;> simp [byte2, sextet2, sextet3]

/-! ### Sextets from their bytes -/

section
variable {s0 s1 s2 s3 : UInt8}

theorem sextet0_bytes (h0 : s0 < 64) (h1 : s1 < 64) : sextet0 (byte0 s0 s1) = s0 := by
  have hs0 := high_bits h0
  have hs1 := high_bits h1
  refine eq_of_bits fun i hi => ?_
  interval_cases i <;> simp_all [byte0, sextet0]

theorem sextet1_bytes (h1 : s1 < 64) (h2 : s2 < 64) :
    sextet1 (byte0 s0 s1) (byte1 s1 s2) = s1 := by
  have hs1 := high_bits h1
  have hs2 := high_bits h2
  refine eq_of_bits fun i hi => ?_
  interval_cases i <;> simp_all [byte0, byte1, sextet1]

theorem sextet2_bytes (h2 : s2 < 64) (h3 : s3 < 64) :
    sextet2 (byte1 s1 s2) (byte2 s2 s3) = s2 := by
  have hs2 := high_bits h2
  have hs3 := high_bits h3
  refine eq_of_bits fun i hi => ?_
  interval_cases i <;> simp_all [byte1, byte2, sextet2]

theorem sextet3_bytes (h3 : s3 < 64) : sextet3 (byte2 s2 s3) = s3 := by
  have hs3 := high_bits h3
  refine eq_of_bits fun i hi => ?_
  interval_cases i <;> simp_all [byte2, sextet3]

/-- A group of one byte: the second sextet has four bits to spare. -/
theorem sextet1_padded (h1 : s1 < 64) (hz : s1 &&& 15 = 0) : sextet1 (byte0 s0 s1) 0 = s1 := by
  have hs1 := high_bits h1
  obtain ⟨hlow0, hlow1, hlow2, hlow3⟩ := low_bits4 hz
  refine eq_of_bits fun i hi => ?_
  interval_cases i <;> simp_all [byte0, sextet1]

/-- A group of two bytes: the third sextet has two bits to spare. -/
theorem sextet2_padded (h2 : s2 < 64) (hz : s2 &&& 3 = 0) : sextet2 (byte1 s1 s2) 0 = s2 := by
  have hs2 := high_bits h2
  obtain ⟨hlow0, hlow1⟩ := low_bits2 hz
  refine eq_of_bits fun i hi => ?_
  interval_cases i <;> simp_all [byte1, sextet2]

end

theorem sextet1_spare (b0 : UInt8) : sextet1 b0 0 &&& 15 = 0 := by
  refine eq_of_bits fun i hi => ?_
  interval_cases i <;> simp [sextet1]

theorem sextet2_spare (b1 : UInt8) : sextet2 b1 0 &&& 3 = 0 := by
  refine eq_of_bits fun i hi => ?_
  interval_cases i <;> simp [sextet2]

end Equium.Schemes
