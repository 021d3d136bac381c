import Equium.Schemes.Limbs
import Equium.Schemes.Words
import Mathlib.Data.Nat.Bitwise

/-! Scheme bits: byte strings read as bits, the most significant bit of each byte first.

    `orBit` sets one bit of a byte string and `writeBits` a stretch of them; `bitsOf_writeBits` says
    what is read back. Numbers written with `w` bits each are read back in groups of `w`
    (`readGroups_flatMap`). -/

namespace Equium.Schemes

/-- Bit `p` of a byte string. -/
def bitAt (bytes : List UInt8) (p : ℕ) : Bool := (bytes.getD (p / 8) 0).toNat.testBit (7 - p % 8)

/-- All bits of a byte string. -/
def bitsOf (bytes : List UInt8) : List Bool := (List.range (8 * bytes.length)).map (bitAt bytes)

/-- `bytes[p / 8] |= b << (7 - p % 8)`. -/
def orBit (bytes : List UInt8) (p : ℕ) (b : UInt8) : List UInt8 :=
  bytes.modify (p / 8) fun byte => byte ||| (b <<< UInt8.ofNat (7 - p % 8))

/-- The low `w` bits of a number, most significant first. -/
def bitsBe (w x : ℕ) : List Bool := (List.range w).reverse.map x.testBit

/-- The number with the given bits, most significant first. -/
def ofBits (bits : List Bool) : ℕ := ofLimbs 2 (bits.map Bool.toNat)

/-- The first `count` groups of `w` bits, as numbers. -/
def readGroups (w : ℕ) : ℕ → List Bool → List ℕ
  | 0, _ => []
  | count + 1, bits => ofBits (bits.take w) :: readGroups w count (bits.drop w)

@[simp] theorem bitsOf_length (bytes : List UInt8) : (bitsOf bytes).length = 8 * bytes.length := by
  simp [bitsOf]

@[simp] theorem orBit_length (bytes : List UInt8) (p : ℕ) (b : UInt8) :
    (orBit bytes p b).length = bytes.length := by
  simp [orBit]

@[simp] theorem bitsBe_length (w x : ℕ) : (bitsBe w x).length = w := by simp [bitsBe]

/-! ### Setting a bit -/

/-- OR with a shifted bit touches one bit of a byte. -/
theorem testBit_or_shift {x b : UInt8} (hb : b = 0 ∨ b = 1) {s : ℕ} (hs : s < 8) (t : ℕ) :
    (x ||| (b <<< UInt8.ofNat s)).toNat.testBit t = (x.toNat.testBit t || (b == 1 && t == s)) := by
  have hmod : (UInt8.ofNat s).toNat % 8 = s := by rw [UInt8.toNat_ofNat']; omega
  rw [UInt8.toNat_or, Nat.testBit_or, UInt8.toNat_shiftLeft, hmod]
  congr 1
  rcases hb with rfl | rfl
  · simp
  · have hpow : 1 <<< s % 2 ^ 8 = 2 ^ s := by
      rw [Nat.one_shiftLeft, Nat.mod_eq_of_lt (Nat.pow_lt_pow_right (by omega) hs)]
    rw [show (1 : UInt8).toNat <<< s % 2 ^ 8 = 2 ^ s from hpow, Nat.testBit_two_pow]
    by_cases h : s = t
    · simp [h]
    · simp [h, Ne.symm h]

theorem bitAt_orBit {bytes : List UInt8} {b : UInt8} (hb : b = 0 ∨ b = 1) {p : ℕ}
    (hp : p < 8 * bytes.length) (q : ℕ) :
    bitAt (orBit bytes p b) q = (bitAt bytes q || (b == 1 && q == p)) := by
  have hlt : p / 8 < bytes.length := by omega
  unfold bitAt orBit
  by_cases hq : p / 8 = q / 8
  · rw [← hq, List.getD_eq_getElem?_getD, List.getElem?_modify_eq, List.getElem?_eq_getElem hlt,
      Option.map_eq_map, Option.map_some, Option.getD_some, List.getD_eq_getElem _ _ hlt,
      testBit_or_shift hb (by omega)]
    congr 2
    exact Bool.eq_iff_iff.mpr (by simp only [beq_iff_eq]; omega)
  · have hne : (q == p) = false := beq_eq_false_iff_ne.mpr (by rintro rfl; exact hq rfl)
    rw [List.getD_eq_getElem?_getD, List.getElem?_modify_ne _ _ hq, hne, Bool.and_false,
      Bool.or_false, ← List.getD_eq_getElem?_getD]

/-! ### Setting a stretch of bits -/

/-- The bits in order, each at the next position. -/
def writeBits (bytes : List UInt8) (pos : ℕ) : List UInt8 → List UInt8
  | [] => bytes
  | b :: bs => writeBits (orBit bytes pos b) (pos + 1) bs

@[simp] theorem writeBits_length (bytes : List UInt8) (pos : ℕ) (bs : List UInt8) :
    (writeBits bytes pos bs).length = bytes.length := by
  induction bs generalizing bytes pos with
  | nil => rfl
  | cons b bs ih => rw [writeBits, ih, orBit_length]

/-- What is written is read at its position; what was there stays. -/
theorem bitAt_writeBits {bs : List UInt8} (hbs : ∀ b ∈ bs, b = 0 ∨ b = 1) {bytes : List UInt8}
    {pos : ℕ} (hpos : pos + bs.length ≤ 8 * bytes.length) (q : ℕ) :
    bitAt (writeBits bytes pos bs) q =
      (bitAt bytes q || (decide (pos ≤ q) && bs.getD (q - pos) 0 == 1)) := by
  induction bs generalizing bytes pos with
  | nil => simp [writeBits]
  | cons b bs ih =>
    rw [List.length_cons] at hpos
    rw [writeBits, ih (fun x hx => hbs x (List.mem_cons_of_mem _ hx)) (by simp; omega),
      bitAt_orBit (hbs b List.mem_cons_self) (by omega), Bool.or_assoc]
    congr 1
    rcases Nat.lt_trichotomy q pos with hlt | rfl | hgt
    · simp [Nat.ne_of_lt hlt, Nat.not_le.mpr hlt, Nat.not_le.mpr (Nat.lt_succ_of_lt hlt)]
    · simp
    · have hsub : q - pos = q - (pos + 1) + 1 := by omega
      simp [hsub, Nat.ne_of_gt hgt, hgt.le, Nat.succ_le_of_lt hgt]

/-- Bits written from the start into zeros: they come first, and zeros follow. -/
theorem bitsOf_writeBits {bs : List UInt8} (hbs : ∀ b ∈ bs, b = 0 ∨ b = 1) {m : ℕ}
    (hm : bs.length ≤ 8 * m) : bitsOf (writeBits (List.replicate m 0) 0 bs) =
      bs.map (· == 1) ++ List.replicate (8 * m - bs.length) false := by
  have hzero : ∀ q, bitAt (List.replicate m 0) q = false := fun q => by
    have hget : (List.replicate m (0 : UInt8)).getD (q / 8) 0 = 0 := by
      rw [List.getD_eq_getElem?_getD, List.getElem?_replicate]
      split_ifs <;> rfl
    rw [bitAt, hget, UInt8.toNat_zero, Nat.zero_testBit]
  refine List.ext_getElem (by simp; omega) fun q hq _ => ?_
  have hfits : 0 + bs.length ≤ 8 * (List.replicate m (0 : UInt8)).length := by simpa using hm
  have hbit := bitAt_writeBits hbs hfits q
  simp only [bitsOf, List.getElem_map, List.getElem_range, hbit, hzero, Bool.false_or,
    Nat.zero_le, decide_true, Bool.true_and, Nat.sub_zero, List.getElem_append, List.length_map,
    List.getElem_replicate]
  split_ifs with hlt
  · rw [List.getD_eq_getElem _ _ hlt]
  · rw [List.getD_eq_default _ _ (by omega)]
    rfl

/-! ### Numbers in groups of bits -/

theorem bitsBe_succ (w x : ℕ) : bitsBe (w + 1) x = x.testBit w :: bitsBe w x := by
  simp [bitsBe, List.range_succ]

/-- A number's low bits are its residue. -/
theorem ofBits_bitsBe (w x : ℕ) : ofBits (bitsBe w x) = x % 2 ^ w := by
  induction w with
  | zero => simp [ofBits, bitsBe, ofLimbs, Nat.mod_one]
  | succ w ih =>
    rw [ofBits] at ih
    rw [bitsBe_succ, ofBits, List.map_cons, ofLimbs, ih, List.length_map, bitsBe_length,
      Nat.toNat_testBit, pow_succ, Nat.mod_mul, Nat.add_comm, Nat.mul_comm]

/-- Numbers below `2 ^ w`, written with `w` bits each, are read back, whatever follows. -/
theorem readGroups_flatMap {w : ℕ} {xs : List ℕ} (hxs : ∀ x ∈ xs, x < 2 ^ w) (rest : List Bool) :
    readGroups w xs.length (xs.flatMap (bitsBe w) ++ rest) = xs := by
  induction xs with
  | nil => rfl
  | cons x xs ih =>
    rw [List.length_cons, readGroups, List.flatMap_cons, List.append_assoc,
      List.take_left' (bitsBe_length w x), List.drop_left' (bitsBe_length w x),
      ih fun y hy => hxs y (List.mem_cons_of_mem _ hy), ofBits_bitsBe,
      Nat.mod_eq_of_lt (hxs x List.mem_cons_self)]

end Equium.Schemes
