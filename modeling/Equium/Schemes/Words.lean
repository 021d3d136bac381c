import Equium.Schemes.Machine
import Mathlib.Data.Nat.Bitwise

/-! Scheme words: byte strings kept in little-endian words.

    XOR of words is XOR of their bytes, and shifting three words left by two bytes, with the carry
    between words, drops the first two bytes of the twelve. A pair of 32-bit words stands for the
    64-bit word with the bytes of both (`joinWords`). -/

namespace Equium.Schemes

/-- Reading numbers back as bytes undoes reading bytes as a number. -/
theorem leBytes_ofLe (bs : List UInt8) : leBytes bs.length (ofLe bs) = bs := by
  induction bs with
  | nil => rfl
  | cons b bs ih =>
    have hb := b.toNat_lt
    have hdiv : (b.toNat + 256 * ofLe bs) / 256 = ofLe bs := by omega
    have hlow : UInt8.ofNat (b.toNat + 256 * ofLe bs) = b := by
      refine UInt8.toNat_inj.mp ?_
      rw [UInt8.toNat_ofNat']
      omega
    rw [List.length_cons, leBytes, ofLe, hdiv, hlow, ih]

/-- The low byte of a number. -/
theorem ofNat_eq_of_mod {a b : ℕ} (h : a % 256 = b % 256) : UInt8.ofNat a = UInt8.ofNat b :=
  UInt8.toNat_inj.mp (by rw [UInt8.toNat_ofNat', UInt8.toNat_ofNat']; exact h)

theorem ofNat_xor (a b : ℕ) : UInt8.ofNat (a ^^^ b) = UInt8.ofNat a ^^^ UInt8.ofNat b := by
  refine UInt8.toNat_inj.mp ?_
  rw [UInt8.toNat_xor, UInt8.toNat_ofNat', UInt8.toNat_ofNat', UInt8.toNat_ofNat']
  exact Nat.xor_mod_two_pow (n := 8)

/-- Bytes of an XOR. -/
theorem leBytes_xor (k a b : ℕ) : leBytes k (a ^^^ b) =
    List.zipWith (· ^^^ ·) (leBytes k a) (leBytes k b) := by
  induction k generalizing a b with
  | zero => rfl
  | succ k ih =>
    have hdiv : (a ^^^ b) / 256 = a / 256 ^^^ b / 256 := Nat.xor_div_two_pow (n := 8)
    rw [leBytes, leBytes, leBytes, List.zipWith_cons_cons, ofNat_xor, hdiv, ih]

/-- `u32::to_le_bytes` as a list. -/
def bytes4 (w : UInt32) : List UInt8 := leBytes 4 w.toNat

/-- `u32::from_le_bytes`. -/
def word4 (bs : List UInt8) : UInt32 := UInt32.ofNat (ofLe bs)

@[simp] theorem bytes4_length (w : UInt32) : (bytes4 w).length = 4 := leBytes_length 4 _

theorem bytes4_word4 {bs : List UInt8} (h : bs.length = 4) : bytes4 (word4 bs) = bs := by
  have hlt := ofLe_lt bs
  rw [h] at hlt
  have hbs := leBytes_ofLe bs
  rw [h] at hbs
  rw [bytes4, word4, UInt32.toNat_ofNat_of_lt' (by simpa using hlt), hbs]

theorem word4_bytes4 (w : UInt32) : word4 (bytes4 w) = w := by
  have hw : w.toNat % 256 ^ 4 = w.toNat := Nat.mod_eq_of_lt w.toNat_lt
  rw [word4, bytes4, ofLe_leBytes, hw, UInt32.ofNat_toNat]

theorem bytes4_inj {v w : UInt32} (h : bytes4 v = bytes4 w) : v = w :=
  UInt32.toNat_inj.mp (leBytes_inj (by simpa using v.toNat_lt) (by simpa using w.toNat_lt) h)

theorem bytes4_xor (v w : UInt32) :
    bytes4 (v ^^^ w) = List.zipWith (· ^^^ ·) (bytes4 v) (bytes4 w) := by
  rw [bytes4, UInt32.toNat_xor, leBytes_xor]
  rfl

/-- Twelve bytes in three words. -/
def bytes12 (h : UInt32 × UInt32 × UInt32) : List UInt8 :=
  bytes4 h.1 ++ bytes4 h.2.1 ++ bytes4 h.2.2

@[simp] theorem bytes12_length (h : UInt32 × UInt32 × UInt32) : (bytes12 h).length = 12 := by
  simp [bytes12]

theorem bytes12_inj {g h : UInt32 × UInt32 × UInt32} (he : bytes12 g = bytes12 h) : g = h := by
  obtain ⟨h₁, h₂⟩ := List.append_inj he (by simp)
  obtain ⟨h₀, h₁⟩ := List.append_inj h₁ (by simp)
  exact Prod.ext (bytes4_inj h₀) (Prod.ext (bytes4_inj h₁) (bytes4_inj h₂))

/-- The high half of one word below the low half of the next. -/
theorem shift_join_toNat (v w : UInt32) :
    ((v >>> 16) ||| (w <<< 16)).toNat = v.toNat / 65536 + w.toNat % 65536 * 65536 := by
  have hv : v.toNat / 65536 < 2 ^ 16 := by have := v.toNat_lt; omega
  have hw : w.toNat * 65536 % 4294967296 = 2 ^ 16 * (w.toNat % 65536) := by omega
  have hor := Nat.two_pow_add_eq_or_of_lt hv (w.toNat % 65536)
  simp only [UInt32.toNat_or, UInt32.toNat_shiftRight, UInt32.toNat_shiftLeft,
    Nat.shiftRight_eq_div_pow, Nat.shiftLeft_eq]
  change v.toNat / 65536 ||| w.toNat * 65536 % 4294967296 = _
  rw [hw, Nat.lor_comm, ← hor]
  omega

theorem shift_toNat (v : UInt32) : (v >>> 16).toNat = v.toNat / 65536 := by
  simp only [UInt32.toNat_shiftRight, Nat.shiftRight_eq_div_pow]
  rfl

/-- Shift three words left by two bytes. -/
def trim2 (h : UInt32 × UInt32 × UInt32) : UInt32 × UInt32 × UInt32 :=
  ((h.1 >>> 16) ||| (h.2.1 <<< 16), (h.2.1 >>> 16) ||| (h.2.2 <<< 16), h.2.2 >>> 16)

/-- The first two bytes go, two zeros follow. -/
theorem bytes12_trim2 (h : UInt32 × UInt32 × UInt32) :
    bytes12 (trim2 h) = (bytes12 h).drop 2 ++ [0, 0] := by
  obtain ⟨u, v, w⟩ := h
  have hu := u.toNat_lt
  have hv := v.toNat_lt
  have hw := w.toNat_lt
  have h0 : (0 : UInt8) = UInt8.ofNat 0 := rfl
  simp only [bytes12, trim2, bytes4, shift_join_toNat, shift_toNat, leBytes, h0, List.cons_append,
    List.nil_append, List.drop_succ_cons, List.drop_zero, List.cons.injEq, and_true]
  refine ⟨?_, ?_, ?_, ?_, ?_, ?_, ?_, ?_, ?_, ?_, ?_, ?_⟩ <;> exact ofNat_eq_of_mod (by omega)

/-- Three bytes of a word above one byte. -/
theorem bytes4_shiftIn {lo : UInt32} (hlo : lo.toNat < 2 ^ 8) (y : UInt32) :
    bytes4 (lo ||| ((y &&& 0x00ffffff) <<< 8)) = UInt8.ofNat lo.toNat :: (bytes4 y).take 3 := by
  have hlow : (y &&& 0x00ffffff).toNat = y.toNat % 2 ^ 24 := by
    rw [UInt32.toNat_and]
    exact Nat.and_two_pow_sub_one_eq_mod y.toNat 24
  have hsh : ((y &&& 0x00ffffff) <<< 8).toNat = 2 ^ 8 * (y.toNat % 2 ^ 24) := by
    rw [UInt32.toNat_shiftLeft, hlow, Nat.shiftLeft_eq]
    change y.toNat % 2 ^ 24 * 2 ^ 8 % 2 ^ 32 = _
    omega
  have hor := Nat.two_pow_add_eq_or_of_lt hlo (y.toNat % 2 ^ 24)
  have hval : (lo ||| ((y &&& 0x00ffffff) <<< 8)).toNat =
      2 ^ 8 * (y.toNat % 2 ^ 24) + lo.toNat := by
    rw [UInt32.toNat_or, hsh, Nat.lor_comm, ← hor]
  simp only [bytes4, hval, leBytes, List.take_succ_cons, List.take_zero, List.cons.injEq, and_true]
  refine ⟨?_, ?_, ?_, ?_⟩ <;> exact ofNat_eq_of_mod (by omega)

/-- The last byte of one word and three of the next. -/
theorem bytes4_funnel (x y : UInt32) :
    bytes4 ((x >>> 24) ||| ((y &&& 0x00ffffff) <<< 8)) = (bytes4 x).drop 3 ++ (bytes4 y).take 3 := by
  have hx := x.toNat_lt
  have hsh : (x >>> 24).toNat = x.toNat / 2 ^ 24 := by
    rw [UInt32.toNat_shiftRight, Nat.shiftRight_eq_div_pow]
    rfl
  have hbyte : (bytes4 x).drop 3 = [UInt8.ofNat (x.toNat / 2 ^ 24)] := by
    simp only [bytes4, leBytes, List.drop_succ_cons, List.drop_zero, List.cons.injEq, and_true]
    exact ofNat_eq_of_mod (by omega)
  rw [bytes4_shiftIn (by rw [hsh]; omega), hsh, hbyte]
  rfl

/-- The first byte of one word and three of the next. -/
theorem bytes4_mask (x y : UInt32) :
    bytes4 ((x &&& (0x000000ff : UInt32)) ||| ((y &&& 0x00ffffff) <<< 8)) =
      (bytes4 x).take 1 ++ (bytes4 y).take 3 := by
  have hlow : (x &&& 0x000000ff).toNat = x.toNat % 2 ^ 8 := by
    rw [UInt32.toNat_and]
    exact Nat.and_two_pow_sub_one_eq_mod x.toNat 8
  have hbyte : (bytes4 x).take 1 = [UInt8.ofNat (x.toNat % 2 ^ 8)] := by
    simp only [bytes4, leBytes, List.take_succ_cons, List.take_zero, List.cons.injEq, and_true]
    exact ofNat_eq_of_mod (by omega)
  rw [bytes4_shiftIn (by rw [hlow]; omega), hlow, hbyte]
  rfl

/-- The last byte of a word, moved to the front. -/
theorem bytes4_shift (x : UInt32) : bytes4 (x >>> 24) = (bytes4 x).drop 3 ++ [0, 0, 0] := by
  have h := bytes4_funnel x 0
  have h0 : ((0 : UInt32) &&& (0x00ffffff : UInt32)) <<< 8 = 0 := rfl
  rwa [h0, UInt32.or_zero] at h

/-! ### 64-bit words -/

/-- `u64::to_le_bytes` as a list. -/
def bytes8 (w : UInt64) : List UInt8 := leBytes 8 w.toNat

/-- `u64::from_le_bytes`. -/
def word8 (bs : List UInt8) : UInt64 := UInt64.ofNat (ofLe bs)

@[simp] theorem bytes8_length (w : UInt64) : (bytes8 w).length = 8 := leBytes_length 8 _

/-- A byte put above the bits of a word. -/
theorem or_byte {x s : UInt64} {k : ℕ} (b : UInt8) (hs : s.toNat = k) (hk : k + 8 ≤ 64)
    (hx : x.toNat < 2 ^ k) : (x ||| (b.toUInt64 <<< s)).toNat = 2 ^ k * b.toNat + x.toNat := by
  have hb := b.toNat_lt
  have hle : 2 ^ k * b.toNat < 2 ^ 64 := by
    calc 2 ^ k * b.toNat < 2 ^ k * 2 ^ 8 := Nat.mul_lt_mul_of_pos_left hb (Nat.two_pow_pos k)
      _ = 2 ^ (k + 8) := (Nat.pow_add 2 k 8).symm
      _ ≤ 2 ^ 64 := Nat.pow_le_pow_right (by decide) hk
  have hor := Nat.two_pow_add_eq_or_of_lt hx b.toNat
  rw [UInt64.toNat_or, UInt64.toNat_shiftLeft, UInt8.toNat_toUInt64, hs,
    Nat.mod_eq_of_lt (show k < 64 by omega), Nat.shiftLeft_eq, Nat.mul_comm b.toNat,
    Nat.mod_eq_of_lt hle, Nat.lor_comm, ← hor]

/-- The same for the 32-bit word. -/
theorem or_byte32 {x s : UInt32} {k : ℕ} (b : UInt8) (hs : s.toNat = k) (hk : k + 8 ≤ 32)
    (hx : x.toNat < 2 ^ k) : (x ||| (b.toUInt32 <<< s)).toNat = 2 ^ k * b.toNat + x.toNat := by
  have hb := b.toNat_lt
  have hle : 2 ^ k * b.toNat < 2 ^ 32 := by
    calc 2 ^ k * b.toNat < 2 ^ k * 2 ^ 8 := Nat.mul_lt_mul_of_pos_left hb (Nat.two_pow_pos k)
      _ = 2 ^ (k + 8) := (Nat.pow_add 2 k 8).symm
      _ ≤ 2 ^ 32 := Nat.pow_le_pow_right (by decide) hk
  have hor := Nat.two_pow_add_eq_or_of_lt hx b.toNat
  rw [UInt32.toNat_or, UInt32.toNat_shiftLeft, UInt8.toNat_toUInt32, hs,
    Nat.mod_eq_of_lt (show k < 32 by omega), Nat.shiftLeft_eq, Nat.mul_comm b.toNat,
    Nat.mod_eq_of_lt hle, Nat.lor_comm, ← hor]

/-- Four bytes joined by shifts and disjunctions are the little-endian word. -/
theorem or_bytes4 (a b c d : UInt8) :
    a.toUInt32 ||| b.toUInt32 <<< 8 ||| c.toUInt32 <<< 16 ||| d.toUInt32 <<< 24 =
      word4 [a, b, c, d] := by
  have ha := a.toNat_lt
  have hb := b.toNat_lt
  have hc := c.toNat_lt
  have hd := d.toNat_lt
  have h8 : (8 : UInt32).toNat = 8 := rfl
  have h16 : (16 : UInt32).toNat = 16 := rfl
  have h24 : (24 : UInt32).toNat = 24 := rfl
  have h₁ := or_byte32 (x := a.toUInt32) b h8 (by decide) (by simpa using ha)
  rw [UInt8.toNat_toUInt32] at h₁
  have h₂ := or_byte32 (x := a.toUInt32 ||| b.toUInt32 <<< 8) c h16 (by decide)
    (by rw [h₁]; omega)
  have h₃ := or_byte32 (x := a.toUInt32 ||| b.toUInt32 <<< 8 ||| c.toUInt32 <<< 16) d h24
    (by decide) (by rw [h₂, h₁]; omega)
  refine UInt32.toNat_inj.mp (h₃.trans ?_)
  rw [h₂, h₁, word4, UInt32.toNat_ofNat_of_lt']
  · simp only [ofLe]
    omega
  · simp only [ofLe, UInt32.size]
    omega

theorem leBytes_getD (k x : ℕ) {j : ℕ} (hj : j < k) :
    (leBytes k x).getD j 0 = UInt8.ofNat (x / 256 ^ j) := by
  induction k generalizing x j with
  | zero => cases hj
  | succ k ih =>
    cases j with
    | zero => simp [leBytes]
    | succ j =>
      rw [leBytes, List.getD_cons_succ, ih _ (by omega), Nat.div_div_eq_div_mul, Nat.pow_succ,
        Nat.mul_comm 256]

/-- A byte of a word, by shift and mask. -/
theorem byte_shift (w : UInt64) {j : ℕ} (hj : j < 8) :
    ((w >>> UInt64.ofNat (j * 8)) &&& 0xFF).toUInt8 = (bytes8 w).getD j 0 := by
  have hs : (UInt64.ofNat (j * 8)).toNat = j * 8 :=
    UInt64.toNat_ofNat_of_lt' (by change j * 8 < 2 ^ 64; omega)
  have hmask : (w >>> UInt64.ofNat (j * 8) &&& 0xFF).toNat =
      (w >>> UInt64.ofNat (j * 8)).toNat % 2 ^ 8 := by
    rw [UInt64.toNat_and]
    exact Nat.and_two_pow_sub_one_eq_mod _ 8
  rw [bytes8, leBytes_getD 8 _ hj]
  refine UInt8.toNat_inj.mp ?_
  rw [UInt64.toNat_toUInt8, hmask, UInt64.toNat_shiftRight, hs,
    Nat.mod_eq_of_lt (show j * 8 < 64 by omega), Nat.shiftRight_eq_div_pow, Nat.mod_mod,
    UInt8.toNat_ofNat', Nat.mul_comm, Nat.pow_mul]

/-- The 64-bit word with a low and a high half. -/
def joinWords (p : UInt32 × UInt32) : UInt64 := ⟨p.2.toBitVec ++ p.1.toBitVec⟩

theorem joinWords_toNat (p : UInt32 × UInt32) :
    (joinWords p).toNat = p.1.toNat + 2 ^ 32 * p.2.toNat := by
  have hlo := p.1.toNat_lt
  have hor := Nat.two_pow_add_eq_or_of_lt hlo p.2.toNat
  have happ : (joinWords p).toNat = p.2.toNat <<< 32 ||| p.1.toNat := BitVec.toNat_append _ _
  rw [happ, Nat.shiftLeft_eq, Nat.mul_comm, ← hor, Nat.add_comm]

theorem bytes8_joinWords (p : UInt32 × UInt32) :
    bytes8 (joinWords p) = bytes4 p.1 ++ bytes4 p.2 := by
  have hle := leBytes_ofLe (bytes4 p.1 ++ bytes4 p.2)
  have hlo : p.1.toNat % 256 ^ 4 = p.1.toNat := Nat.mod_eq_of_lt p.1.toNat_lt
  have hhi : p.2.toNat % 256 ^ 4 = p.2.toNat := Nat.mod_eq_of_lt p.2.toNat_lt
  rw [ofLe_append, bytes4_length, bytes4, bytes4, ofLe_leBytes, ofLe_leBytes, hlo, hhi,
    List.length_append, leBytes_length, leBytes_length] at hle
  rw [bytes8, joinWords_toNat]
  exact hle

theorem joinWords_word4 {lo hi : List UInt8} (hlo : lo.length = 4) (hhi : hi.length = 4) :
    joinWords (word4 lo, word4 hi) = word8 (lo ++ hi) := by
  have hl := ofLe_lt lo
  have hh := ofLe_lt hi
  have hb := ofLe_lt (lo ++ hi)
  rw [List.length_append, hlo, hhi] at hb
  rw [hlo] at hl
  rw [hhi] at hh
  refine UInt64.toNat_inj.mp ?_
  rw [joinWords_toNat, word8, word4, word4, UInt64.toNat_ofNat_of_lt' hb,
    UInt32.toNat_ofNat_of_lt' hl, UInt32.toNat_ofNat_of_lt' hh, ofLe_append, hlo]
  rfl

theorem toBitVec_mod_32 {m : ℕ} (hm : m < 32) : ((UInt32.ofNat m).toBitVec % 32).toNat = m := by
  have h32 : (UInt32.ofNat m).toNat = m := UInt32.toNat_ofNat_of_lt' (by change m < 2 ^ 32; omega)
  rw [BitVec.toNat_umod, UInt32.toNat_toBitVec, h32]
  exact Nat.mod_eq_of_lt hm

/-- The bits of one word shifted into another. -/
theorem funnel_bit (x y : UInt32) {m i : ℕ} (h0 : 0 < m) (hm : m < 32) (hi : i < 32) :
    ((x >>> UInt32.ofNat m) ||| (y <<< UInt32.ofNat (32 - m))).toBitVec.getLsbD i =
      if m + i < 32 then x.toBitVec.getLsbD (m + i) else y.toBitVec.getLsbD (m + i - 32) := by
  have hl : 32 - m < 32 := by omega
  rw [UInt32.toBitVec_or, UInt32.toBitVec_shiftRight, UInt32.toBitVec_shiftLeft, BitVec.getLsbD_or,
    BitVec.getLsbD_shiftLeft', BitVec.ushiftRight_eq', BitVec.getLsbD_ushiftRight,
    toBitVec_mod_32 hm, toBitVec_mod_32 hl]
  by_cases h : m + i < 32
  · have hi' : i < 32 - m := by omega
    simp [h, hi']
  · have hi' : ¬ i < 32 - m := by omega
    have hge : x.toBitVec.getLsbD (m + i) = false := BitVec.getLsbD_of_ge _ _ (by omega)
    have hsub : i - (32 - m) = m + i - 32 := by omega
    simp [h, hi, hi', hge, hsub]

theorem joinWords_bit (p : UInt32 × UInt32) (i : ℕ) : (joinWords p).toBitVec.getLsbD i =
    if i < 32 then p.1.toBitVec.getLsbD i else p.2.toBitVec.getLsbD (i - 32) :=
  BitVec.getLsbD_append

theorem rotateRight_bit (x : BitVec 64) {n i : ℕ} (hn : n < 64) (hi : i < 64) :
    (x.rotateRight n).getLsbD i =
      if n + i < 64 then x.getLsbD (n + i) else x.getLsbD (n + i - 64) := by
  rw [BitVec.getLsbD_rotateRight_of_lt hn]
  by_cases h : n + i < 64
  · have hi' : i < 64 - n := by omega
    simp [h, hi']
  · have hi' : ¬ i < 64 - n := by omega
    have hsub : i - (64 - n) = n + i - 64 := by omega
    simp [h, hi, hi', hsub]

/-! ### Strings of blocks -/

/-- Consecutive blocks of a string of blocks of one length. -/
theorem flatMap_blocks {α β : Type*} {f : α → List β} {w : ℕ} {xs : List α}
    (hw : ∀ x ∈ xs, (f x).length = w) (i m : ℕ) :
    ((xs.flatMap f).drop (i * w)).take (m * w) = ((xs.drop i).take m).flatMap f := by
  induction xs generalizing i m with
  | nil => simp
  | cons x xs ih =>
    have hx := hw x List.mem_cons_self
    have hxs := fun y hy => hw y (List.mem_cons_of_mem x hy)
    cases i with
    | zero =>
      cases m with
      | zero => simp
      | succ m =>
        have ih := ih hxs 0 m
        rw [Nat.zero_mul, List.drop_zero, List.drop_zero] at ih ⊢
        rw [List.flatMap_cons, List.take_succ_cons, List.flatMap_cons, ← ih, Nat.succ_mul,
          Nat.add_comm, List.take_append, hx, Nat.add_sub_cancel_left,
          List.take_of_length_le (by omega)]
    | succ i =>
      rw [List.flatMap_cons, List.drop_succ_cons, ← ih hxs i m, Nat.succ_mul, Nat.add_comm,
        ← List.drop_drop, List.drop_left' hx]

/-- Block `i` of a string of blocks of one length. -/
theorem flatMap_block {α β : Type*} {f : α → List β} {w : ℕ} {xs : List α}
    (hw : ∀ x ∈ xs, (f x).length = w) (i : ℕ) (hi : i < xs.length) :
    ((xs.flatMap f).drop (i * w)).take w = f xs[i] := by
  have h := flatMap_blocks hw i 1
  rwa [Nat.one_mul, List.take_one_drop_eq_of_lt_length hi, List.flatMap_singleton] at h

/-- Cutting a string into slices of one length, and putting them together again. -/
theorem flatMap_slices {α : Type*} {w k : ℕ} {bs : List α} (h : bs.length = k * w) :
    ((List.range k).flatMap fun i => (bs.drop (i * w)).take w) = bs := by
  have hrun : ∀ k, ((List.range k).flatMap fun i => (bs.drop (i * w)).take w) = bs.take (k * w) := by
    intro k
    induction k with
    | zero => simp
    | succ k ih =>
      rw [List.range_succ, List.flatMap_append, ih, Nat.succ_mul, List.take_add,
        List.flatMap_singleton]
  rw [hrun, List.take_of_length_le h.le]

/-- A slice, read cell by cell. -/
theorem map_getD_range {α : Type*} (d : α) {xs : List α} {a w : ℕ} (h : a + w ≤ xs.length) :
    ((List.range w).map fun j => xs.getD (a + j) d) = (xs.drop a).take w := by
  refine List.ext_getElem ?_ fun j hj _ => ?_
  · rw [List.length_map, List.length_range, List.length_take, List.length_drop]
    omega
  · rw [List.length_map, List.length_range] at hj
    rw [List.getElem_map, List.getElem_range, List.getElem_take, List.getElem_drop,
      List.getD_eq_getElem _ _ (by omega)]

/-- A string written down function value by function value. -/
theorem flatMap_ofFn {α β : Type*} (k : ℕ) (f : ℕ → α) (g : α → List β) :
    (List.ofFn fun i : Fin k => f i).flatMap g = (List.range k).flatMap fun i => g (f i) := by
  have hrange : (List.ofFn fun i : Fin k => f i) = (List.range k).map f :=
    List.ext_getElem (by simp) (by simp)
  rw [hrange, List.flatMap_map]

/-- Words read off a string, and their bytes. -/
theorem flatMap_word4 {k : ℕ} {bs : List UInt8} (h : bs.length = k * 4) :
    ((List.range k).flatMap fun i => bytes4 (word4 ((bs.drop (i * 4)).take 4))) = bs := by
  refine Eq.trans (List.flatMap_congr fun i hi => bytes4_word4 ?_) (flatMap_slices h)
  have hik := List.mem_range.mp hi
  rw [List.length_take, List.length_drop]
  omega

/-! ### Tables made in chunks -/

theorem takeWhile_congr {α : Type*} {p q : α → Bool} {xs : List α} (h : ∀ x ∈ xs, p x = q x) :
    xs.takeWhile p = xs.takeWhile q := by
  induction xs with
  | nil => rfl
  | cons x xs ih =>
    rw [List.takeWhile_cons, List.takeWhile_cons, h x List.mem_cons_self,
      ih fun y hy => h y (List.mem_cons_of_mem _ hy)]

/-- The cells of `n` rows of `w`. -/
theorem range_rows (n w : ℕ) :
    ((List.range n).flatMap fun i => (List.range w).map (i * w + ·)) = List.range (n * w) := by
  induction n with
  | zero => simp
  | succ n ih =>
    rw [List.range_succ, List.flatMap_append, ih, List.flatMap_singleton, Nat.succ_mul,
      List.range_add]

theorem takeWhile_range (w m : ℕ) :
    (List.range w).takeWhile (fun k => decide (k < m)) = List.range (min w m) := by
  induction w generalizing m with
  | zero => simp
  | succ w ih =>
    cases m with
    | zero => simp [List.range_succ_eq_map]
    | succ m =>
      rw [List.range_succ_eq_map, List.takeWhile_cons_of_pos (by simp), List.takeWhile_map,
        show min (w + 1) (m + 1) = min w m + 1 by omega, List.range_succ_eq_map, ← ih m]
      simp [Function.comp_def]

/-- `t` chunks of `w`, each left at the end of the table, run over the table of `n`. -/
theorem flatMap_chunks {α : Type*} (g : ℕ → List α) {w n t : ℕ} (h : n ≤ t * w) :
    ((List.range t).flatMap fun c =>
      ((List.range w).takeWhile fun k => decide (c * w + k < n)).flatMap fun k =>
        g (c * w + k)) = (List.range n).flatMap g := by
  have hrun : ∀ t, ((List.range t).flatMap fun c =>
      ((List.range w).takeWhile fun k => decide (c * w + k < n)).flatMap fun k =>
        g (c * w + k)) = (List.range (min (t * w) n)).flatMap g := by
    intro t
    induction t with
    | zero => simp
    | succ t ih =>
      have hcut : ∀ k, decide (t * w + k < n) = decide (k < n - t * w) := fun k => by
        rw [decide_eq_decide]
        omega
      have hend : min ((t + 1) * w) n = min (t * w) n + min w (n - t * w) := by
        rw [Nat.succ_mul]
        omega
      rw [List.range_succ, List.flatMap_append, ih, hend, List.range_add, List.flatMap_append]
      simp only [List.flatMap_cons, List.flatMap_nil, List.append_nil, hcut, takeWhile_range,
        List.flatMap_map]
      obtain hle | hgt := Nat.le_total (t * w) n
      · rw [Nat.min_eq_left hle]
      · rw [Nat.sub_eq_zero_of_le hgt, Nat.min_zero]
        rfl
  rw [hrun, Nat.min_eq_right h]

end Equium.Schemes
