import Equium.Core.Challenge
import Equium.Schemes.Limbs
import Equium.Schemes.Words

/-! @src crates/equihash-core/src/target.rs | name:Target arithmetic

    `scale_target` is hand-rolled 256-bit arithmetic on `u128` limbs. `scaleTarget_eq` says what it
    computes: the floor of the product over the divisor, capped at the easiest target. No branch
    panics as long as the divisor is not zero. -/

namespace Equium.Core
open Schemes

/-- A target as a number. -/
def targetNat (t : Bytes32) : ℕ := ofBe t.toList

theorem targetNat_lt (t : Bytes32) : targetNat t < 2 ^ 256 := by
  have h := ofBe_lt t.toList
  rw [Vector.length_toList] at h
  exact h.trans_eq (by norm_num)

theorem targetNat_maxTarget : targetNat maxTarget = 2 ^ 256 - 1 := by decide +kernel

/-! ### The comparison -/

theorem ofBe_cons (b : UInt8) (bs : List UInt8) :
    ofBe (b :: bs) = b.toNat * 256 ^ bs.length + ofBe bs := by
  rw [← List.singleton_append, ofBe_append]
  simp [ofBe, ofLe]

/-- Byte by byte is the order of the numbers. -/
theorem bytesUnder_iff {hs ts : List UInt8} (hlen : hs.length = ts.length) :
    bytesUnder hs ts = true ↔ ofBe hs < ofBe ts := by
  induction hs generalizing ts with
  | nil =>
    obtain rfl := List.length_eq_zero_iff.mp hlen.symm
    simp [bytesUnder]
  | cons h hs ih =>
    obtain ⟨t, ts, rfl⟩ := List.exists_cons_of_length_eq_add_one hlen.symm
    have hrest : hs.length = ts.length := by simpa using hlen
    have hhs := ofBe_lt hs
    have hts := ofBe_lt ts
    rw [bytesUnder, ofBe_cons, ofBe_cons, hrest]
    rw [hrest] at hhs
    rcases Nat.lt_trichotomy h.toNat t.toNat with hlt | heq | hgt
    · have hstep := Nat.mul_le_mul_right (256 ^ ts.length) hlt
      rw [if_pos (UInt8.lt_iff_toNat_lt.mpr hlt)]
      rw [Nat.succ_mul] at hstep
      simp only [true_iff]
      omega
    · obtain rfl := UInt8.toNat_inj.mp heq
      rw [if_neg (UInt8.lt_irrefl h), if_neg (UInt8.lt_irrefl h), ih hrest]
      omega
    · have hstep := Nat.mul_le_mul_right (256 ^ ts.length) hgt
      rw [if_neg (fun hl => absurd (UInt8.lt_iff_toNat_lt.mp hl) (by omega)),
        if_pos (UInt8.lt_iff_toNat_lt.mpr hgt)]
      rw [Nat.succ_mul] at hstep
      simp only [Bool.false_eq_true, false_iff, not_lt]
      omega

/-- `hash_under_target` compares numbers. -/
theorem hashUnderTarget_iff (h t : Bytes32) :
    hashUnderTarget h t = true ↔ targetNat h < targetNat t :=
  bytesUnder_iff (by rw [Vector.length_toList, Vector.length_toList])

/-! ### Limbs of a target -/

theorem limb_lt (t : Bytes32) (i : ℕ) : limb t i < 2 ^ 64 := by
  have h := ofBe_lt ((t.toList.drop (8 * i)).take 8)
  refine h.trans_le ?_
  calc 256 ^ ((t.toList.drop (8 * i)).take 8).length ≤ 256 ^ 8 :=
        Nat.pow_le_pow_right (by omega) (List.length_take_le ..)
    _ = 2 ^ 64 := by norm_num

/-- The four limbs are the number in base `2 ^ 64`. -/
theorem targetNat_limbs (t : Bytes32) :
    targetNat t = ofLimbs (2 ^ 64) [limb t 0, limb t 1, limb t 2, limb t 3] := by
  have hlen : t.toList.length = 32 := Vector.length_toList ..
  have hsplit : t.toList = t.toList.take 8 ++ ((t.toList.drop 8).take 8 ++
      ((t.toList.drop 16).take 8 ++ (t.toList.drop 24).take 8)) := by
    have h₃ : (t.toList.drop 24).take 8 = t.toList.drop 24 :=
      List.take_of_length_le (by simp)
    have h₂ : (t.toList.drop 16).take 8 ++ t.toList.drop 24 = t.toList.drop 16 := by
      rw [← List.drop_drop (i := 8) (j := 16), List.take_append_drop]
    have h₁ : (t.toList.drop 8).take 8 ++ t.toList.drop 16 = t.toList.drop 8 := by
      rw [← List.drop_drop (i := 8) (j := 8), List.take_append_drop]
    rw [h₃, h₂, h₁, List.take_append_drop]
  have hmin : min 8 (32 - 8) = 8 ∧ min 8 (32 - 16) = 8 ∧ min 8 (32 - 24) = 8 := by decide
  rw [targetNat, hsplit, ofBe_append, ofBe_append, ofBe_append]
  simp only [ofLimbs, limb, List.length_append, List.length_take, List.length_drop, hlen, hmin,
    List.length_cons, List.length_nil, Nat.mul_zero, List.drop_zero]
  ring

theorem ofBe_toBe64 {x : ℕ} (h : x < 2 ^ 64) : ofBe (toBe64 x) = x := by
  rw [ofBe, toBe64, List.reverse_reverse, ofLe_leBytes]
  exact Nat.mod_eq_of_lt h

/-! ### The machine operations against the digit operations -/

@[simp] theorem toBe64_length (x : ℕ) : (toBe64 x).length = 8 := by simp [toBe64]

theorem u128_some {x : ℕ} (h : x < 2 ^ 128) : u128 x = some x := if_pos h

/-- A chain goes on past a checked operation that does not overflow. -/
theorem u128_bind {α : Type} {x : ℕ} (h : x < 2 ^ 128) (f : ℕ → Option α) :
    (u128 x >>= f) = f x := bind_of_some (u128_some h) f

/-- Where no limb overflows, the carry loop is `propagate`, and its carries are small. -/
theorem carryLimbs_propagate {as : List ℕ} (h : ∀ a ∈ as, a < 2 ^ 127) :
    carryLimbs as = some (propagate (2 ^ 64) as) ∧ (propagate (2 ^ 64) as).2 < 2 ^ 64 := by
  induction as with
  | nil => exact ⟨rfl, by simp [propagate]⟩
  | cons a as ih =>
    obtain ⟨heq, hc⟩ := ih fun x hx => h x (by simp [hx])
    have ha := h a (by simp)
    have hsum : a + (propagate (2 ^ 64) as).2 < 2 ^ 128 := by omega
    refine ⟨?_, ?_⟩
    · simp only [carryLimbs, heq, Option.bind_eq_bind, Option.bind_some, u128_some hsum, propagate]
      rfl
    · rw [propagate]
      exact Nat.div_lt_of_lt_mul (by omega)

/-- The carry loop keeps the value and leaves proper limbs. -/
theorem carryLimbs_eq {as : List ℕ} (h : ∀ a ∈ as, a < 2 ^ 127) :
    ∃ low c, carryLimbs as = some (low, c) ∧ c < 2 ^ 64 ∧ low.length = as.length ∧
      (∀ a ∈ low, a < 2 ^ 64) ∧
      c * (2 ^ 64) ^ as.length + ofLimbs (2 ^ 64) low = ofLimbs (2 ^ 64) as := by
  obtain ⟨heq, hc⟩ := carryLimbs_propagate h
  exact ⟨_, _, heq, hc, propagate_length as, propagate_lt (by norm_num) as, propagate_value as⟩

/-- The long division never truncates: shifting in a limb is adding it. -/
theorem divLimbs_eq {d rem : ℕ} (hd : d < 2 ^ 64) (hrem : rem < d) {as : List ℕ}
    (h : ∀ a ∈ as, a < 2 ^ 64) : divLimbs d rem as = longDiv (2 ^ 64) d rem as := by
  induction as generalizing rem with
  | nil => rfl
  | cons a as ih =>
    have ha := h a (by simp)
    have hcur : (rem * 2 ^ 64 % 2 ^ 128) ||| a = rem * 2 ^ 64 + a := by
      rw [Nat.mod_eq_of_lt (by omega), mul_comm, Nat.two_pow_add_eq_or_of_lt ha]
    have hq := longDiv_lt (B := 2 ^ 64) hrem h ((rem * 2 ^ 64 + a) / d) (by simp [longDiv])
    rw [divLimbs, longDiv]
    simp only [hcur, Nat.mod_eq_of_lt hq]
    rw [ih (Nat.mod_lt _ (by omega)) fun x hx => h x (by simp [hx])]

/-! ### What `scale_target` computes -/

/-- The four partial products, added up in limbs. -/
theorem product_limbs {p0 p1 p2 p3 : ℕ} (h1 : p1 ≤ (2 ^ 64 - 1) * (2 ^ 64 - 1))
    (h2 : p2 ≤ (2 ^ 64 - 1) * (2 ^ 64 - 1)) (h3 : p3 ≤ (2 ^ 64 - 1) * (2 ^ 64 - 1)) :
    ∃ low c, carryLimbs [p0 % 2 ^ 64 + p1 / 2 ^ 64, p1 % 2 ^ 64 + p2 / 2 ^ 64,
        p2 % 2 ^ 64 + p3 / 2 ^ 64, p3 % 2 ^ 64] = some (low, c) ∧ c < 2 ^ 64 ∧ low.length = 4 ∧
      (∀ a ∈ low, a < 2 ^ 64) ∧
      (p0 / 2 ^ 64 + c) * 2 ^ 256 + ofLimbs (2 ^ 64) low =
        p0 * 2 ^ 192 + p1 * 2 ^ 128 + p2 * 2 ^ 64 + p3 := by
  have hsmall : ∀ a ∈ [p0 % 2 ^ 64 + p1 / 2 ^ 64, p1 % 2 ^ 64 + p2 / 2 ^ 64,
      p2 % 2 ^ 64 + p3 / 2 ^ 64, p3 % 2 ^ 64], a < 2 ^ 127 := by
    simp only [List.forall_mem_cons, List.not_mem_nil, false_imp_iff, implies_true, and_true]
    omega
  obtain ⟨low, c, hcarry, hc, hlen, hlow, hval⟩ := carryLimbs_eq hsmall
  refine ⟨low, c, hcarry, hc, hlen, hlow, ?_⟩
  calc (p0 / 2 ^ 64 + c) * 2 ^ 256 + ofLimbs (2 ^ 64) low
      = p0 / 2 ^ 64 * 2 ^ 256 + (c * (2 ^ 64) ^ 4 + ofLimbs (2 ^ 64) low) := by ring
    _ = (2 ^ 64 * (p0 / 2 ^ 64) + p0 % 2 ^ 64) * 2 ^ 192 +
          (2 ^ 64 * (p1 / 2 ^ 64) + p1 % 2 ^ 64) * 2 ^ 128 +
          (2 ^ 64 * (p2 / 2 ^ 64) + p2 % 2 ^ 64) * 2 ^ 64 +
          (2 ^ 64 * (p3 / 2 ^ 64) + p3 % 2 ^ 64) := by
        rw [show c * (2 ^ 64) ^ 4 + ofLimbs (2 ^ 64) low = _ from hval]
        simp only [ofLimbs, List.length_cons, List.length_nil]
        ring
    _ = p0 * 2 ^ 192 + p1 * 2 ^ 128 + p2 * 2 ^ 64 + p3 := by
        rw [Nat.div_add_mod, Nat.div_add_mod, Nat.div_add_mod, Nat.div_add_mod]

/-- The quotient in limbs, most significant first. -/
theorem quotient_limbs {d : ℕ} (hd : 0 < d) (hlt : d < 2 ^ 64) {as : List ℕ}
    (hlen : as.length = 5) (has : ∀ a ∈ as, a < 2 ^ 64) :
    ∃ q0 q1 q2 q3 q4, divLimbs d 0 as = [q0, q1, q2, q3, q4] ∧ q1 < 2 ^ 64 ∧ q2 < 2 ^ 64 ∧
      q3 < 2 ^ 64 ∧ q4 < 2 ^ 64 ∧
      ofLimbs (2 ^ 64) [q0, q1, q2, q3, q4] = ofLimbs (2 ^ 64) as / d := by
  have heq := divLimbs_eq hlt hd has
  have hq := longDiv_lt hd has
  have hval := longDiv_value (B := 2 ^ 64) hd as
  have hqlen := longDiv_length (B := 2 ^ 64) (d := d) 0 as
  rw [hlen] at hqlen
  rw [← heq] at hq hval hqlen
  match hl : divLimbs d 0 as, hqlen with
  | [q0, q1, q2, q3, q4], _ =>
    rw [hl] at hq hval
    exact ⟨q0, q1, q2, q3, q4, rfl, hq q1 (by simp), hq q2 (by simp), hq q3 (by simp),
      hq q4 (by simp), by simpa using hval⟩

/-- The checked part of `scale_target` ahead of its division: five proper limbs of the product. -/
theorem scale_acc (t : Bytes32) (num : UInt64) {d : ℕ} (hd : d < 2 ^ 64) :
    ∃ acc0 low c, acc0 < 2 ^ 64 ∧ low.length = 4 ∧ (∀ a ∈ low, a < 2 ^ 64) ∧
      ofLimbs (2 ^ 64) (acc0 :: low) = targetNat t * num.toNat ∧
      ∀ {α : Type} (f : List ℕ × ℕ → ℕ → ℕ → Option α), (do
        let p0 ← u128 (limb t 0 * num.toNat)
        let p1 ← u128 (limb t 1 * num.toNat)
        let p2 ← u128 (limb t 2 * num.toNat)
        let p3 ← u128 (limb t 3 * num.toNat)
        let acc1 ← u128 (p0 % 2 ^ 64 + p1 / 2 ^ 64)
        let acc2 ← u128 (p1 % 2 ^ 64 + p2 / 2 ^ 64)
        let acc3 ← u128 (p2 % 2 ^ 64 + p3 / 2 ^ 64)
        let sum ← carryLimbs [acc1, acc2, acc3, p3 % 2 ^ 64]
        let acc0 ← u128 (p0 / 2 ^ 64 + sum.2)
        let bound ← u128 (d * 2 ^ 64)
        f sum acc0 bound) = f (low, c) acc0 (d * 2 ^ 64) := by
  have htlt := targetNat_lt t
  have hn := num.toNat_lt
  have hprod : ∀ i, limb t i * num.toNat ≤ (2 ^ 64 - 1) * (2 ^ 64 - 1) := fun i =>
    Nat.mul_le_mul (by have := limb_lt t i; omega) (by omega)
  have hvalue : targetNat t * num.toNat = limb t 0 * num.toNat * 2 ^ 192 +
      limb t 1 * num.toNat * 2 ^ 128 + limb t 2 * num.toNat * 2 ^ 64 + limb t 3 * num.toNat := by
    rw [targetNat_limbs]
    simp only [ofLimbs, List.length_cons, List.length_nil]
    ring
  have hfits : targetNat t * num.toNat < 2 ^ 256 * 2 ^ 64 :=
    Nat.mul_lt_mul_of_lt_of_le htlt hn.le (by norm_num)
  have h0 := hprod 0
  have h1 := hprod 1
  have h2 := hprod 2
  have h3 := hprod 3
  generalize targetNat t * num.toNat = P at *
  generalize limb t 0 * num.toNat = p0 at *
  generalize limb t 1 * num.toNat = p1 at *
  generalize limb t 2 * num.toNat = p2 at *
  generalize limb t 3 * num.toNat = p3 at *
  obtain ⟨low, c, hcarry, hc, hlen, hlow, hP⟩ := product_limbs h1 h2 h3
  rw [← hvalue] at hP
  have htop : p0 / 2 ^ 64 + c < 2 ^ 64 := by
    refine Nat.lt_of_mul_lt_mul_left (a := 2 ^ 256) (lt_of_le_of_lt ?_ hfits)
    rw [← hP, mul_comm]
    exact Nat.le_add_right _ _
  refine ⟨p0 / 2 ^ 64 + c, low, c, htop, hlen, hlow, ?_, fun f => ?_⟩
  · rw [ofLimbs, hlen, ← hP]
    ring
  · rw [u128_bind (by omega), u128_bind (by omega), u128_bind (by omega), u128_bind (by omega),
      u128_bind (by omega), u128_bind (by omega), u128_bind (by omega), bind_of_some hcarry]
    dsimp only
    rw [u128_bind (by omega), u128_bind (by omega)]

/-- `scale_target` is the exact quotient, capped at `2 ^ 256 - 1`. -/
theorem scaleTarget_eq (t : Bytes32) (num : UInt64) {den : UInt64} (hden : 0 < den.toNat) :
    ∃ r, scaleTarget t num den = some r ∧
      targetNat r = min (2 ^ 256 - 1) (targetNat t * num.toNat / den.toNat) := by
  unfold scaleTarget
  have htlt := targetNat_lt t
  by_cases hnd : num = den
  · rw [if_pos hnd, hnd]
    exact ⟨t, rfl, by rw [Nat.mul_div_cancel _ hden, min_eq_right (Nat.le_sub_one_of_lt htlt)]⟩
  rw [if_neg hnd]
  dsimp only
  obtain ⟨acc0, low, c, hacc0, hlen, hlow, hval, hchain⟩ := scale_acc t num den.toNat_lt
  have hlen5 : (acc0 :: low).length = 5 := by simp [hlen]
  obtain ⟨q0, q1, q2, q3, q4, hdiv, hq1, hq2, hq3, hq4, hq⟩ := quotient_limbs hden den.toNat_lt
    hlen5 (List.forall_mem_cons.mpr ⟨hacc0, hlow⟩)
  rw [hval] at hq
  rw [hchain, if_neg (by omega), hdiv]
  dsimp only
  split_ifs with hq0
  · refine ⟨maxTarget, rfl, ?_⟩
    have hbig : 1 * (2 ^ 64) ^ 4 ≤ targetNat t * num.toNat / den.toNat := by
      rw [← hq, ofLimbs]
      exact le_add_right (Nat.mul_le_mul_right _ (by omega))
    rw [targetNat_maxTarget, min_eq_left]
    exact (Nat.sub_le _ 1).trans ((by norm_num : 2 ^ 256 = 1 * (2 ^ 64) ^ 4).trans_le hbig)
  · refine ⟨_, rfl, ?_⟩
    rw [← hq, not_not.mp hq0]
    have hlt : ofLimbs (2 ^ 64) [0, q1, q2, q3, q4] ≤ 2 ^ 256 - 1 := by
      rw [ofLimbs, Nat.zero_mul, Nat.zero_add]
      refine Nat.le_sub_one_of_lt (lt_of_lt_of_eq (ofLimbs_lt ?_) (by norm_num))
      simp only [List.forall_mem_cons, hq1, hq2, hq3, hq4, true_and]
      simp
    rw [min_eq_right hlt]
    simp only [targetNat, Vector.toList, ofBe_append, ofBe_toBe64 hq1, ofBe_toBe64 hq2,
      ofBe_toBe64 hq3, ofBe_toBe64 hq4, toBe64_length, ofLimbs, List.length_cons, List.length_nil]
    ring

/-! ### The same arithmetic without a wrap-around -/

/-- An unsigned 64-bit result. -/
def u64 (x : ℕ) : Option ℕ := if x < 2 ^ 64 then some x else none

theorem u64_some {x : ℕ} (h : x < 2 ^ 64) : u64 x = some x := if_pos h

/-- The long division where a bit lost by the shift or by the cast to `u64` is an error. -/
def divLimbsStrict (d : ℕ) : ℕ → List ℕ → Option (List ℕ)
  | _, [] => some []
  | rem, a :: as => do
    let shifted ← u128 (rem * 2 ^ 64)
    let cur := shifted ||| a
    let q ← u64 (cur / d)
    let qs ← divLimbsStrict d (cur % d) as
    pure (q :: qs)

/-- Four limbs, most significant first. -/
def limbBytes (q1 q2 q3 q4 : ℕ) : Bytes32 :=
  Vector.ofFn fun i => (toBe64 q1 ++ toBe64 q2 ++ toBe64 q3 ++ toBe64 q4).getD i 0

theorem limbBytes_toList (q1 q2 q3 q4 : ℕ) :
    (limbBytes q1 q2 q3 q4).toList = toBe64 q1 ++ toBe64 q2 ++ toBe64 q3 ++ toBe64 q4 := by
  have hlen : (toBe64 q1 ++ toBe64 q2 ++ toBe64 q3 ++ toBe64 q4).length = 32 := by simp [toBe64]
  refine List.ext_getElem (by rw [Vector.length_toList, hlen]) fun i _ hi => ?_
  simp [limbBytes]

/-- `scale_target` with that division: `none` is an overflow, or a bit lost, anywhere. -/
def scaleTargetStrict (old : Bytes32) (num den : UInt64) : Option Bytes32 :=
  if num = den then some old else do
    let n := num.toNat
    let d := den.toNat
    let p0 ← u128 (limb old 0 * n)
    let p1 ← u128 (limb old 1 * n)
    let p2 ← u128 (limb old 2 * n)
    let p3 ← u128 (limb old 3 * n)
    let acc1 ← u128 (p0 % 2 ^ 64 + p1 / 2 ^ 64)
    let acc2 ← u128 (p1 % 2 ^ 64 + p2 / 2 ^ 64)
    let acc3 ← u128 (p2 % 2 ^ 64 + p3 / 2 ^ 64)
    let (low, carry) ← carryLimbs [acc1, acc2, acc3, p3 % 2 ^ 64]
    let acc0 ← u128 (p0 / 2 ^ 64 + carry)
    let bound ← u128 (d * 2 ^ 64)
    if bound ≤ acc0 then some maxTarget else do
      let q ← divLimbsStrict d 0 (acc0 :: low)
      match q with
      | [q0, q1, q2, q3, q4] =>
        if q0 ≠ 0 then some maxTarget else some (limbBytes q1 q2 q3 q4)
      | _ => none

/-- The long division loses no bit. -/
theorem divLimbsStrict_eq {d rem : ℕ} (hd : d < 2 ^ 64) (hrem : rem < d) {as : List ℕ}
    (h : ∀ a ∈ as, a < 2 ^ 64) : divLimbsStrict d rem as = some (divLimbs d rem as) := by
  induction as generalizing rem with
  | nil => rfl
  | cons a as ih =>
    have ha := h a (by simp)
    have hshift : rem * 2 ^ 64 < 2 ^ 128 := by omega
    have hcur : rem * 2 ^ 64 ||| a = rem * 2 ^ 64 + a := by
      rw [mul_comm, Nat.two_pow_add_eq_or_of_lt ha]
    have hq := longDiv_lt (B := 2 ^ 64) hrem h ((rem * 2 ^ 64 + a) / d) (by simp [longDiv])
    rw [divLimbsStrict, divLimbs, u128_bind hshift, Nat.mod_eq_of_lt hshift, hcur]
    dsimp only
    rw [bind_of_some (u64_some hq), Nat.mod_eq_of_lt hq,
      ih (Nat.mod_lt _ (by omega)) fun x hx => h x (by simp [hx])]
    rfl

/-- `scale_target` never wraps around. -/
theorem scaleTargetStrict_eq (t : Bytes32) (num : UInt64) {den : UInt64} (hden : 0 < den.toNat) :
    scaleTargetStrict t num den = scaleTarget t num den := by
  have hbytes : ∀ q1 q2 q3 q4 hsize,
      (⟨(toBe64 q1 ++ toBe64 q2 ++ toBe64 q3 ++ toBe64 q4).toArray, hsize⟩ : Bytes32) =
        limbBytes q1 q2 q3 q4 := fun q1 q2 q3 q4 _ =>
    Vector.toList_inj.mp (limbBytes_toList q1 q2 q3 q4).symm
  unfold scaleTargetStrict scaleTarget
  simp only [hbytes]
  by_cases hnd : num = den
  · rw [if_pos hnd, if_pos hnd]
  rw [if_neg hnd, if_neg hnd]
  obtain ⟨acc0, low, c, hacc0, -, hlow, -, hchain⟩ := scale_acc t num den.toNat_lt
  rw [hchain, hchain, divLimbsStrict_eq den.toNat_lt hden (List.forall_mem_cons.mpr ⟨hacc0, hlow⟩)]
  rfl

/-- A target's bytes are those of its number. -/
theorem toList_eq_of_targetNat {t : Bytes32} {x : ℕ} (h : targetNat t = x) :
    t.toList = (leBytes 32 x).reverse := by
  have hle := leBytes_ofLe t.toList.reverse
  rw [List.length_reverse, Vector.length_toList] at hle
  rw [← h, targetNat, ofBe, hle, List.reverse_reverse]

/-- EXACT: `scale_target` encodes the floor of the scaled value, capped at the easiest target, and
    no product, sum, carry, shifted remainder or quotient limb loses a bit. -/
theorem scaleTarget_exact (t : Bytes32) (num den : UInt64) (hden : 0 < den) :
    scaleTargetStrict t num den = scaleTarget t num den ∧
      (scaleTarget t num den).map Vector.toList =
        some (leBytes 32 (min (2 ^ 256 - 1) (targetNat t * num.toNat / den.toNat))).reverse := by
  have hden : 0 < den.toNat := UInt64.lt_iff_toNat_lt.mp hden
  obtain ⟨r, hr, hval⟩ := scaleTarget_eq t num hden
  exact ⟨scaleTargetStrict_eq t num hden, by rw [hr, Option.map_some, toList_eq_of_targetNat hval]⟩

theorem scaleTarget_exact_half : (scaleTarget maxTarget 1 2).map Vector.toList =
    some (leBytes 32 (min (2 ^ 256 - 1) (targetNat maxTarget * 1 / 2))).reverse :=
  (scaleTarget_exact maxTarget 1 2 (by decide)).2

end Equium.Core
