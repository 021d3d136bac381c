import Mathlib.Data.List.Basic
import Mathlib.Data.Vector.Basic
import Mathlib.Algebra.Order.Ring.Nat
import Mathlib.Tactic.Ring

/-! Scheme machine: fixed-width arithmetic and byte strings as compiled code computes them.

    Checked and saturating operations on 64-bit words each come with the one lemma that says what
    they return over the naturals (or the integers); little-endian bytes come with their inverse, and
    rounding to a significand with where it is exact.
    `Except` chains are taken apart with `bind_ok`. -/

namespace Equium.Schemes

universe u

/-! ### Fallible code -/

/-- `require!(b, e)`: go on only when the condition holds. -/
def require {ε : Type*} (b : Bool) (e : ε) : Except ε Unit :=
  if b then .ok () else .error e

/-- `opt.ok_or(e)?`. -/
def okOr {ε α : Type*} (o : Option α) (e : ε) : Except ε α :=
  match o with
  | some a => .ok a
  | none => .error e

@[simp] theorem require_ok {ε : Type*} {b : Bool} {e : ε} {u : Unit} :
    require b e = .ok u ↔ b = true := by
  cases b <;> simp [require]

theorem require_of {ε : Type*} {b : Bool} {e : ε} (h : b = true) : require b e = .ok () := if_pos h

@[simp] theorem okOr_ok {ε α : Type*} {o : Option α} {e : ε} {a : α} :
    okOr o e = .ok a ↔ o = some a := by
  cases o <;> simp [okOr]

/-- A chain succeeds exactly when its first part does and the rest succeeds on the result. -/
@[simp] theorem bind_ok {ε α β : Type u} {x : Except ε α} {f : α → Except ε β} {r : β} :
    (x >>= f) = .ok r ↔ ∃ a, x = .ok a ∧ f a = .ok r := by
  cases x <;> simp [bind, Except.bind]

@[simp] theorem pure_ok {ε α : Type u} {a b : α} :
    (pure a : Except ε α) = .ok b ↔ a = b := by
  simp [pure, Except.pure]

/-- A chain fails where one of its parts does. -/
theorem bind_error {ε α β : Type u} {x : Except ε α} {f : α → Except ε β} {e : ε} :
    (x >>= f) = .error e ↔ x = .error e ∨ ∃ a, x = .ok a ∧ f a = .error e := by
  cases x <;> simp [bind, Except.bind]

/-- A chain of options goes on from a part that is there. -/
theorem bind_of_some {α β : Type u} {x : Option α} {a : α} (h : x = some a) (f : α → Option β) :
    (x >>= f) = f a := by
  rw [h]
  rfl

/-- A chain goes on from a part that succeeds. -/
theorem bind_of_ok {ε α β : Type u} {x : Except ε α} {a : α} (h : x = .ok a)
    (f : α → Except ε β) : (x >>= f) = f a := by
  rw [h]
  rfl

theorem require_error {ε : Type*} {b : Bool} {e e' : ε} :
    require b e = .error e' ↔ b = false ∧ e = e' := by
  cases b <;> simp [require]

theorem okOr_error {ε α : Type*} {o : Option α} {e e' : ε} :
    okOr o e = .error e' ↔ o = none ∧ e = e' := by
  cases o <;> simp [okOr]

/-! ### 64-bit words -/

/-- `u64::checked_add`. -/
def checkedAdd (a b : UInt64) : Option UInt64 :=
  if a.toNat + b.toNat < 2 ^ 64 then some (a + b) else none

/-- `u64::checked_sub`. -/
def checkedSub (a b : UInt64) : Option UInt64 :=
  if b ≤ a then some (a - b) else none

/-- `u64::saturating_mul`. -/
def saturatingMul (a b : UInt64) : UInt64 :=
  if a.toNat * b.toNat < 2 ^ 64 then a * b else UInt64.ofNat (2 ^ 64 - 1)

/-- `i64::saturating_sub`. -/
def saturatingSub (a b : Int64) : Int64 :=
  Int64.ofInt (max (-2 ^ 63) (min (2 ^ 63 - 1) (a.toInt - b.toInt)))

/-- `x.max(0) as u64`. -/
def maxZero (x : Int64) : UInt64 := UInt64.ofNat (max 0 x.toInt).toNat

theorem checkedAdd_some {a b c : UInt64} :
    checkedAdd a b = some c ↔ c.toNat = a.toNat + b.toNat := by
  unfold checkedAdd
  split
  · rename_i h
    have hab : (a + b).toNat = a.toNat + b.toNat := by
      rw [UInt64.toNat_add, Nat.mod_eq_of_lt h]
    rw [Option.some.injEq, ← UInt64.toNat_inj, hab]
    exact eq_comm
  · rename_i h
    have := c.toNat_lt
    constructor
    · intro hc; cases hc
    · intro hc; omega

theorem checkedSub_some {a b c : UInt64} :
    checkedSub a b = some c ↔ c.toNat + b.toNat = a.toNat := by
  unfold checkedSub
  split
  · rename_i h
    have hle := UInt64.le_iff_toNat_le.mp h
    rw [Option.some.injEq, ← UInt64.toNat_inj, UInt64.toNat_sub_of_le _ _ h]
    omega
  · rename_i h
    have hlt : ¬ b.toNat ≤ a.toNat := fun hle => h (UInt64.le_iff_toNat_le.mpr hle)
    constructor
    · intro hc; cases hc
    · intro hc; omega

theorem saturatingMul_toNat (a b : UInt64) :
    (saturatingMul a b).toNat = min (2 ^ 64 - 1) (a.toNat * b.toNat) := by
  unfold saturatingMul
  split
  · rename_i h
    rw [UInt64.toNat_mul, Nat.mod_eq_of_lt h]
    omega
  · rename_i h
    rw [UInt64.toNat_ofNat']
    omega

theorem saturatingSub_toInt (a b : Int64) :
    (saturatingSub a b).toInt = max (-2 ^ 63) (min (2 ^ 63 - 1) (a.toInt - b.toInt)) := by
  unfold saturatingSub
  exact Int64.toInt_ofInt_of_le (by omega) (by omega)

theorem maxZero_toNat (x : Int64) : (maxZero x).toNat = (max 0 x.toInt).toNat := by
  have := x.toInt_lt
  unfold maxZero
  rw [UInt64.toNat_ofNat', Nat.mod_eq_of_lt]
  omega

/-! ### Rounding -/

/-- The nearest number with a significand of `p` bits; of two, the one with the even significand. -/
def roundBits (p n : ℕ) : ℕ :=
  let unit := 2 ^ (n.log2 + 1 - p)
  let q := n / unit
  let r := n % unit
  if 2 * r < unit ∨ 2 * r = unit ∧ q % 2 = 0 then q * unit else (q + 1) * unit

/-- A number of at most `p` bits is kept. -/
theorem roundBits_of_lt {p n : ℕ} (h : n < 2 ^ p) : roundBits p n = n := by
  rcases Nat.eq_zero_or_pos n with rfl | hpos
  · rw [roundBits]
    simp
  · have hlog : n.log2 < p := (Nat.log2_lt hpos.ne').mpr h
    have hunit : n.log2 + 1 - p = 0 := Nat.sub_eq_zero_of_le hlog
    simp [roundBits, hunit, Nat.mod_one]

example : roundBits 53 (2 ^ 53 + 1) = 2 ^ 53 ∧ roundBits 53 (2 ^ 53 + 3) = 2 ^ 53 + 4 := by
  decide +kernel

/-! ### Byte strings -/

/-- The `k` low bytes of `x`, least significant first. -/
def leBytes : ℕ → ℕ → List UInt8
  | 0, _ => []
  | k + 1, x => UInt8.ofNat x :: leBytes k (x / 256)

/-- The number whose little-endian bytes are given. -/
def ofLe : List UInt8 → ℕ
  | [] => 0
  | b :: bs => b.toNat + 256 * ofLe bs

/-- The number whose big-endian bytes are given. -/
def ofBe (bs : List UInt8) : ℕ := ofLe bs.reverse

@[simp] theorem leBytes_length (k x : ℕ) : (leBytes k x).length = k := by
  induction k generalizing x with
  | zero => rfl
  | succ k ih => rw [leBytes, List.length_cons, ih]

/-- Reading back what was written gives the value, reduced to the width. -/
theorem ofLe_leBytes (k x : ℕ) : ofLe (leBytes k x) = x % 256 ^ k := by
  induction k generalizing x with
  | zero => simp [leBytes, ofLe, Nat.mod_one]
  | succ k ih =>
    rw [leBytes, ofLe, ih, UInt8.toNat_ofNat', pow_succ 256 k, mul_comm (256 ^ k) 256,
      Nat.mod_mul]

/-- Concatenation shifts the later bytes up. -/
theorem ofLe_append (xs ys : List UInt8) : ofLe (xs ++ ys) = ofLe xs + 256 ^ xs.length * ofLe ys := by
  induction xs with
  | nil => simp [ofLe]
  | cons x xs ih => rw [List.cons_append, ofLe, ih, ofLe, List.length_cons, pow_succ]; ring

theorem ofLe_lt (bs : List UInt8) : ofLe bs < 256 ^ bs.length := by
  induction bs with
  | nil => simp [ofLe]
  | cons b bs ih =>
    have hb := b.toNat_lt
    rw [ofLe, List.length_cons, pow_succ]
    omega

/-- Big-endian: concatenation shifts the earlier bytes up. -/
theorem ofBe_append (xs ys : List UInt8) : ofBe (xs ++ ys) = ofBe xs * 256 ^ ys.length + ofBe ys := by
  rw [ofBe, List.reverse_append, ofLe_append, List.length_reverse, ofBe, ofBe]
  ring

theorem ofBe_lt (bs : List UInt8) : ofBe bs < 256 ^ bs.length := by
  simpa [ofBe] using ofLe_lt bs.reverse

theorem leBytes_inj {k x y : ℕ} (hx : x < 256 ^ k) (hy : y < 256 ^ k)
    (h : leBytes k x = leBytes k y) : x = y := by
  have := congrArg ofLe h
  rwa [ofLe_leBytes, ofLe_leBytes, Nat.mod_eq_of_lt hx, Nat.mod_eq_of_lt hy] at this

/-- `u32::to_le_bytes`. -/
def toLe32 (x : UInt32) : Vector UInt8 4 := ⟨(leBytes 4 x.toNat).toArray, by simp⟩

/-- `u64::to_le_bytes`. -/
def toLe64 (x : UInt64) : Vector UInt8 8 := ⟨(leBytes 8 x.toNat).toArray, by simp⟩

theorem toLe64_inj {x y : UInt64} (h : toLe64 x = toLe64 y) : x = y := by
  have hl : leBytes 8 x.toNat = leBytes 8 y.toNat := by
    simpa [toLe64] using h
  exact UInt64.toNat_inj.mp (leBytes_inj x.toNat_lt y.toNat_lt hl)

end Equium.Schemes
