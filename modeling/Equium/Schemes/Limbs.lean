import Mathlib.Algebra.Order.Ring.Nat
import Mathlib.Tactic.Ring

/-! Scheme limbs: big-endian digit lists over any base, carried and divided digit by digit.

    `ofLimbs` is the value of a digit list. Carrying keeps the value and makes the digits proper
    (`propagate_value`, `propagate_lt`); schoolbook division by a number below the base yields the
    digits of the quotient (`longDiv_value`, `longDiv_lt`). -/

namespace Equium.Schemes

variable {B d : ℕ}

/-- The value of a digit list, most significant digit first. -/
def ofLimbs (B : ℕ) : List ℕ → ℕ
  | [] => 0
  | a :: as => a * B ^ as.length + ofLimbs B as

/-- Proper digits and the carry out of the head. -/
def propagate (B : ℕ) : List ℕ → List ℕ × ℕ
  | [] => ([], 0)
  | a :: as =>
    let (as', c) := propagate B as
    ((a + c) % B :: as', (a + c) / B)

/-- Schoolbook division by `d`, with the remainder so far. -/
def longDiv (B d : ℕ) : ℕ → List ℕ → List ℕ
  | _, [] => []
  | rem, a :: as => (rem * B + a) / d :: longDiv B d ((rem * B + a) % d) as

@[simp] theorem propagate_length (as : List ℕ) : (propagate B as).1.length = as.length := by
  induction as with
  | nil => rfl
  | cons a as ih => simp [propagate, ih]

@[simp] theorem longDiv_length (rem : ℕ) (as : List ℕ) :
    (longDiv B d rem as).length = as.length := by
  induction as generalizing rem with
  | nil => rfl
  | cons a as ih => simp [longDiv, ih]

/-- Proper digits are worth less than the next power of the base. -/
theorem ofLimbs_lt {as : List ℕ} (h : ∀ a ∈ as, a < B) : ofLimbs B as < B ^ as.length := by
  induction as with
  | nil => simp [ofLimbs]
  | cons a as ih =>
    have ha := h a (by simp)
    have hr := ih fun x hx => h x (by simp [hx])
    calc ofLimbs B (a :: as) < a * B ^ as.length + B ^ as.length := by rw [ofLimbs]; omega
      _ = (a + 1) * B ^ as.length := by ring
      _ ≤ B * B ^ as.length := Nat.mul_le_mul_right _ ha
      _ = B ^ (a :: as).length := by rw [List.length_cons, pow_succ, mul_comm]

/-- Carrying keeps the value. -/
theorem propagate_value (as : List ℕ) :
    (propagate B as).2 * B ^ as.length + ofLimbs B (propagate B as).1 = ofLimbs B as := by
  induction as with
  | nil => simp [propagate, ofLimbs]
  | cons a as ih =>
    have hdm := Nat.div_add_mod (a + (propagate B as).2) B
    simp only [propagate, ofLimbs, propagate_length, List.length_cons]
    calc (a + (propagate B as).2) / B * B ^ (as.length + 1) +
          ((a + (propagate B as).2) % B * B ^ as.length + ofLimbs B (propagate B as).1)
        = (B * ((a + (propagate B as).2) / B) + (a + (propagate B as).2) % B) * B ^ as.length +
          ofLimbs B (propagate B as).1 := by rw [pow_succ]; ring
      _ = a * B ^ as.length +
          ((propagate B as).2 * B ^ as.length + ofLimbs B (propagate B as).1) := by rw [hdm]; ring
      _ = a * B ^ as.length + ofLimbs B as := by rw [ih]

theorem propagate_lt (hB : 0 < B) (as : List ℕ) : ∀ a ∈ (propagate B as).1, a < B := by
  induction as with
  | nil => simp [propagate]
  | cons a as ih =>
    intro x hx
    rw [propagate, List.mem_cons] at hx
    rcases hx with rfl | hx
    · exact Nat.mod_lt _ hB
    · exact ih x hx

/-- The digits of the quotient. -/
theorem longDiv_value {rem : ℕ} (hrem : rem < d) (as : List ℕ) :
    ofLimbs B (longDiv B d rem as) = (rem * B ^ as.length + ofLimbs B as) / d := by
  have hd : 0 < d := by omega
  induction as generalizing rem with
  | nil => simp [longDiv, ofLimbs, Nat.div_eq_of_lt hrem]
  | cons a as ih =>
    have hdm := Nat.div_add_mod (rem * B + a) d
    rw [longDiv, ofLimbs, longDiv_length, ih (Nat.mod_lt _ hd)]
    calc (rem * B + a) / d * B ^ as.length +
          ((rem * B + a) % d * B ^ as.length + ofLimbs B as) / d
        = (d * ((rem * B + a) / d * B ^ as.length) +
          ((rem * B + a) % d * B ^ as.length + ofLimbs B as)) / d := by
          rw [Nat.mul_add_div hd]
      _ = ((d * ((rem * B + a) / d) + (rem * B + a) % d) * B ^ as.length + ofLimbs B as) / d := by
          congr 1; ring
      _ = (rem * B ^ (a :: as).length + ofLimbs B (a :: as)) / d := by
          rw [hdm, List.length_cons, ofLimbs, pow_succ]
          congr 1; ring

/-- The digits of the quotient are proper when the remainder stays below the divisor. -/
theorem longDiv_lt {rem : ℕ} (hrem : rem < d) {as : List ℕ} (h : ∀ a ∈ as, a < B) :
    ∀ q ∈ longDiv B d rem as, q < B := by
  induction as generalizing rem with
  | nil => simp [longDiv]
  | cons a as ih =>
    have ha := h a (by simp)
    intro q hq
    rw [longDiv, List.mem_cons] at hq
    rcases hq with rfl | hq
    · rw [Nat.div_lt_iff_lt_mul (by omega)]
      calc rem * B + a < (rem + 1) * B := by rw [Nat.add_one_mul]; omega
        _ ≤ d * B := Nat.mul_le_mul_right _ hrem
        _ = B * d := mul_comm _ _
    · exact ih (Nat.mod_lt _ (by omega)) (fun x hx => h x (by simp [hx])) q hq

end Equium.Schemes
