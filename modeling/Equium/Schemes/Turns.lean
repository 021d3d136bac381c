import Mathlib.Algebra.Order.Ring.Nat

/-! Scheme turns: parties that take turns, in the order they come, one at a time.

    A party is named by its place in that order, so three counters say where each of them stands: who
    is gone, who is inside, who waits. That nobody overtakes and at most one is inside is part of the
    structure; an implementation is checked by following it with the three moves. -/

namespace Equium.Schemes

/-- How many have arrived, have entered and have left again. -/
structure Turns where
  arrived : ℕ
  entered : ℕ
  left : ℕ
  left_le : left ≤ entered
  single : entered ≤ left + 1
  entered_le : entered ≤ arrived

/-- Where a party stands. -/
inductive Place where
  | absent
  | waiting
  | inside
  | gone
deriving DecidableEq, Repr

namespace Turns

def start : Turns := ⟨0, 0, 0, le_rfl, Nat.zero_le _, le_rfl⟩

def place (t : Turns) (i : ℕ) : Place :=
  if i < t.left then .gone
  else if i < t.entered then .inside
  else if i < t.arrived then .waiting
  else .absent

/-! ### The moves -/

/-- The next party comes, and waits. -/
def arrive (t : Turns) : Turns where
  arrived := t.arrived + 1
  entered := t.entered
  left := t.left
  left_le := t.left_le
  single := t.single
  entered_le := Nat.le_succ_of_le t.entered_le

/-- Nobody is inside, and the first who waits enters. -/
def enter (t : Turns) (hfree : t.entered = t.left) (hnext : t.entered < t.arrived) : Turns where
  arrived := t.arrived
  entered := t.entered + 1
  left := t.left
  left_le := Nat.le_succ_of_le t.left_le
  single := by omega
  entered_le := hnext

/-- Who is inside leaves. -/
def leave (t : Turns) (hin : t.left < t.entered) : Turns where
  arrived := t.arrived
  entered := t.entered
  left := t.left + 1
  left_le := hin
  single := Nat.le_succ_of_le t.single
  entered_le := t.entered_le

variable {t : Turns} {i j : ℕ}

theorem place_start : start.place i = .absent := rfl

theorem place_arrive : t.arrive.place i = if i = t.arrived then .waiting else t.place i := by
  have hleft := t.left_le
  have hentered := t.entered_le
  grind [place, arrive]

theorem place_enter (hfree : t.entered = t.left) (hnext : t.entered < t.arrived) :
    (t.enter hfree hnext).place i = if i = t.entered then .inside else t.place i := by
  grind [place, enter]

theorem place_leave (hin : t.left < t.entered) :
    (t.leave hin).place i = if i = t.left then .gone else t.place i := by
  grind [place, leave]

/-! ### Where a party stands -/

theorem place_gone : t.place i = .gone ↔ i < t.left := by
  simp only [place]
  split_ifs with hleft <;> simp [hleft]

theorem place_inside : t.place i = .inside ↔ i = t.left ∧ t.left < t.entered := by
  have hsingle := t.single
  simp only [place]
  split_ifs <;> simp <;> omega

theorem place_waiting : t.place i = .waiting ↔ t.entered ≤ i ∧ i < t.arrived := by
  have hleft := t.left_le
  simp only [place]
  split_ifs <;> simp <;> omega

/-- At most one is inside. -/
theorem inside_unique (hi : t.place i = .inside) (hj : t.place j = .inside) : i = j :=
  (place_inside.mp hi).1.trans (place_inside.mp hj).1.symm

/-- While some have not left, the first of them is inside, or may enter. -/
theorem next_place (h : t.left < t.arrived) :
    t.place t.left = .inside ∨ t.place t.left = .waiting ∧ t.entered = t.left := by
  rcases Nat.eq_or_lt_of_le t.left_le with hfree | hin
  · exact Or.inr ⟨place_waiting.mpr ⟨hfree.ge, h⟩, hfree.symm⟩
  · exact Or.inl (place_inside.mpr ⟨rfl, hin⟩)

end Turns

end Equium.Schemes
