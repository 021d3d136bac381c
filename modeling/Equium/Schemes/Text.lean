import Mathlib.Data.List.Infix

/-! Scheme text: searching a text for a literal that follows a known beginning, and trimming it.

    A search tries one suffix after the other. `skips ys pre` says that no occurrence of `ys` can begin
    inside `pre`, whatever follows; then the search goes on behind `pre` (`findSome?_tails_skip`,
    `infix_skip`). -/

namespace Equium.Schemes

variable {α β : Type*} [DecidableEq α] {xs ys pre s : List α}

/-- Two lists that differ at a place both have. -/
def clash (xs ys : List α) : Bool := !xs.isPrefixOf ys && !ys.isPrefixOf xs

/-- No occurrence of `ys` begins inside `pre`. -/
def skips (ys pre : List α) : Bool := pre.tails.all fun t => t.isEmpty || clash t ys

theorem not_prefix_of_clash (h : clash xs ys = true) (s : List α) : ¬ ys <+: xs ++ s := by
  intro hp
  simp only [clash, Bool.and_eq_true, Bool.not_eq_true', ← Bool.not_eq_true,
    List.isPrefixOf_iff_prefix] at h
  rcases List.prefix_or_prefix_of_prefix (List.prefix_append xs s) hp with hx | hy
  · exact h.1 hx
  · exact h.2 hy

theorem skips_cons {a : α} (h : skips ys (a :: pre) = true) :
    (∀ s, ¬ ys <+: a :: (pre ++ s)) ∧ skips ys pre = true := by
  rw [skips, List.tails_cons, List.all_cons, Bool.and_eq_true] at h
  exact ⟨not_prefix_of_clash (by simpa using h.1), h.2⟩

/-- A search for something that begins with `ys` goes on behind `pre`. -/
theorem findSome?_tails_skip {f : List α → Option β} (hf : ∀ s, ¬ ys <+: s → f s = none)
    (h : skips ys pre = true) : (pre ++ s).tails.findSome? f = s.tails.findSome? f := by
  induction pre with
  | nil => rfl
  | cons a pre ih =>
    obtain ⟨hnot, hrest⟩ := skips_cons h
    rw [List.cons_append, List.tails_cons, List.findSome?_cons, hf _ (hnot s)]
    exact ih hrest

/-- An occurrence is behind `pre`. -/
theorem infix_skip (h : skips ys pre = true) : ys <:+: pre ++ s ↔ ys <:+: s := by
  induction pre with
  | nil => rfl
  | cons a pre ih =>
    obtain ⟨hnot, hrest⟩ := skips_cons h
    rw [List.cons_append, List.infix_cons_iff, ih hrest]
    exact or_iff_right (hnot s)

/-! ### Trimming -/

omit [DecidableEq α] in
/-- A text without anything to trim is not trimmed. -/
theorem trimmed_eq_self {p : α → Bool} (h : ∀ a ∈ s, p a = false) :
    ((s.dropWhile p).reverse.dropWhile p).reverse = s := by
  have hdrop : ∀ s : List α, (∀ a ∈ s, p a = false) → s.dropWhile p = s := by
    intro s hs
    cases s with
    | nil => rfl
    | cons a s =>
      refine List.dropWhile_cons_of_neg ?_
      rw [hs a List.mem_cons_self]
      exact Bool.false_ne_true
  rw [hdrop s h, hdrop s.reverse fun a ha => h a (List.mem_reverse.mp ha), List.reverse_reverse]

/-- Letters and digits lie between `0` and `z`, and no bracket is one. -/
theorem alphanum_bounds {c : Char} (h : c.isAlphanum = true) :
    48 ≤ c.toNat ∧ c.toNat ≤ 122 ∧ c ≠ '[' := by
  have hbounds : 48 ≤ c.toNat ∧ c.toNat ≤ 122 := by
    change ((decide (c.val ≥ 'A'.val ∧ c.val ≤ 'Z'.val) || (c.val ≥ 'a'.val && c.val ≤ 'z'.val)) ||
      (c.val ≥ '0'.val && c.val ≤ '9'.val)) = true at h
    simp only [Bool.or_eq_true, Bool.and_eq_true, decide_eq_true_eq, ge_iff_le,
      UInt32.le_iff_toNat_le] at h
    have hA : 'A'.val.toNat = 65 := rfl
    have hZ : 'Z'.val.toNat = 90 := rfl
    have ha : 'a'.val.toNat = 97 := rfl
    have hz : 'z'.val.toNat = 122 := rfl
    have h0 : '0'.val.toNat = 48 := rfl
    have h9 : '9'.val.toNat = 57 := rfl
    rw [Char.toNat]
    omega
  refine ⟨hbounds.1, hbounds.2, ?_⟩
  rintro rfl
  revert h
  decide

end Equium.Schemes
