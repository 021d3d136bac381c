import Mathlib.Data.List.Induction

/-! Scheme chain: a value folded over a list of events by a step that does not collide.

    `fed f c xs` lists the arguments the step is applied to along the fold. Where no two of them are
    mapped to the same value, the folded value commits to the start and to every event, in order
    (`foldl_commits`): two folds of the same length that end in the same value are the same fold. -/

namespace Equium.Schemes

variable {α γ : Type*} (f : γ → α → γ)

/-- The arguments of the step along the fold of `xs` from `c`, first to last. -/
def fed : γ → List α → List (γ × α)
  | _, [] => []
  | c, x :: xs => (c, x) :: fed (f c x) xs

theorem fed_concat (c : γ) (xs : List α) (x : α) :
    fed f c (xs ++ [x]) = fed f c xs ++ [(xs.foldl f c, x)] := by
  induction xs generalizing c with
  | nil => rfl
  | cons y ys ih => simp [fed, ih]

variable {f}

/-- What the step is fed comes from the list. -/
theorem fed_mem {c : γ} {xs : List α} {p : γ × α} (h : p ∈ fed f c xs) : p.2 ∈ xs := by
  induction xs generalizing c with
  | nil => cases h
  | cons x xs ih =>
    rcases List.mem_cons.mp h with rfl | h
    · exact List.mem_cons_self
    · exact List.mem_cons_of_mem _ (ih h)

/-- COMMITMENT: without a collision on the way, the value determines the start and the events. -/
theorem foldl_commits {c d : γ} {xs ys : List α} (hlen : xs.length = ys.length)
    (hinj : ∀ p ∈ fed f c xs, ∀ q ∈ fed f d ys, f p.1 p.2 = f q.1 q.2 → p = q)
    (h : xs.foldl f c = ys.foldl f d) : c = d ∧ xs = ys := by
  induction xs using List.reverseRecOn generalizing ys with
  | nil =>
    obtain rfl := List.length_eq_zero_iff.mp hlen.symm
    exact ⟨h, rfl⟩
  | append_singleton xs x ih =>
    rcases List.eq_nil_or_concat ys with rfl | ⟨ys, y, rfl⟩
    · simp at hlen
    · rw [List.concat_eq_append] at hlen hinj h ⊢
      rw [fed_concat, fed_concat] at hinj
      rw [List.foldl_append, List.foldl_append] at h
      -- the last step first: its arguments agree, so the folds before it do
      have hlast := hinj _ (List.mem_append_right _ (List.mem_singleton_self _)) _
        (List.mem_append_right _ (List.mem_singleton_self _)) h
      obtain ⟨hvalue, rfl⟩ := Prod.mk.inj hlast
      obtain ⟨hstart, rfl⟩ := ih (by simpa using hlen)
        (fun p hp q hq => hinj p (List.mem_append_left _ hp) q (List.mem_append_left _ hq)) hvalue
      exact ⟨hstart, rfl⟩

end Equium.Schemes
