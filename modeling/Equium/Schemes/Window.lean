import Mathlib.Data.List.Basic

/-! Scheme window: a limiter that keeps the time stamps of the last `w` milliseconds.

    A request is admitted while fewer than `limit` stamps are fresh. `Window` is the invariant: at every
    later time the bucket holds the same fresh stamps as the full list of admissions, and no span of
    length `w`, wherever it starts, holds more than `limit` admissions. -/

namespace Equium.Schemes

/-- The stamps of the last `w` time units. -/
def fresh (w now : ℕ) (stamps : List ℕ) : List ℕ := stamps.filter fun t => now - t < w

/-- One request: the decision, and the bucket afterwards. -/
def slide (w limit : ℕ) (bucket : List ℕ) (now : ℕ) : Bool × List ℕ :=
  if limit ≤ (fresh w now bucket).length then (false, fresh w now bucket)
  else (true, fresh w now bucket ++ [now])

/-- The admissions within `w` time units from `start` on. -/
def within (w start : ℕ) (admitted : List ℕ) : ℕ :=
  admitted.countP fun t => start ≤ t ∧ t < start + w

structure Window (w limit now : ℕ) (bucket admitted : List ℕ) : Prop where
  tracks : ∀ n, now ≤ n → fresh w n bucket = fresh w n admitted
  bounded : ∀ start, within w start admitted ≤ limit

variable {w limit now n : ℕ} {bucket admitted : List ℕ}

theorem fresh_append (xs ys : List ℕ) : fresh w n (xs ++ ys) = fresh w n xs ++ fresh w n ys :=
  List.filter_append xs ys

/-- Dropping stale stamps early makes no difference later. -/
theorem fresh_fresh {m : ℕ} (h : m ≤ n) (stamps : List ℕ) :
    fresh w n (fresh w m stamps) = fresh w n stamps := by
  rw [fresh, fresh, fresh, List.filter_filter]
  refine List.filter_congr fun t _ => ?_
  rw [Bool.eq_iff_iff, Bool.and_eq_true, decide_eq_true_eq, decide_eq_true_eq]
  omega

theorem Window.nil : Window w limit now [] [] where
  tracks := fun _ _ => rfl
  bounded := fun _ => Nat.zero_le _

theorem Window.wait (h : Window w limit now bucket admitted) (hn : now ≤ n) :
    Window w limit n bucket admitted :=
  { h with tracks := fun m hm => h.tracks m (Nat.le_trans hn hm) }

theorem Window.refuse (h : Window w limit now bucket admitted) (hn : now ≤ n) :
    Window w limit n (fresh w n bucket) admitted :=
  { h with tracks := fun m hm => (fresh_fresh hm bucket).trans (h.tracks m (Nat.le_trans hn hm)) }

/-- An admission at `n` shares each span with fresh admissions only. -/
theorem within_admit (h : Window w limit now bucket admitted) (hn : now ≤ n)
    (hroom : (fresh w n bucket).length < limit) (start : ℕ) :
    within w start (admitted ++ [n]) ≤ limit := by
  rw [within, List.countP_append]
  by_cases hin : start ≤ n ∧ n < start + w
  · have hfresh : within w start admitted ≤ (fresh w n admitted).length := by
      rw [within, fresh, ← List.countP_eq_length_filter]
      refine List.countP_mono_left fun t _ ht => ?_
      rw [decide_eq_true_eq] at ht ⊢
      omega
    rw [← h.tracks n hn] at hfresh
    rw [List.countP_singleton, if_pos (decide_eq_true hin)]
    exact Nat.succ_le_of_lt (Nat.lt_of_le_of_lt hfresh hroom)
  · rw [List.countP_singleton, if_neg (by simpa using hin)]
    exact h.bounded start

theorem Window.admit (h : Window w limit now bucket admitted) (hn : now ≤ n)
    (hroom : (fresh w n bucket).length < limit) :
    Window w limit n (fresh w n bucket ++ [n]) (admitted ++ [n]) where
  tracks := by
    intro m hm
    rw [fresh_append, fresh_append, fresh_fresh hm, h.tracks m (Nat.le_trans hn hm)]
  bounded := within_admit h hn hroom

/-- WINDOW: a request keeps the invariant, with the request admitted or not. -/
theorem Window.slide (h : Window w limit now bucket admitted) (hn : now ≤ n) :
    Window w limit n (slide w limit bucket n).2
      (if (slide w limit bucket n).1 then admitted ++ [n] else admitted) := by
  rw [Schemes.slide]
  by_cases hfull : limit ≤ (fresh w n bucket).length
  · rw [if_pos hfull]
    exact h.refuse hn
  · rw [if_neg hfull]
    exact h.admit hn (Nat.lt_of_not_le hfull)

/-- Admissions that are less than `w` apart, any two of them, lie in one window. -/
theorem within_of_close {ts : List ℕ} (h : ∀ t ∈ ts, ∀ t' ∈ ts, t' < t + w) :
    ∃ start, within w start ts = ts.length := by
  cases hmin : ts.min? with
  | none => exact ⟨0, by rw [List.min?_eq_none_iff.mp hmin]; rfl⟩
  | some start =>
    obtain ⟨hmem, hle⟩ := List.min?_eq_some_iff.mp hmin
    exact ⟨start, List.countP_eq_length.mpr fun t ht =>
      decide_eq_true ⟨hle t ht, h start hmem t ht⟩⟩

end Equium.Schemes
