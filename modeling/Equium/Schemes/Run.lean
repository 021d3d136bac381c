import Mathlib.Data.List.Basic

/-! Scheme run: finite runs of a labelled step relation, with the steps they took.

    A `Run` starts in a fixed state and records every step as a `Taken` entry (state before, label,
    state after), newest last. The rules are the three a verification needs: an invariant of the
    recorded steps and the current state (`Run.inv`), what is known of a step found in the record
    (`Run.mem`), and cutting a run in two (`Run.split`). -/

namespace Equium.Schemes

variable {S L : Type*}

/-- One step of a run: the state before, the label, the state after. -/
structure Taken (S L : Type*) where
  pre : S
  label : L
  post : S

/-- Runs of `step` from `s₀`: the steps taken, oldest first, and the state reached. -/
inductive Run (step : S → L → S → Prop) (s₀ : S) : List (Taken S L) → S → Prop
  | nil : Run step s₀ [] s₀
  | snoc {tr : List (Taken S L)} {s s' : S} {l : L} :
      Run step s₀ tr s → step s l s' → Run step s₀ (tr ++ [⟨s, l, s'⟩]) s'

/-- The states some run from `s₀` ends in. -/
def Reachable (step : S → L → S → Prop) (s₀ s : S) : Prop := ∃ tr, Run step s₀ tr s

variable {step : S → L → S → Prop} {s₀ s s' : S} {tr tr' : List (Taken S L)}

/-- Step lemma to run lemma: an invariant of the record and the state holds after every run. -/
theorem Run.inv (I : List (Taken S L) → S → Prop) (h0 : I [] s₀)
    (hs : ∀ tr s l s', Run step s₀ tr s → I tr s → step s l s' → I (tr ++ [⟨s, l, s'⟩]) s')
    (h : Run step s₀ tr s) : I tr s := by
  induction h with
  | nil => exact h0
  | snoc hr hst ih => exact hs _ _ _ _ hr ih hst

/-- The same rule for a property of the state alone. -/
theorem Run.inv_state (I : S → Prop) (h0 : I s₀) (hs : ∀ s l s', I s → step s l s' → I s')
    (h : Run step s₀ tr s) : I s :=
  h.inv (fun _ s => I s) h0 fun _ s l s' _ hI hst => hs s l s' hI hst

/-- A recorded step was a step, taken from a state reached by a run that the record extends. -/
theorem Run.mem (h : Run step s₀ tr s) : ∀ t ∈ tr, ∃ tr₁ tr₂, tr = tr₁ ++ t :: tr₂ ∧
    Run step s₀ tr₁ t.pre ∧ step t.pre t.label t.post := by
  induction h with
  | nil => simp
  | @snoc tr s s' l hr hst ih =>
    intro t ht
    rcases List.mem_append.mp ht with ht | ht
    · obtain ⟨tr₁, tr₂, rfl, hr₁, hst₁⟩ := ih t ht
      exact ⟨tr₁, tr₂ ++ [⟨s, l, s'⟩], by simp, hr₁, hst₁⟩
    · rw [List.mem_singleton] at ht
      subst ht
      exact ⟨tr, [], rfl, hr, hst⟩

/-- Cutting a run: a prefix of the record is a run, and the rest is a run from where it ends. -/
theorem Run.split (h : Run step s₀ tr s) : ∀ tr₁ tr₂, tr = tr₁ ++ tr₂ →
    ∃ m, Run step s₀ tr₁ m ∧ Run step m tr₂ s := by
  induction h with
  | nil =>
    intro tr₁ tr₂ he
    obtain ⟨rfl, rfl⟩ := List.append_eq_nil_iff.mp he.symm
    exact ⟨_, .nil, .nil⟩
  | @snoc tr s s' l hr hst ih =>
    intro tr₁ tr₂ he
    rcases List.eq_nil_or_concat tr₂ with rfl | ⟨ys, y, rfl⟩
    · rw [List.append_nil] at he
      exact ⟨s', he ▸ hr.snoc hst, .nil⟩
    · rw [List.concat_eq_append, ← List.append_assoc] at he
      obtain ⟨he₁, he₂⟩ := List.append_inj' he rfl
      obtain ⟨m, hm₁, hm₂⟩ := ih tr₁ ys he₁
      refine ⟨m, hm₁, ?_⟩
      rw [List.concat_eq_append, ← List.singleton_inj.mp he₂]
      exact hm₂.snoc hst

/-- A run ends where its last recorded step ends. -/
theorem Run.last {t : Taken S L} (h : Run step s₀ (tr ++ [t]) s) : s = t.post := by
  generalize hg : tr ++ [t] = tr' at h
  cases h with
  | nil => simp at hg
  | snoc _ _ => rw [List.singleton_inj.mp (List.append_inj' hg rfl).2]

/-- Cutting a run at a recorded step: that step, and the rest as a run from where it ends. -/
theorem Run.cut {tr₁ tr₂ : List (Taken S L)} {t : Taken S L}
    (h : Run step s₀ (tr₁ ++ t :: tr₂) s) :
    step t.pre t.label t.post ∧ Run step t.post tr₂ s := by
  obtain ⟨m, hm₁, hm₂⟩ := h.split (tr₁ ++ [t]) tr₂ (by simp)
  obtain ⟨-, -, -, -, hst⟩ := hm₁.mem t (by simp)
  exact ⟨hst, hm₁.last ▸ hm₂⟩

/-- The run up to a recorded step. -/
theorem Run.before {tr₁ tr₂ : List (Taken S L)} {t : Taken S L}
    (h : Run step s₀ (tr₁ ++ t :: tr₂) s) : Run step s₀ tr₁ t.pre := by
  obtain ⟨m, hm, -⟩ := h.split (tr₁ ++ [t]) tr₂ (by simp)
  generalize hg : tr₁ ++ [t] = tr' at hm
  cases hm with
  | nil => simp at hg
  | snoc hr _ =>
    obtain ⟨rfl, he⟩ := List.append_inj' hg rfl
    rwa [List.singleton_inj.mp he]

/-- A run without steps stays where it starts. -/
theorem Run.of_nil (h : Run step s₀ [] s) : s = s₀ := by
  generalize hg : ([] : List (Taken S L)) = tr at h
  cases h with
  | nil => rfl
  | snoc _ _ => simp at hg

/-- The first recorded step is taken from where the run starts. -/
theorem Run.first {t : Taken S L} (h : Run step s₀ (t :: tr) s) : step s₀ t.label t.post := by
  have hpre : Run step s₀ [] t.pre := h.before
  obtain ⟨-, -, -, -, hst⟩ := h.mem t List.mem_cons_self
  rwa [hpre.of_nil] at hst

/-- One run after another. -/
theorem Run.append {m : S} (h₁ : Run step s₀ tr m) (h₂ : Run step m tr' s) :
    Run step s₀ (tr ++ tr') s := by
  induction h₂ with
  | nil => simpa using h₁
  | snoc _ hst ih => rw [← List.append_assoc]; exact ih.snoc hst

/-- Where a rank never falls, the steps that raise it from one value are at most one. -/
theorem Run.leaves_once (rank : S → ℕ) (b : ℕ) (h : Run step s₀ tr s)
    (hmono : ∀ t ∈ tr, rank t.pre ≤ rank t.post) :
    tr.countP (fun t => rank t.pre = b ∧ b < rank t.post) ≤ 1 ∧
      (rank s ≤ b → tr.countP (fun t => rank t.pre = b ∧ b < rank t.post) = 0) := by
  induction h with
  | nil => simp
  | @snoc tr s s' l hr hst ih =>
    obtain ⟨hle, hzero⟩ := ih fun t ht => hmono t (List.mem_append_left _ ht)
    have hstep : rank s ≤ rank s' := hmono ⟨s, l, s'⟩ (by simp)
    rw [List.countP_append, List.countP_singleton]
    by_cases hb : rank s = b ∧ b < rank s'
    · have := hzero (Nat.le_of_eq hb.1)
      constructor
      · split_ifs <;> omega
      · omega
    · have hnot : (decide (rank s = b ∧ b < rank s')) = false := by simpa using hb
      rw [hnot]
      constructor
      · simpa using hle
      · intro hs'
        simpa using hzero (Nat.le_trans hstep hs')

/-- A rank that never falls is at least the one the run started with. -/
theorem Run.rank_le (rank : S → ℕ) (h : Run step s₀ tr s)
    (hmono : ∀ t ∈ tr, rank t.pre ≤ rank t.post) : rank s₀ ≤ rank s := by
  induction h with
  | nil => exact Nat.le_refl _
  | @snoc tr s s' l hr hst ih =>
    exact Nat.le_trans (ih fun t ht => hmono t (List.mem_append_left _ ht))
      (hmono ⟨s, l, s'⟩ (by simp))

theorem Reachable.refl : Reachable step s s := ⟨[], .nil⟩

theorem Reachable.tail {l : L} (h : Reachable step s₀ s) (hst : step s l s') :
    Reachable step s₀ s' := by
  obtain ⟨tr, hr⟩ := h
  exact ⟨_, hr.snoc hst⟩

/-- Induction on reachability. -/
theorem Reachable.inv (I : S → Prop) (h0 : I s₀) (hs : ∀ s l s', I s → step s l s' → I s')
    (h : Reachable step s₀ s) : I s := by
  obtain ⟨tr, hr⟩ := h
  exact hr.inv_state I h0 hs

/-- Where every step lowers a measure, a run can be taken on until no step is left. -/
theorem Reachable.exists_stuck (I : S → Prop) (μ : S → ℕ)
    (hs : ∀ s l s', I s → step s l s' → I s' ∧ μ s' < μ s) (h : Reachable step s₀ s) (hI : I s) :
    ∃ s', Reachable step s₀ s' ∧ I s' ∧ ∀ l s'', ¬ step s' l s'' := by
  induction hm : μ s using Nat.strongRecOn generalizing s with
  | _ m ih =>
    by_cases hst : ∃ l s', step s l s'
    · obtain ⟨l, s', hst⟩ := hst
      obtain ⟨hI', hlt⟩ := hs s l s' hI hst
      exact ih (μ s') (hm ▸ hlt) (h.tail hst) hI' rfl
    · exact ⟨s, h, hI, fun l s'' hst' => hst ⟨l, s'', hst'⟩⟩

end Equium.Schemes
