import Equium.Schemes.Run

/-! Scheme project: a component inside a system.

    A step of the system either is a step of the component, as `φ` reads it off, or leaves the component
    alone. Then the component's part of a run of the system is a run of the component
    (`Run.project`), and what holds over all runs of the component holds inside the system. -/

namespace Equium.Schemes

variable {S L T M : Type*} {step : S → L → S → Prop} {part : T → M → T → Prop}

/-- What a step of the system means for a component that `π` reads off its state. -/
inductive Projects (part : T → M → T → Prop) (π : S → T) (φ : Taken S L → Option (Taken T M))
    (t : Taken S L) : Prop
  | moves (l : M) (hφ : φ t = some ⟨π t.pre, l, π t.post⟩) (hstep : part (π t.pre) l (π t.post))
  | stutters (hφ : φ t = none) (hπ : π t.post = π t.pre)

/-- The component's part of a run is a run. -/
theorem Run.project (π : S → T) (φ : Taken S L → Option (Taken T M))
    (hs : ∀ s l s', step s l s' → Projects part π φ ⟨s, l, s'⟩) {s₀ s : S} {tr : List (Taken S L)}
    (h : Run step s₀ tr s) : Run part (π s₀) (tr.filterMap φ) (π s) := by
  induction h with
  | nil => exact .nil
  | @snoc tr s s' l _ hst ih =>
    rw [List.filterMap_append]
    cases hs s l s' hst with
    | moves m hφ hstep =>
      rw [List.filterMap_cons_some hφ]
      exact ih.snoc hstep
    | stutters hφ hπ =>
      rw [List.filterMap_cons_none hφ, List.filterMap_nil, List.append_nil]
      exact (show π s' = π s from hπ) ▸ ih

end Equium.Schemes
