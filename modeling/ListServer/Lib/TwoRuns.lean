import Mathlib.Data.List.Forall2

namespace ListServer.Lib.TwoRuns

variable {σ ι ρ : Type} {step : σ → ι → ρ × σ} {D : ι → Prop}

/-- An input of both runs, or an input of the kind `D` that the second run does
not get. -/
inductive Input (D : ι → Prop)
  | both (i : ι)
  | first (i : ι) (h : D i)

def Input.label : Input D → ι
  | .both i => i
  | .first i _ => i

def Input.second : Input D → Option ι
  | .both i => some i
  | .first _ _ => none

def outputs (step : σ → ι → ρ × σ) : σ → List ι → List (ι × ρ)
  | _, [] => []
  | s, i :: is => (i, (step s i).1) :: outputs step (step s i).2 is

def atBoth {α : Type} : List (Input D) → List α → List α
  | .both _ :: is, x :: xs => x :: atBoth is xs
  | .first _ _ :: is, _ :: xs => atBoth is xs
  | _, _ => []

/-- Two runs from related states give related outputs, if both steps keep the
relation on the inputs of both and the first one alone does on the others. -/
theorem outputs_related {R : σ → σ → Prop} {Agree : ι → ρ → ρ → Prop}
    (hboth : ∀ s s' i, R s s' → Agree i (step s i).1 (step s' i).1 ∧ R (step s i).2 (step s' i).2)
    (hfirst : ∀ s s' i, D i → R s s' → R (step s i).2 s') {s s' : σ} (h : R s s')
    (is : List (Input D)) :
    List.Forall₂ (fun p q => p.1 = q.1 ∧ Agree p.1 p.2 q.2)
      (atBoth is (outputs step s (is.map Input.label)))
      (outputs step s' (is.filterMap Input.second)) := by
  induction is generalizing s s' with
  | nil => exact .nil
  | cons i is ih =>
    cases i with
    | both i =>
      obtain ⟨hagree, hrel⟩ := hboth s s' i h
      exact .cons ⟨rfl, hagree⟩ (ih hrel)
    | first i hi => exact ih (hfirst s s' i hi h)

end ListServer.Lib.TwoRuns
