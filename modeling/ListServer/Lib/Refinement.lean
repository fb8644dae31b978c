import ListServer.Lib.TwoRuns

namespace ListServer.Lib.Refinement

open TwoRuns

variable {σ τ ι κ ρ : Type} {step : σ → ι → Option (σ × Option (κ × ρ))} {alone : τ → κ → ρ × τ}
  {R : σ → τ → Prop} {Agree : κ → ρ → ρ → Prop}

/-- A run of steps of which some answer a request: the last state and the
requests with their answers. -/
def answers (step : σ → ι → Option (σ × Option (κ × ρ))) : σ → List ι → Option (σ × List (κ × ρ))
  | s, [] => some (s, [])
  | s, i :: is => (step s i).bind fun p =>
    (answers step p.1 is).map fun q => (q.1, p.2.toList ++ q.2)

/-- Every step of the run meets the condition. -/
def Meets (step : σ → ι → Option (σ × Option (κ × ρ))) (G : σ → ι → Prop) : σ → List ι → Prop
  | _, [] => True
  | s, i :: is => G s i ∧ ∀ p ∈ step s i, Meets step G p.1 is

instance {G : σ → ι → Prop} [∀ s i, Decidable (G s i)] :
    ∀ s is, Decidable (Meets step G s is)
  | _, [] => isTrue trivial
  | s, i :: is =>
    have (s : σ) : Decidable (Meets step G s is) := instDecidableMeets s is
    inferInstanceAs (Decidable (G s i ∧ ∀ p ∈ step s i, Meets step G p.1 is))

def final (alone : τ → κ → ρ × τ) : τ → List κ → τ
  | t, [] => t
  | t, k :: ks => final alone (alone t k).2 ks

def Matches (alone : τ → κ → ρ × τ) (R : σ → τ → Prop) (Agree : κ → ρ → ρ → Prop) (t : τ) :
    σ × Option (κ × ρ) → Prop
  | (s, none) => R s t
  | (s, some (k, r)) => Agree k r (alone t k).1 ∧ R s (alone t k).2

/-- Steps that keep the relation, whether they answer or not, give the answers of
the requests alone. -/
theorem answers_refine {G : σ → ι → Prop}
    (hstep : ∀ s t i p, R s t → G s i → step s i = some p → Matches alone R Agree t p)
    {s s' : σ} {t : τ} {is : List ι} {as : List (κ × ρ)} (hR : R s t)
    (hmeets : Meets step G s is) (hrun : answers step s is = some (s', as)) :
    List.Forall₂ (fun p q => p.1 = q.1 ∧ Agree p.1 p.2 q.2) as
        (outputs alone t (as.map Prod.fst)) ∧
      R s' (final alone t (as.map Prod.fst)) := by
  induction is generalizing s t as with
  | nil =>
    obtain ⟨rfl, rfl⟩ := Prod.mk.inj (Option.some.inj hrun)
    exact ⟨.nil, hR⟩
  | cons i is ih =>
    obtain ⟨⟨u, out⟩, hu, hrest⟩ := Option.bind_eq_some_iff.mp hrun
    obtain ⟨⟨s'', as'⟩, htail, hpair⟩ := Option.map_eq_some_iff.mp hrest
    obtain ⟨rfl, rfl⟩ := Prod.mk.inj hpair
    have hone := hstep s t i (u, out) hR hmeets.1 hu
    have hmeets' := hmeets.2 (u, out) hu
    cases out with
    | none => exact ih hone hmeets' htail
    | some p =>
      obtain ⟨hagree, hR'⟩ := hone
      obtain ⟨hanswers, hfinal⟩ := ih hR' hmeets' htail
      exact ⟨.cons ⟨rfl, hagree⟩ hanswers, hfinal⟩

end ListServer.Lib.Refinement
