import Mathlib.Data.List.Basic
import Mathlib.Data.Option.Defs

namespace ListServer.Lib.Transducer

variable {σ τ ι β ε : Type}

/-- Read the inputs one after the other. Each gives some output and the next
state, or ends the loop, or fails. -/
def transduce (step : σ → ι → Except ε (Option (List β × σ))) :
    σ → List ι → Except ε (List β × σ)
  | s, [] => .ok ([], s)
  | s, i :: is =>
    (step s i).bind fun
      | none => .ok ([], s)
      | some (out, t) => (transduce step t is).map fun p => (out ++ p.1, p.2)

/-- The condition holds of every input that the loop reads, in the state before it. -/
def Along (step : τ → ι → Option (List β × τ)) (P : τ → ι → Prop) : τ → List ι → Prop
  | _, [] => True
  | t, i :: is => P t i ∧ ∀ out u, step t i = some (out, u) → Along step P u is

instance decidableAlong {step : τ → ι → Option (List β × τ)} {P : τ → ι → Prop}
    [∀ t i, Decidable (P t i)] : ∀ t is, Decidable (Along step P t is)
  | _, [] => isTrue trivial
  | t, i :: is =>
    match h : step t i with
    | none => decidable_of_iff (P t i)
        ⟨fun hp => ⟨hp, fun out u hu => by rw [h] at hu; cases hu⟩, And.left⟩
    | some (out, u) =>
      have : Decidable (Along step P u is) := decidableAlong u is
      decidable_of_iff (P t i ∧ Along step P u is)
        ⟨fun hp => ⟨hp.1, fun out' u' hu => by rw [h] at hu; cases hu; exact hp.2⟩,
          fun hp => ⟨hp.1, hp.2 out u h⟩⟩

/-- A loop that nothing can make fail. -/
def outputs (step : τ → ι → Option (List β × τ)) : τ → List ι → List β × τ
  | t, [] => ([], t)
  | t, i :: is =>
    match step t i with
    | none => ([], t)
    | some (out, u) => ((out ++ (outputs step u is).1), (outputs step u is).2)

variable {impl : σ → ι → Except ε (Option (List β × σ))} {spec : τ → ι → Option (List β × τ)}
  {R : σ → τ → Prop} {P : τ → ι → Prop}

/-- What one input makes of related states: both loops end, or they give the
same output and related states. -/
def Agrees (R : σ → τ → Prop) (r : Except ε (Option (List β × σ))) : Option (List β × τ) → Prop
  | none => r = .ok none
  | some (out, t) => ∃ s, r = .ok (some (out, s)) ∧ R s t

/-- The simulation rule: loops whose steps agree have the same outputs. -/
theorem transduce_eq (hstep : ∀ s t i, R s t → P t i → Agrees R (impl s i) (spec t i)) {s : σ}
    {t : τ} {is : List ι} (hR : R s t) (hP : Along spec P t is) :
    ∃ s', transduce impl s is = .ok ((outputs spec t is).1, s') ∧ R s' (outputs spec t is).2 := by
  induction is generalizing s t with
  | nil => exact ⟨s, rfl, hR⟩
  | cons i is ih =>
    have hone := hstep s t i hR hP.1
    rw [transduce, outputs]
    cases hspec : spec t i with
    | none =>
      rw [hspec] at hone
      rw [show impl s i = .ok none from hone]
      exact ⟨s, rfl, hR⟩
    | some p =>
      obtain ⟨out, u⟩ := p
      rw [hspec] at hone
      obtain ⟨v, himpl, hv⟩ := hone
      obtain ⟨s', hrest, hs'⟩ := ih hv (hP.2 out u hspec)
      refine ⟨s', ?_, hs'⟩
      rw [himpl]
      exact congrArg (Except.map _) hrest

end ListServer.Lib.Transducer
