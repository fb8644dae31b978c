import Mathlib.Order.Basic

namespace ListServer.Lib.Loop

variable {σ ρ : Type} (step : σ → σ ⊕ ρ)

/-- At most `n` rounds of a loop, of which each goes on or ends with a result. -/
def loop : Nat → σ → Option ρ
  | 0, _ => none
  | n + 1, s =>
    match step s with
    | .inl t => loop n t
    | .inr r => some r

def Ends (s : σ) (r : ρ) : Prop := ∃ n, loop step n s = some r

theorem loop_succ {n : Nat} {s : σ} {r : ρ} (h : loop step n s = some r) :
    loop step (n + 1) s = some r := by
  induction n generalizing s with
  | zero => cases h
  | succ n ih =>
    rw [loop] at h ⊢
    cases hs : step s with
    | inl t =>
      rw [hs] at h
      exact ih h
    | inr q =>
      rw [hs] at h
      exact h

theorem loop_mono {n m : Nat} {s : σ} {r : ρ} (hnm : n ≤ m) (h : loop step n s = some r) :
    loop step m s = some r := by
  induction hnm with
  | refl => exact h
  | step _ ih => exact loop_succ step ih

theorem Ends.unique {s : σ} {r r' : ρ} (h : Ends step s r) (h' : Ends step s r') : r = r' := by
  obtain ⟨n, hn⟩ := h
  obtain ⟨m, hm⟩ := h'
  have hn := loop_mono step (Nat.le_max_left n m) hn
  have hm := loop_mono step (Nat.le_max_right n m) hm
  exact Option.some.inj (hn.symm.trans hm)

theorem ends_done {s : σ} {r : ρ} (h : step s = .inr r) : Ends step s r :=
  ⟨1, by rw [loop, h]⟩

theorem ends_next {s t : σ} {r : ρ} (h : step s = .inl t) (ht : Ends step t r) :
    Ends step s r := by
  obtain ⟨n, hn⟩ := ht
  exact ⟨n + 1, by rw [loop, h]; exact hn⟩

/-- The rule of total correctness: an invariant, a measure that every further
round makes smaller, and a property of the results. -/
theorem ends_of_measure {I : σ → Prop} {Q : ρ → Prop} (μ : σ → Nat)
    (hstep : ∀ s, I s → (∃ r, step s = .inr r ∧ Q r) ∨ ∃ t, step s = .inl t ∧ I t ∧ μ t < μ s)
    {s : σ} (hI : I s) : ∃ r, Ends step s r ∧ Q r := by
  induction hn : μ s using Nat.strongRecOn generalizing s with
  | ind n ih =>
    obtain ⟨r, hr, hQ⟩ | ⟨t, ht, hIt, hlt⟩ := hstep s hI
    · exact ⟨r, ends_done step hr, hQ⟩
    · obtain ⟨r, hr, hQ⟩ := ih (μ t) (hn ▸ hlt) hIt rfl
      exact ⟨r, ends_next step ht hr, hQ⟩

/-- The rule of partial correctness: an invariant that further rounds keep, and a
property of the results. -/
theorem loop_result {I : σ → Prop} {Q : ρ → Prop} (hnext : ∀ s t, I s → step s = .inl t → I t)
    (hend : ∀ s r, I s → step s = .inr r → Q r) {n : Nat} {s : σ} {r : ρ} (hI : I s)
    (h : loop step n s = some r) : Q r := by
  induction n generalizing s with
  | zero => cases h
  | succ n ih =>
    rw [loop] at h
    cases hs : step s with
    | inl t =>
      rw [hs] at h
      exact ih (hnext s t hI hs) h
    | inr q =>
      rw [hs] at h
      exact Option.some.inj h ▸ hend s q hI hs

theorem loop_eq_none {I : σ → Prop} (hstep : ∀ s, I s → ∃ t, step s = .inl t ∧ I t) {s : σ}
    (hI : I s) (n : Nat) : loop step n s = none := by
  induction n generalizing s with
  | zero => rfl
  | succ n ih =>
    obtain ⟨t, ht, hIt⟩ := hstep s hI
    rw [loop, ht]
    exact ih hIt

/-- A computation with a bound on its rounds gives this result once the bound is
large enough. -/
def Gives {β : Type} (f : Nat → Option β) (b : β) : Prop := ∃ n, ∀ m, n ≤ m → f m = some b

theorem gives_of_ends {s : σ} {r : ρ} (h : Ends step s r) : Gives (fun n => loop step n s) r := by
  obtain ⟨n, hn⟩ := h
  exact ⟨n, fun m hm => loop_mono step hm hn⟩

theorem gives_some {β : Type} (b : β) : Gives (fun _ => some b) b := ⟨0, fun _ _ => rfl⟩

theorem Gives.bind {β γ : Type} {f : Nat → Option β} {g : Nat → β → Option γ} {b : β} {c : γ}
    (hf : Gives f b) (hg : Gives (fun n => g n b) c) : Gives (fun n => f n >>= g n) c := by
  obtain ⟨n, hn⟩ := hf
  obtain ⟨k, hk⟩ := hg
  refine ⟨max n k, fun m hm => ?_⟩
  have hfirst := hn m (by omega)
  have hrest := hk m (by omega)
  exact Option.bind_eq_some_iff.mpr ⟨b, hfirst, hrest⟩

theorem Gives.unique {β : Type} {f : Nat → Option β} {b b' : β} (h : Gives f b)
    (h' : Gives f b') : b = b' := by
  obtain ⟨n, hn⟩ := h
  obtain ⟨k, hk⟩ := h'
  have hb := hn (max n k) (by omega)
  have hb' := hk (max n k) (by omega)
  exact Option.some.inj (hb.symm.trans hb')

end ListServer.Lib.Loop
