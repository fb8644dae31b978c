import ListServer.Lib.Transition
import Mathlib.Algebra.BigOperators.Group.Finset.Basic
import Mathlib.Algebra.Order.BigOperators.Group.Finset

namespace ListServer.Lib.Progress

open Transition

section Runs

variable {σ ι : Type} (step : σ → ι → Option σ) (input : ι → Bool)

def inputs (ls : List ι) : Nat := ls.countP input

def works (ls : List ι) : Nat := ls.countP fun l => !input l

variable {step input} {P : ι → Prop} {I : σ → Prop} {μ : σ → Nat} {k : Nat}

/-- The potential rule: where an input brings at most `k` and every other step
takes something away, a run works at most `k` times as often as it has inputs. -/
theorem works_le (hinv : ∀ s l t, I s → P l → step s l = some t → I t)
    (hinput : ∀ s l t, I s → P l → step s l = some t → input l = true → μ t ≤ μ s + k)
    (hwork : ∀ s l t, I s → P l → step s l = some t → input l = false → μ t < μ s)
    {s t : σ} {ls : List ι} (hI : I s) (hP : ∀ l ∈ ls, P l) (hrun : run step s ls = some t) :
    works input ls + μ t ≤ μ s + k * inputs input ls := by
  induction ls generalizing s with
  | nil =>
    obtain rfl : s = t := Option.some.inj hrun
    simp [works, inputs]
  | cons l ls ih =>
    obtain ⟨u, hu, hrest⟩ := Option.bind_eq_some_iff.mp hrun
    have hl := hP l List.mem_cons_self
    have hrest := ih (hinv s l u hI hl hu) (fun m hm => hP m (List.mem_cons_of_mem l hm)) hrest
    cases hin : input l with
    | true =>
      have hstep := hinput s l u hI hl hu hin
      have hins : inputs input (l :: ls) = inputs input ls + 1 := by simp [inputs, hin]
      have hworks : works input (l :: ls) = works input ls := by simp [works, hin]
      rw [hins, hworks, Nat.mul_succ]
      omega
    | false =>
      have hstep := hwork s l u hI hl hu hin
      have hins : inputs input (l :: ls) = inputs input ls := by simp [inputs, hin]
      have hworks : works input (l :: ls) = works input ls + 1 := by simp [works, hin]
      rw [hins, hworks]
      omega

/-- Where the work never stops before the system is done, it gets done. -/
theorem reaches_done {D : σ → Prop} (hinv : ∀ s l t, I s → P l → step s l = some t → I t)
    (hwork : ∀ s l t, I s → P l → step s l = some t → input l = false → μ t < μ s)
    (hnext : ∀ s, I s → ¬ D s → ∃ l, input l = false ∧ P l ∧ Enabled step s l) {s : σ} (hI : I s) :
    ∃ t, Reaches step (fun l => input l = false ∧ P l) s t ∧ I t ∧ D t := by
  induction hn : μ s using Nat.strongRecOn generalizing s with
  | ind n ih =>
    by_cases hD : D s
    · exact ⟨s, .refl s, hI, hD⟩
    · obtain ⟨l, hin, hl, u, hu⟩ := hnext s hI hD
      have hlt := hwork s l u hI hl hu hin
      obtain ⟨t, hreach, ht⟩ := ih (μ u) (hn ▸ hlt) (hinv s l u hI hl hu) rfl
      exact ⟨t, .head hu ⟨hin, hl⟩ hreach, ht⟩

end Runs

section Sums

variable {α : Type} [DecidableEq α] {S : Finset α} {f g : α → Nat} {x y : α}

theorem sum_change (hx : x ∈ S) (h : ∀ z, z ≠ x → f z = g z) :
    ∑ z ∈ S, f z + g x = ∑ z ∈ S, g z + f x := by
  have hf := Finset.sum_erase_add S f hx
  have hg := Finset.sum_erase_add S g hx
  have hrest : ∑ z ∈ S.erase x, f z = ∑ z ∈ S.erase x, g z :=
    Finset.sum_congr rfl fun z hz => h z (Finset.ne_of_mem_erase hz)
  omega

theorem sum_change_two (hx : x ∈ S) (hy : y ∈ S) (hxy : x ≠ y)
    (h : ∀ z, z ≠ x → z ≠ y → f z = g z) :
    ∑ z ∈ S, f z + (g x + g y) = ∑ z ∈ S, g z + (f x + f y) := by
  have hfirst := sum_change (f := f) (g := Function.update f x (g x)) hx fun z hz =>
    (Function.update_of_ne hz _ _).symm
  have hsecond := sum_change (f := Function.update f x (g x)) (g := g) hy fun z hz => by
    by_cases hzx : z = x
    · rw [hzx, Function.update_self]
    · rw [Function.update_of_ne hzx, h z hzx hz]
  rw [Function.update_self] at hfirst
  rw [Function.update_of_ne hxy.symm] at hsecond
  omega

end Sums

end ListServer.Lib.Progress
