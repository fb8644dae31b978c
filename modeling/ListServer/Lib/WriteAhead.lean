import ListServer.Lib.Transition
import Mathlib.Data.List.Count
import Mathlib.Data.List.Perm.Subperm
import Mathlib.Logic.Function.Basic

namespace ListServer.Lib.WriteAhead

open Transition

variable {κ α : Type} [DecidableEq κ]

/-- Parties that note an action each before they perform it. -/
@[ext] structure Book (κ α : Type) where
  journal : List (κ × α)
  performed : List (κ × α)
  inHand : κ → Option α

inductive Event (κ α : Type)
  | note (k : κ) (a : α)
  | perform (k : κ) (a : α)

def Book.empty : Book κ α := ⟨[], [], fun _ => none⟩

/-- A party has one action in hand at most. -/
def step [DecidableEq α] (b : Book κ α) : Event κ α → Option (Book κ α)
  | .note k a =>
    if b.inHand k = none then
      some { b with
        journal := b.journal ++ [(k, a)], inHand := Function.update b.inHand k (some a) }
    else none
  | .perform k a =>
    if b.inHand k = some a then
      some { b with
        performed := b.performed ++ [(k, a)], inHand := Function.update b.inHand k none }
    else none

def only (k : κ) (es : List (κ × α)) : List α := (es.filter fun e => e.1 = k).map Prod.snd

theorem only_append (k : κ) (es fs : List (κ × α)) :
    only k (es ++ fs) = only k es ++ only k fs := by
  rw [only, List.filter_append, List.map_append, only, only]

theorem only_single (j k : κ) (a : α) : only k [(j, a)] = if j = k then [a] else [] := by
  by_cases h : j = k <;> simp [only, h]

theorem map_snd_eq_only {k : κ} {es : List (κ × α)} (h : ∀ e ∈ es, e.1 = k) :
    es.map Prod.snd = only k es := by
  rw [only, List.filter_eq_self.mpr fun e he => decide_eq_true (h e he)]

theorem only_filter (k : κ) (p : α → Bool) (es : List (κ × α)) :
    only k (es.filter fun e => p e.2) = (only k es).filter p := by
  rw [only, only, List.filter_map, List.filter_filter, List.filter_filter]
  congr 2
  funext e
  exact Bool.and_comm _ _

theorem count_only [DecidableEq α] (k : κ) (a : α) (es : List (κ × α)) :
    es.count (k, a) = (only k es).count a := by
  induction es with
  | nil => rfl
  | cons e es ih =>
    obtain ⟨j, b⟩ := e
    rw [List.count_cons, ← List.singleton_append, only_append, only_single, List.count_append, ih,
      Nat.add_comm]
    by_cases hj : j = k <;> by_cases hb : b = a <;> simp [hj, hb]

/-- The journal has what each party has performed, in its order, and what it
has in hand. -/
def InOrder (b : Book κ α) : Prop :=
  ∀ k, only k b.journal = only k b.performed ++ (b.inHand k).toList

theorem inOrder_empty : InOrder (Book.empty : Book κ α) := fun _ => rfl

section Run

variable [DecidableEq α] {b b' : Book κ α} {e : Event κ α} {es : List (Event κ α)} {k : κ}

theorem step_note {a : α} : step b (.note k a) = some b' ↔ b.inHand k = none ∧
    { b with
      journal := b.journal ++ [(k, a)], inHand := Function.update b.inHand k (some a) } = b' := by
  rw [step, Option.ite_none_right_eq_some, Option.some.injEq]

theorem step_perform {a : α} : step b (.perform k a) = some b' ↔ b.inHand k = some a ∧
    { b with
      performed := b.performed ++ [(k, a)], inHand := Function.update b.inHand k none } = b' := by
  rw [step, Option.ite_none_right_eq_some, Option.some.injEq]

theorem inOrder_step (h : InOrder b) (hs : step b e = some b') : InOrder b' := by
  intro k
  cases e with
  | note j a =>
    obtain ⟨hnone, rfl⟩ := step_note.mp hs
    simp only [only_append, only_single, h k]
    by_cases hk : k = j
    · subst hk
      simp [hnone]
    · simp [hk, Ne.symm hk]
  | perform j a =>
    obtain ⟨hsome, rfl⟩ := step_perform.mp hs
    simp only [only_append, only_single, h k]
    by_cases hk : k = j
    · subst hk
      simp [hsome]
    · simp [hk, Ne.symm hk]

theorem inOrder_run (hrun : run step Book.empty es = some b) : InOrder b :=
  run_invariant_of_step step (fun _ _ _ h hs => inOrder_step h hs) inOrder_empty hrun

/-- Nothing is performed that has not been noted as often before. -/
theorem InOrder.subperm (h : InOrder b) : b.performed.Subperm b.journal := by
  rw [List.subperm_ext_iff]
  rintro ⟨k, a⟩ -
  rw [count_only, count_only, h k, List.count_append]
  exact Nat.le_add_right _ _

theorem InOrder.perm (h : InOrder b) (hnone : ∀ k, b.inHand k = none) :
    b.performed.Perm b.journal := by
  rw [List.perm_iff_count]
  rintro ⟨k, a⟩
  rw [count_only, count_only, h k, hnone k, Option.toList_none, List.append_nil]

/-- Actions that only one party notes are performed in the order of the
journal, and at most the last of them is still in its hands. -/
theorem InOrder.filter (h : InOrder b) {p : α → Bool} (hp : ∀ e ∈ b.journal, p e.2 → e.1 = k) :
    (b.journal.filter fun e => p e.2).map Prod.snd =
      (b.performed.filter fun e => p e.2).map Prod.snd ++ ((b.inHand k).filter p).toList := by
  have hjournal : ∀ e ∈ b.journal.filter (fun e => p e.2), e.1 = k := fun e he => by
    obtain ⟨hmem, hpe⟩ := List.mem_filter.mp he
    exact hp e hmem hpe
  have hperformed : ∀ e ∈ b.performed.filter (fun e => p e.2), e.1 = k := fun e he => by
    obtain ⟨hmem, hpe⟩ := List.mem_filter.mp he
    exact hp e (h.subperm.subset hmem) hpe
  rw [map_snd_eq_only hjournal, map_snd_eq_only hperformed, only_filter, only_filter, h k,
    List.filter_append]
  cases b.inHand k with
  | none => rfl
  | some a => cases hpa : p a <;> simp [Option.filter, hpa]

end Run

end ListServer.Lib.WriteAhead
