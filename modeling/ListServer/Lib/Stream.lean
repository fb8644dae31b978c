import Mathlib.Data.List.Basic

namespace ListServer.Lib.Stream

variable {α : Type}

/-- What a call that transfers data does: it moves some elements, `k + 1` at
most, or is interrupted. -/
inductive Event
  | chunk (k : Nat)
  | interrupted
deriving DecidableEq, Repr

/-- What the successive calls do. Finitely many are interrupted. -/
structure Schedule where
  events : Nat → Event
  bound : Nat
  finite : ∀ i, bound ≤ i → events i ≠ .interrupted

structure Source (α : Type) where
  input : List α
  calls : Nat

structure Sink (α : Type) where
  output : List α
  calls : Nat

/-- Ask for `len` elements: `none` is an interruption, no elements are the end
of the data. -/
def Source.read (w : Schedule) (s : Source α) (len : Nat) : Option (List α) × Source α :=
  match w.events s.calls with
  | .interrupted => (none, ⟨s.input, s.calls + 1⟩)
  | .chunk k =>
    let n := min (k + 1) len
    (some (s.input.take n), ⟨s.input.drop n, s.calls + 1⟩)

/-- Offer elements: the result is the number of those that were taken. -/
def Sink.write (w : Schedule) (s : Sink α) (data : List α) : Option Nat × Sink α :=
  match w.events s.calls with
  | .interrupted => (none, ⟨s.output, s.calls + 1⟩)
  | .chunk k =>
    let n := min (k + 1) data.length
    (some n, ⟨s.output ++ data.take n, s.calls + 1⟩)

theorem Schedule.lt_bound (w : Schedule) {i : Nat} (h : w.events i = .interrupted) :
    i < w.bound := by
  by_contra hge
  exact w.finite i (Nat.le_of_not_lt hge) h

theorem Source.read_cases (w : Schedule) (s : Source α) (len : Nat) (hlen : 0 < len) :
    (s.calls < w.bound ∧ s.read w len = (none, ⟨s.input, s.calls + 1⟩)) ∨
      ∃ m, 0 < m ∧ m ≤ len ∧
        s.read w len = (some (s.input.take m), ⟨s.input.drop m, s.calls + 1⟩) := by
  rw [Source.read]
  cases h : w.events s.calls with
  | interrupted =>
    exact .inl ⟨w.lt_bound h, rfl⟩
  | chunk k => exact .inr ⟨min (k + 1) len, by omega, by omega, rfl⟩

theorem Sink.write_cases (w : Schedule) (s : Sink α) (data : List α) (hdata : 0 < data.length) :
    (s.calls < w.bound ∧ s.write w data = (none, ⟨s.output, s.calls + 1⟩)) ∨
      ∃ m, 0 < m ∧ m ≤ data.length ∧
        s.write w data = (some m, ⟨s.output ++ data.take m, s.calls + 1⟩) := by
  rw [Sink.write]
  cases h : w.events s.calls with
  | interrupted =>
    exact .inl ⟨w.lt_bound h, rfl⟩
  | chunk k => exact .inr ⟨min (k + 1) data.length, by omega, by omega, rfl⟩

end ListServer.Lib.Stream
