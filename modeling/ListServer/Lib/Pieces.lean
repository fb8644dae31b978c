import Mathlib.Data.List.Basic

namespace ListServer.Lib.Pieces

/-- A frame goes out in two writes, its length and then its content. -/
inductive Piece (F : Type) where
  | header (f : F)
  | body (f : F)
deriving DecidableEq, Repr

variable {F : Type}

def Piece.frame : Piece F → F
  | .header f | .body f => f

def pieces (fs : List F) : List (Piece F) := fs.flatMap fun f => [.header f, .body f]

/-- Complete frames, and possibly one that has only begun. -/
def written (fs : List F) (part : Option F) : List (Piece F) :=
  pieces fs ++ part.toList.map .header

/-- A reader takes two pieces for a frame. They are one if they belong together. -/
def decode [DecidableEq F] : Piece F → Piece F → Option F
  | .header f, .body g => if f = g then some f else none
  | _, _ => none

theorem written_cons (f : F) (fs : List F) (part : Option F) :
    written (f :: fs) part = .header f :: .body f :: written fs part := rfl

theorem written_begin (fs : List F) (f : F) :
    written fs none ++ [.header f] = written fs (some f) := by
  simp [written]

theorem written_end (fs : List F) (f : F) :
    written fs (some f) ++ [.body f] = written (fs ++ [f]) none := by
  simp [written, pieces]

theorem written_eq_nil {fs : List F} {part : Option F} (h : written fs part = []) :
    fs = [] ∧ part = none := by
  cases fs with
  | nil => cases part with
    | none => exact ⟨rfl, rfl⟩
    | some f => cases h
  | cons f fs => cases h

theorem written_eq_header {fs : List F} {part : Option F} {f : F}
    (h : written fs part = [.header f]) : fs = [] ∧ part = some f := by
  cases fs with
  | nil => cases part with
    | none => cases h
    | some g => exact ⟨rfl, congrArg some (Piece.header.inj (List.singleton_inj.mp h))⟩
  | cons g fs => cases h

theorem drop_written {fs : List F} {part : Option F} {n : Nat} (h : n ≤ fs.length) :
    (written fs part).drop (2 * n) = written (fs.drop n) part := by
  induction n generalizing fs with
  | zero => rfl
  | succ n ih =>
    cases fs with
    | nil => cases h
    | cons f fs => exact ih (Nat.le_of_succ_le_succ h)

/-- Who has read the first `n` frames and finds two more pieces reads the next frame. -/
theorem decode_next [DecidableEq F] {fs : List F} {part : Option F} {n : Nat} {p q : Piece F}
    {rest : List (Piece F)} (hn : n ≤ fs.length)
    (h : (written fs part).drop (2 * n) = p :: q :: rest) : ∃ f, fs[n]? = some f ∧
      decode p q = some f := by
  rw [drop_written hn] at h
  cases hd : fs.drop n with
  | nil =>
    rw [hd] at h
    cases part <;> cases h
  | cons f gs =>
    rw [hd, written_cons] at h
    obtain ⟨rfl, htail⟩ := List.cons_eq_cons.mp h
    obtain ⟨rfl, -⟩ := List.cons_eq_cons.mp htail
    refine ⟨f, ?_, if_pos rfl⟩
    rw [← List.head?_drop, hd]
    rfl

theorem frame_mem_of_written {fs : List F} {part : Option F} {p : Piece F}
    (h : p ∈ written fs part) : p.frame ∈ fs ∨ part = some p.frame := by
  induction fs with
  | nil =>
    cases part with
    | none => cases h
    | some f =>
      obtain rfl := List.mem_singleton.mp h
      exact .inr rfl
  | cons f fs ih =>
    rw [written_cons] at h
    obtain rfl | h := List.mem_cons.mp h
    · exact .inl List.mem_cons_self
    · obtain rfl | h := List.mem_cons.mp h
      · exact .inl List.mem_cons_self
      · exact (ih h).imp_left (List.mem_cons_of_mem f)

theorem body_mem_of_written {f : F} {fs : List F} {part : Option F} {pre post : List (Piece F)}
    {p : Piece F} (h : written (f :: fs) part = pre ++ p :: post) (hp : p.frame ≠ f) :
    .body f ∈ pre := by
  rw [written_cons] at h
  cases pre with
  | nil =>
    obtain ⟨rfl, -⟩ := List.cons_eq_cons.mp h
    exact absurd rfl hp
  | cons x pre =>
    obtain ⟨-, h⟩ := List.cons_eq_cons.mp h
    cases pre with
    | nil =>
      obtain ⟨rfl, -⟩ := List.cons_eq_cons.mp h
      exact absurd rfl hp
    | cons y pre =>
      obtain ⟨rfl, -⟩ := List.cons_eq_cons.mp h
      exact List.mem_cons_of_mem _ List.mem_cons_self

end ListServer.Lib.Pieces
