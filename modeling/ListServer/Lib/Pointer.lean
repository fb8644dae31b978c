import Mathlib.Data.List.Basic

namespace ListServer.Lib.Pointer

inductive Fault
  | null
  | bounds
deriving DecidableEq, Repr

variable {α : Type}

/-- Read what a pointer points to; a NULL pointer is `none`. -/
def deref : Option α → Except Fault α
  | none => .error .null
  | some a => .ok a

def index (p : Option (List α)) (i : Nat) : Except Fault α :=
  (deref p).bind fun a =>
    match a[i]? with
    | none => .error .bounds
    | some x => .ok x

/-- Read through the pointers that an array holds at `n` places from `i` on. -/
def readPointers (p : Option (List (Option α))) : Nat → Nat → Except Fault (List α)
  | _, 0 => .ok []
  | i, n + 1 =>
    (index p i).bind fun q => (deref q).bind fun x => (readPointers p (i + 1) n).map (x :: ·)

/-- Write elements from the first place on into an array of `n` places. -/
def fill (n : Nat) (elements : List α) : Except Fault (List α) :=
  if elements.length ≤ n then .ok elements else .error .bounds

def untilNull : List (Option α) → Except Fault (List α)
  | [] => .error .bounds
  | none :: _ => .ok []
  | some x :: array => (untilNull array).map (x :: ·)

theorem index_map_some {a : List α} {i : Nat} (h : i < a.length) (rest : List (Option α)) :
    index (some (a.map some ++ rest)) i = .ok (some (a.get ⟨i, h⟩)) := by
  have hget : (a.map some ++ rest)[i]? = some (some (a.get ⟨i, h⟩)) := by
    rw [List.getElem?_append_left (by simpa using h), List.getElem?_map,
      List.getElem?_eq_getElem h]
    rfl
  simp only [index, deref, Except.bind, hget]

theorem readPointers_map_some {a : List α} {i n : Nat} (h : i + n ≤ a.length)
    (rest : List (Option α)) :
    readPointers (some (a.map some ++ rest)) i n = .ok ((a.drop i).take n) := by
  induction n generalizing i with
  | zero => simp [readPointers]
  | succ n ih =>
    have hi : i < a.length := by omega
    have hrest := ih (i := i + 1) (by omega)
    simp only [readPointers, index_map_some hi, Except.bind, deref, hrest, Except.map]
    rw [List.drop_eq_getElem_cons hi, List.take_succ_cons]
    rfl

theorem readPointers_append_eq_ok {front a : List (Option α)} {xs : List α}
    (h : readPointers (some (front ++ a)) front.length a.length = .ok xs) : a = xs.map some := by
  induction a generalizing front xs with
  | nil =>
    obtain rfl := Except.ok.inj h
    rfl
  | cons q a ih =>
    have hindex : index (some (front ++ q :: a)) front.length = .ok q := by
      simp [index, deref, Except.bind]
    rw [List.length_cons, readPointers, hindex] at h
    cases q with
    | none => cases h
    | some x =>
      simp only [Except.bind, deref] at h
      have hsplit : front ++ some x :: a = (front ++ [some x]) ++ a := by simp
      have hlength : front.length + 1 = (front ++ [some x]).length := by simp
      rw [hsplit, hlength] at h
      cases hrest : readPointers (some ((front ++ [some x]) ++ a)) (front ++ [some x]).length
        a.length with
      | error e =>
        rw [hrest] at h
        cases h
      | ok ys =>
        rw [hrest] at h
        obtain rfl := Except.ok.inj h
        rw [List.map_cons, ← ih hrest]

theorem untilNull_map_some (a : List α) (rest : List (Option α)) :
    untilNull (a.map some ++ none :: rest) = .ok a := by
  induction a with
  | nil => rfl
  | cons x a ih =>
    rw [List.map_cons, List.cons_append, untilNull, ih]
    rfl

end ListServer.Lib.Pointer
