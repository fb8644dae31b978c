import ListServer.Lib.Transition

namespace ListServer.Lib.Replication

open Transition

/-- What the members of a line have executed: all of them the settled entries,
and the members from some number on one entry more. -/
structure Log (α : Type) where
  settled : List α
  pending : Option (Nat × α)

variable {α : Type}

def Log.empty : Log α := ⟨[], none⟩

def Log.view (s : Log α) (i : Nat) : List α :=
  match s.pending with
  | none => s.settled
  | some (k, a) => if k ≤ i then s.settled ++ [a] else s.settled

def Log.all (s : Log α) : List α := s.settled ++ (s.pending.map Prod.snd).toList

/-- The log when the entry has come up to member `i`. -/
def Log.reach (s : Log α) (i : Nat) (a : α) : Log α :=
  if i = 0 then ⟨s.settled ++ [a], none⟩ else ⟨s.settled, some (i, a)⟩

/-- The last member starts an entry when no other one is on its way, and the
entry then goes up the line member by member. -/
def execute [DecidableEq α] (n : Nat) (s : Log α) (e : Nat × α) : Option (Log α) :=
  if (s.pending = none ∧ e.1 + 1 = n) ∨ s.pending = some (e.1 + 1, e.2)
    then some (s.reach e.1 e.2) else none

/-- The entries that member `i` executes, in their order. -/
def own (i : Nat) (es : List (Nat × α)) : List α :=
  es.filterMap fun e => if e.1 = i then some e.2 else none

theorem own_append (i : Nat) (es fs : List (Nat × α)) : own i (es ++ fs) = own i es ++ own i fs :=
  List.filterMap_append

@[simp] theorem own_single (i : Nat) (e : Nat × α) :
    own i [e] = if e.1 = i then [e.2] else [] := by
  by_cases h : e.1 = i <;> simp [own, h]

section Views

variable {s : Log α} {i j k : Nat} {a : α}

theorem view_none (h : s.pending = none) (i : Nat) : s.view i = s.settled := by rw [Log.view, h]

theorem view_some (h : s.pending = some (k, a)) (i : Nat) :
    s.view i = if k ≤ i then s.settled ++ [a] else s.settled := by rw [Log.view, h]

theorem reach_zero (s : Log α) (a : α) : s.reach 0 a = ⟨s.settled ++ [a], none⟩ := rfl

theorem reach_pos (s : Log α) (a : α) (h : 0 < i) : s.reach i a = ⟨s.settled, some (i, a)⟩ :=
  if_neg (by omega)

theorem Log.pending_reach (s : Log α) (i : Nat) (a : α) :
    (s.reach i a).pending = if i = 0 then none else some (i, a) := by
  rw [Log.reach]
  split <;> rfl

theorem view_reach (s : Log α) (i : Nat) (a : α) (j : Nat) :
    (s.reach i a).view j = if i ≤ j then s.settled ++ [a] else s.settled := by
  by_cases hi : i = 0
  · subst hi
    rw [reach_zero, view_none rfl, if_pos (Nat.zero_le j)]
  · rw [reach_pos s a (by omega), view_some rfl]

/-- A member is at most one entry behind the ones further down. -/
theorem view_le (h : i ≤ j) : s.view j = s.view i ∨
    ∃ k a, s.pending = some (k, a) ∧ i < k ∧ k ≤ j ∧ s.view j = s.view i ++ [a] := by
  cases hp : s.pending with
  | none => exact .inl (by rw [view_none hp, view_none hp])
  | some e =>
    obtain ⟨k, a⟩ := e
    rw [view_some hp, view_some hp]
    by_cases hki : k ≤ i
    · rw [if_pos hki, if_pos (by omega)]
      exact .inl rfl
    · by_cases hkj : k ≤ j
      · rw [if_neg hki, if_pos hkj]
        exact .inr ⟨k, a, rfl, by omega, hkj, rfl⟩
      · rw [if_neg hki, if_neg hkj]
        exact .inl rfl

theorem mem_view_le (h : i ≤ j) (ha : a ∈ s.view i) : a ∈ s.view j := by
  obtain he | ⟨k, b, -, -, -, he⟩ := view_le (s := s) h
  · rwa [he]
  · rw [he]
    exact List.mem_append_left _ ha

theorem view_sublist (s : Log α) (i : Nat) : (s.view i).Sublist s.all := by
  cases hp : s.pending with
  | none =>
    rw [view_none hp]
    exact List.sublist_append_left _ _
  | some e =>
    obtain ⟨k, a⟩ := e
    rw [view_some hp, Log.all, hp]
    split
    · exact List.Sublist.refl _
    · exact List.sublist_append_left _ _

theorem all_start (h : s.pending = none) (i : Nat) (a : α) : (s.reach i a).all = s.all ++ [a] := by
  rw [Log.reach]
  split <;> simp [Log.all, h]

theorem all_pass (h : s.pending = some (k, a)) (i : Nat) : (s.reach i a).all = s.all := by
  rw [Log.reach]
  split <;> simp [Log.all, h]

theorem view_eq_all (h : ∀ k a, s.pending = some (k, a) → k ≤ i) : s.view i = s.all := by
  cases hp : s.pending with
  | none => rw [view_none hp, Log.all, hp, Option.map_none, Option.toList_none, List.append_nil]
  | some e =>
    obtain ⟨k, a⟩ := e
    rw [view_some hp, if_pos (h k a hp), Log.all, hp]
    rfl

end Views

section Steps

variable [DecidableEq α] {n i : Nat} {s s' : Log α} {e : Nat × α} {es : List (Nat × α)}

theorem execute_eq_some : execute n s e = some s' ↔
    ((s.pending = none ∧ e.1 + 1 = n) ∨ s.pending = some (e.1 + 1, e.2)) ∧
      s.reach e.1 e.2 = s' := by
  rw [execute, Option.ite_none_right_eq_some, Option.some.injEq]

/-- Every step adds its entry to the log of its own member and changes no
other one. -/
theorem view_execute (hs : execute n s e = some s') (hi : i < n) :
    s'.view i = s.view i ++ own i [e] := by
  obtain ⟨hnext, rfl⟩ := execute_eq_some.mp hs
  rw [view_reach, own_single]
  obtain ⟨hp, hn⟩ | hp := hnext
  · rw [view_none hp]
    by_cases he : e.1 = i
    · rw [if_pos he, if_pos (by omega)]
    · rw [if_neg he, if_neg (by omega), List.append_nil]
  · rw [view_some hp]
    by_cases he : e.1 = i
    · rw [if_pos he, if_pos (by omega), if_neg (by omega)]
    · rw [if_neg he, List.append_nil]
      by_cases hle : e.1 ≤ i
      · rw [if_pos hle, if_pos (by omega)]
      · rw [if_neg hle, if_neg (by omega)]

theorem view_run (hrun : run (execute n) s es = some s') (hi : i < n) :
    s'.view i = s.view i ++ own i es := by
  induction es generalizing s with
  | nil =>
    obtain rfl : s = s' := Option.some.inj hrun
    rw [own, List.filterMap_nil, List.append_nil]
  | cons e es ih =>
    obtain ⟨u, hu, hrest⟩ := Option.bind_eq_some_iff.mp hrun
    rw [ih hrest, view_execute hu hi, List.append_assoc, ← own_append, List.singleton_append]

end Steps

end ListServer.Lib.Replication
