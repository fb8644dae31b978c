import Mathlib.Data.List.Nodup
import Mathlib.Data.List.Perm.Subperm

namespace ListServer.Lib.Slots

variable {α : Type}

def occupy (a : α) : List (Option α) → Option (List (Option α))
  | [] => none
  | none :: slots => some (some a :: slots)
  | some b :: slots => (occupy a slots).map (some b :: ·)

def used (slots : List (Option α)) : Nat := slots.countP Option.isSome

theorem occupy_eq_none {a : α} {slots : List (Option α)} : occupy a slots = none ↔ none ∉ slots := by
  induction slots with
  | nil => simp [occupy]
  | cons x slots ih => cases x <;> simp [occupy, ih]

theorem occupy_perm {a : α} {slots slots' : List (Option α)} (h : occupy a slots = some slots') :
    ∃ rest, slots.Perm (none :: rest) ∧ slots'.Perm (some a :: rest) := by
  induction slots generalizing slots' with
  | nil => cases h
  | cons x slots ih =>
    cases x with
    | none =>
      obtain rfl := Option.some.inj h
      exact ⟨slots, List.Perm.refl _, List.Perm.refl _⟩
    | some b =>
      obtain ⟨slots'', hocc, rfl⟩ := Option.map_eq_some_iff.mp h
      obtain ⟨rest, hfrom, hto⟩ := ih hocc
      exact ⟨some b :: rest, (hfrom.cons _).trans (List.Perm.swap _ _ _),
        (hto.cons _).trans (List.Perm.swap _ _ _)⟩

theorem used_replicate (n : Nat) : used (List.replicate n (none : Option α)) = 0 := by
  simp [used]

theorem used_occupy {a : α} {slots slots' : List (Option α)} (h : occupy a slots = some slots') :
    used slots' = used slots + 1 := by
  obtain ⟨rest, hfrom, hto⟩ := occupy_perm h
  rw [used, used, hfrom.countP_eq, hto.countP_eq]
  simp

theorem length_occupy {a : α} {slots slots' : List (Option α)}
    (h : occupy a slots = some slots') : slots'.length = slots.length := by
  obtain ⟨rest, hfrom, hto⟩ := occupy_perm h
  rw [hfrom.length_eq, hto.length_eq, List.length_cons, List.length_cons]

theorem length_le_of_owners {as : List α} {slots : List (Option α)} (hnodup : as.Nodup)
    (h : ∀ a ∈ as, some a ∈ slots) : as.length ≤ slots.length := by
  have hmap : (as.map some).Nodup := List.Nodup.map (fun _ _ h => Option.some.inj h) hnodup
  have hsub : as.map some ⊆ slots := fun x hx => by
    obtain ⟨a, ha, rfl⟩ := List.mem_map.mp hx
    exact h a ha
  have hle := (hmap.subperm hsub).length_le
  rwa [List.length_map] at hle

variable [DecidableEq α]

def vacate (a : α) (slots : List (Option α)) : List (Option α) :=
  slots.map fun x => if x = some a then none else x

theorem count_occupy {a : α} {slots slots' : List (Option α)} (h : occupy a slots = some slots')
    (b : α) : slots'.count (some b) = slots.count (some b) + if b = a then 1 else 0 := by
  obtain ⟨rest, hfrom, hto⟩ := occupy_perm h
  rw [hfrom.count_eq, hto.count_eq, List.count_cons, List.count_cons]
  by_cases hb : b = a
  · simp [hb]
  · have hab : ¬ a = b := fun he => hb he.symm
    simp [hb, hab]

theorem length_vacate (a : α) (slots : List (Option α)) :
    (vacate a slots).length = slots.length := List.length_map _

theorem used_vacate (a : α) (slots : List (Option α)) :
    used (vacate a slots) + slots.count (some a) = used slots := by
  induction slots with
  | nil => rfl
  | cons x slots ih =>
    rw [used, used, vacate] at ih
    rw [used, used, vacate, List.map_cons]
    by_cases hx : x = some a
    · subst hx
      simp only [if_true, List.countP_cons, List.count_cons, Option.isSome_none, Option.isSome_some,
        BEq.rfl, Bool.false_eq_true, if_false]
      omega
    · simp only [if_neg hx, List.countP_cons, List.count_cons]
      have hne : ¬ (x == some a) = true := by simpa using hx
      rw [if_neg hne]
      omega

theorem count_vacate (a b : α) (slots : List (Option α)) :
    (vacate a slots).count (some b) = if b = a then 0 else slots.count (some b) := by
  induction slots with
  | nil => simp [vacate]
  | cons x slots ih =>
    rw [vacate] at ih
    rw [vacate, List.map_cons, List.count_cons, ih, List.count_cons]
    by_cases hb : b = a
    · subst hb
      by_cases hx : x = some b <;> simp [hx]
    · by_cases hx : x = some a
      · have hab : ¬ a = b := fun he => hb he.symm
        simp [hx, hb, hab]
      · simp [hx, hb]

end ListServer.Lib.Slots
