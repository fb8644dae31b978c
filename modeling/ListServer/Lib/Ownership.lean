import ListServer.Lib.Footprint
import Mathlib.Data.Fintype.Card

namespace ListServer.Lib.Ownership

open Memory Footprint

variable {α κ : Type}

/-- Each object of the heap is either held by one of the owners, who hold one
each, or one of the lost ones. -/
def Owned (h : Heap α) (owners : κ → Option Nat) (lost : Nat) : Prop :=
  ∃ rest : Finset Nat, rest.card = lost ∧
    (∀ a, h a ≠ none ↔ a ∈ rest ∨ ∃ k, owners k = some a) ∧
    (∀ k a, owners k = some a → a ∉ rest) ∧
    ∀ j k a, owners j = some a → owners k = some a → j = k

section Owned

variable {h : Heap α} {owners : κ → Option Nat} {lost : Nat} {k : κ} {a : Nat}

theorem owned_empty : Owned (fun _ => none : Heap α) (fun _ : κ => none) 0 :=
  ⟨∅, rfl, by simp, nofun, nofun⟩

theorem Owned.ne_none (ho : Owned h owners lost) (hk : owners k = some a) : ∃ x, h a = some x := by
  obtain ⟨rest, -, hplaces, -, -⟩ := ho
  exact Option.ne_none_iff_exists'.mp ((hplaces a).mpr (.inr ⟨k, hk⟩))

theorem Owned.not_owned (ho : Owned h owners lost) (ha : h a = none) (k : κ) :
    owners k ≠ some a := fun hk => by
  obtain ⟨x, hx⟩ := ho.ne_none hk
  rw [ha] at hx
  cases hx

theorem Owned.store {x : α} (ho : Owned h owners lost) (hk : owners k = some a) :
    Owned (store h a x) owners lost := by
  obtain ⟨rest, hcard, hplaces, hapart, hone⟩ := ho
  refine ⟨rest, hcard, fun b => ?_, hapart, hone⟩
  rw [← hplaces b]
  by_cases hb : b = a
  · subst hb
    simp [(hplaces b).mpr (.inr ⟨k, hk⟩)]
  · rw [store_of_ne hb]

theorem Owned.one {j : κ} (ho : Owned h owners lost) (hj : owners j = some a)
    (hk : owners k = some a) : j = k := by
  obtain ⟨-, -, -, -, hone⟩ := ho
  exact hone j k a hj hk

def held [Fintype κ] (owners : κ → Option Nat) : Nat :=
  (Finset.univ.filter fun k => (owners k).isSome).card

theorem held_congr [Fintype κ] {owners' : κ → Option Nat}
    (h : ∀ k, (owners k).isSome = (owners' k).isSome) : held owners = held owners' := by
  simp only [held, h]

theorem Owned.holds [Fintype κ] (ho : Owned h owners lost) : Holds h (held owners + lost) := by
  obtain ⟨rest, hcard, hplaces, hapart, hone⟩ := ho
  let place := fun k => (owners k).getD 0
  have hplace : ∀ k a, owners k = some a → place k = a := fun k a hk => by simp [place, hk]
  let places := (Finset.univ.filter fun k => (owners k).isSome).image place
  have hmem : ∀ a, a ∈ places ↔ ∃ k, owners k = some a := by
    intro a
    simp only [places, Finset.mem_image, Finset.mem_filter, Finset.mem_univ, true_and]
    constructor
    · rintro ⟨k, hk, rfl⟩
      obtain ⟨a, ha⟩ := Option.isSome_iff_exists.mp hk
      exact ⟨k, by rw [ha, hplace k a ha]⟩
    · rintro ⟨k, hk⟩
      exact ⟨k, by rw [hk]; rfl, hplace k a hk⟩
  have hcount : places.card = held owners := by
    refine Finset.card_image_of_injOn fun i hi j hj hij => ?_
    obtain ⟨a, ha⟩ := Option.isSome_iff_exists.mp (Finset.mem_filter.mp hi).2
    obtain ⟨b, hb⟩ := Option.isSome_iff_exists.mp (Finset.mem_filter.mp hj).2
    have hab : a = b := (hplace i a ha).symm.trans (hij.trans (hplace j b hb))
    exact hone i j a ha (hab ▸ hb)
  have hdisjoint : Disjoint places rest := Finset.disjoint_left.mpr fun a ha => by
    obtain ⟨k, hk⟩ := (hmem a).mp ha
    exact hapart k a hk
  refine ⟨places ∪ rest, fun a => ?_, ?_⟩
  · rw [hplaces a, Finset.mem_union, hmem, or_comm]
  · rw [Finset.card_union_of_disjoint hdisjoint, hcount, hcard]

theorem Owned.lose (ho : Owned h owners lost) (ha : h a = none) (x : α) :
    Owned (Memory.store h a x) owners (lost + 1) := by
  have hfree := ho.not_owned ha
  obtain ⟨rest, hcard, hplaces, hapart, hone⟩ := ho
  have hrest : a ∉ rest := fun hmem => (hplaces a).mpr (.inl hmem) ha
  refine ⟨insert a rest, by rw [Finset.card_insert_of_notMem hrest, hcard], fun b => ?_,
    fun j b hj => ?_, hone⟩
  · rw [Finset.mem_insert]
    by_cases hb : b = a
    · subst hb
      exact iff_of_true (by simp) (.inl (.inl rfl))
    · rw [store_of_ne hb, hplaces b, or_iff_right hb]
  · rw [Finset.mem_insert, not_or]
    exact ⟨fun he => hfree j (he ▸ hj), hapart j b hj⟩

variable [DecidableEq κ]

theorem update_some {j : κ} {p : Option Nat} {b : Nat}
    (hj : Function.update owners k p j = some b) :
    (j = k ∧ p = some b) ∨ (j ≠ k ∧ owners j = some b) := by
  rw [Function.update_apply] at hj
  split at hj
  next he => exact .inl ⟨he, hj⟩
  next he => exact .inr ⟨he, hj⟩

theorem Owned.acquire (ho : Owned h owners lost) (ha : h a = none) (hk : owners k = none) (x : α) :
    Owned (Memory.store h a x) (Function.update owners k (some a)) lost := by
  have hfree := ho.not_owned ha
  obtain ⟨rest, hcard, hplaces, hapart, hone⟩ := ho
  have hrest : a ∉ rest := fun hmem => (hplaces a).mpr (.inl hmem) ha
  refine ⟨rest, hcard, fun b => ?_, fun j b hj => ?_, fun i j b hi hj => ?_⟩
  · by_cases hb : b = a
    · subst hb
      exact iff_of_true (by simp) (.inr ⟨k, Function.update_self ..⟩)
    · rw [store_of_ne hb, hplaces b]
      refine or_congr_right ⟨fun ⟨j, hj⟩ => ⟨j, ?_⟩, fun ⟨j, hj⟩ => ?_⟩
      · have hne : j ≠ k := fun he => by
          rw [he, hk] at hj
          cases hj
        rw [Function.update_of_ne hne, hj]
      · obtain ⟨-, he⟩ | ⟨-, hj⟩ := update_some hj
        · exact absurd (Option.some.inj he).symm hb
        · exact ⟨j, hj⟩
  · obtain ⟨-, he⟩ | ⟨-, hj⟩ := update_some hj
    · exact Option.some.inj he ▸ hrest
    · exact hapart j b hj
  · obtain ⟨rfl, hib⟩ | ⟨-, hib⟩ := update_some hi <;>
      obtain ⟨rfl, hjb⟩ | ⟨-, hjb⟩ := update_some hj
    · rfl
    · exact absurd (Option.some.inj hib ▸ hjb) (hfree j)
    · exact absurd (Option.some.inj hjb ▸ hib) (hfree i)
    · exact hone i j b hib hjb

theorem Owned.release (ho : Owned h owners lost) (hk : owners k = some a) :
    Owned (Function.update h a none) (Function.update owners k none) lost := by
  obtain ⟨rest, hcard, hplaces, hapart, hone⟩ := ho
  refine ⟨rest, hcard, fun b => ?_, fun j b hj => ?_, fun i j b hi hj => ?_⟩
  · by_cases hb : b = a
    · subst hb
      refine iff_of_false (by simp) ?_
      rintro (hmem | ⟨j, hj⟩)
      · exact hapart k b hk hmem
      · obtain ⟨-, he⟩ | ⟨hne, hj⟩ := update_some hj
        · cases he
        · exact hne (hone j k b hj hk)
    · rw [Function.update_of_ne hb, hplaces b]
      refine or_congr_right ⟨fun ⟨j, hj⟩ => ⟨j, ?_⟩, fun ⟨j, hj⟩ => ?_⟩
      · have hne : j ≠ k := fun he => by
          rw [he, hk] at hj
          exact hb (Option.some.inj hj).symm
        rw [Function.update_of_ne hne, hj]
      · obtain ⟨-, he⟩ | ⟨-, hj⟩ := update_some hj
        · cases he
        · exact ⟨j, hj⟩
  · obtain ⟨-, he⟩ | ⟨-, hj⟩ := update_some hj
    · cases he
    · exact hapart j b hj
  · obtain ⟨-, he⟩ | ⟨-, hi⟩ := update_some hi
    · cases he
    · obtain ⟨-, he⟩ | ⟨-, hj⟩ := update_some hj
      · cases he
      · exact hone i j b hi hj

end Owned

end ListServer.Lib.Ownership
