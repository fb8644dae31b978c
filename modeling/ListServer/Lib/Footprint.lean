import ListServer.Lib.Memory
import Mathlib.Data.Finset.Card

namespace ListServer.Lib.Footprint

open Pointer Loop Memory

variable {α β : Type}

section Results

variable {ε : Type} {b : β}

theorem bind_eq_ok {x : Except ε α} {f : α → Except ε β} :
    x >>= f = .ok b ↔ ∃ a, x = .ok a ∧ f a = .ok b := by
  cases x with
  | error e => exact ⟨nofun, nofun⟩
  | ok a => exact ⟨fun h => ⟨a, rfl, h⟩, fun ⟨_, ha, h⟩ => Except.ok.inj ha ▸ h⟩

theorem map_eq_ok {x : Except ε α} {f : α → β} : x.map f = .ok b ↔ ∃ a, x = .ok a ∧ f a = b := by
  cases x with
  | error e => exact ⟨nofun, nofun⟩
  | ok a =>
    exact ⟨fun h => ⟨a, rfl, Except.ok.inj h⟩, fun ⟨_, ha, h⟩ => congrArg _ (Except.ok.inj ha ▸ h)⟩

end Results

/-- The heap has `k` objects. -/
def Holds (h : Heap α) (k : Nat) : Prop :=
  ∃ places : Finset Nat, (∀ a, h a ≠ none ↔ a ∈ places) ∧ places.card = k

section Holds

variable {h h' : Heap α} {k : Nat} {a : Nat}

theorem holds_empty : Holds (fun _ => none : Heap α) 0 := ⟨∅, by simp, rfl⟩

theorem Holds.eq_none (hk : Holds h 0) (a : Nat) : h a = none := by
  obtain ⟨places, hplaces, hcard⟩ := hk
  obtain rfl := Finset.card_eq_zero.mp hcard
  exact not_not.mp fun ha => absurd ((hplaces a).mp ha) (Finset.notMem_empty a)

theorem holds_store_new (hk : Holds h k) (ha : h a = none) (x : α) :
    Holds (store h a x) (k + 1) := by
  obtain ⟨places, hplaces, rfl⟩ := hk
  have hnew : a ∉ places := fun hmem => (hplaces a).mpr hmem ha
  refine ⟨insert a places, fun b => ?_, Finset.card_insert_of_notMem hnew⟩
  by_cases hb : b = a
  · subst hb
    simp
  · rw [store_of_ne hb, hplaces b, Finset.mem_insert, or_iff_right hb]

theorem holds_store (hk : Holds h k) {y : α} (ha : h a = some y) (x : α) :
    Holds (store h a x) k := by
  obtain ⟨places, hplaces, rfl⟩ := hk
  refine ⟨places, fun b => ?_, rfl⟩
  by_cases hb : b = a
  · subst hb
    rw [← hplaces b, store_self, ha]
    simp
  · rw [store_of_ne hb, hplaces b]

theorem load_eq_ok {p : Option Nat} {x : α} (hx : load h p = .ok x) :
    ∃ a, p = some a ∧ h a = some x := by
  cases p with
  | none => cases hx
  | some a =>
    refine ⟨a, rfl, ?_⟩
    cases ha : h a with
    | none =>
      simp [load, deref, Except.bind, ha] at hx
    | some y =>
      rw [load_some ha] at hx
      rw [Except.ok.inj hx]

theorem holds_modify (hk : Holds h k) {p : Option Nat} {f : α → α}
    (hm : Memory.modify h p f = .ok h') : Holds h' k := by
  cases p with
  | none => cases hm
  | some a =>
    obtain ⟨x, hx, rfl⟩ := map_eq_ok.mp hm
    obtain ⟨b, hb, ha⟩ := load_eq_ok hx
    obtain rfl := Option.some.inj hb
    exact holds_store hk ha (f x)

theorem holds_erase (hk : Holds h (k + 1)) {x : α} (ha : h a = some x) :
    Holds (Function.update h a none) k := by
  obtain ⟨places, hplaces, hcard⟩ := hk
  have hmem : a ∈ places := (hplaces a).mp (by simp [ha])
  refine ⟨places.erase a, fun b => ?_, by rw [Finset.card_erase_of_mem hmem, hcard]; rfl⟩
  by_cases hb : b = a
  · subst hb
    simp
  · rw [Function.update_of_ne hb, hplaces b, Finset.mem_erase, and_iff_right hb]

theorem free_eq_ok (hf : free h (some a) = .ok h') :
    (∃ x, h a = some x) ∧ h' = Function.update h a none := by
  obtain ⟨x, hx, rfl⟩ := map_eq_ok.mp hf
  obtain ⟨b, hb, ha⟩ := load_eq_ok hx
  obtain rfl := Option.some.inj hb
  exact ⟨⟨x, ha⟩, rfl⟩

end Holds

def Every (Q : α → Prop) (h : Heap α) : Prop := ∀ a x, h a = some x → Q x

section Every

variable {Q : α → Prop} {h h' : Heap α}

theorem every_store (he : Every Q h) {x : α} (hx : Q x) (a : Nat) : Every Q (store h a x) := by
  intro b y hb
  by_cases hba : b = a
  · subst hba
    rw [store_self] at hb
    exact Option.some.inj hb ▸ hx
  · rw [store_of_ne hba] at hb
    exact he b y hb

theorem every_modify (he : Every Q h) {p : Option Nat} {f : α → α} (hf : ∀ x, Q x → Q (f x))
    (hm : Memory.modify h p f = .ok h') : Every Q h' := by
  cases p with
  | none => cases hm
  | some a =>
    obtain ⟨x, hx, rfl⟩ := map_eq_ok.mp hm
    obtain ⟨b, hb, ha⟩ := load_eq_ok hx
    exact every_store he (hf x (he b x ha)) a

theorem every_free (he : Every Q h) {p : Option Nat} (hf : free h p = .ok h') : Every Q h' := by
  cases p with
  | none => exact Except.ok.inj hf ▸ he
  | some a =>
    obtain ⟨-, rfl⟩ := free_eq_ok hf
    intro b y hb
    by_cases hba : b = a
    · subst hba
      rw [Function.update_self] at hb
      cases hb
    · rw [Function.update_of_ne hba] at hb
      exact he b y hb

end Every

section Programs

variable {a : α} {b : β}

theorem run_bind_eq_ok {x : Prog α} {f : α → Prog β} :
    (x >>= f).run = some (.ok b) ↔ ∃ a, x.run = some (.ok a) ∧ (f a).run = some (.ok b) := by
  rw [ExceptT.run_bind]
  constructor
  · intro h
    obtain ⟨r, hx, hr⟩ := Option.bind_eq_some_iff.mp h
    cases r with
    | error e => cases hr
    | ok a => exact ⟨a, hx, hr⟩
  · rintro ⟨a, hx, hf⟩
    exact Option.bind_eq_some_iff.mpr ⟨.ok a, hx, hf⟩

theorem run_pure_eq_ok {a' : α} : (pure a : Prog α).run = some (.ok a') ↔ a = a' := by
  rw [ExceptT.run_pure]
  exact Option.some_inj.trans ⟨Except.ok.inj, congrArg Except.ok⟩

theorem run_access_eq_ok {r : Except Fault α} : (access r).run = some (.ok a) ↔ r = .ok a := by
  simp [access, ExceptT.run, ExceptT.mk]

/-- What a program gives whose first part gives `a`, the second part gives then. -/
theorem gives_of_bind {f : Nat → Prog α} {g : Nat → α → Prog β} {r : Except Fault β}
    (hf : Gives (fun n => (f n).run) (.ok a)) (h : Gives (fun n => (f n >>= g n).run) r) :
    Gives (fun n => (g n a).run) r := by
  obtain ⟨n, hn⟩ := hf
  obtain ⟨m, hm⟩ := h
  refine ⟨max n m, fun i hi => ?_⟩
  have hfirst : (f i).run = some (.ok a) := hn i (by omega)
  have hrun : (f i >>= g i).run = some r := hm i (by omega)
  rw [ExceptT.run_bind, hfirst] at hrun
  exact hrun

theorem gives_of_map {f : Nat → Prog α} {g : α → β} (hg : Function.Injective g)
    (h : Gives (fun n => (f n >>= fun a => pure (g a)).run) (.ok b)) :
    ∃ a, Gives (fun n => (f n).run) (.ok a) ∧ g a = b := by
  obtain ⟨n, hn⟩ := h
  obtain ⟨a, -, ha⟩ := run_bind_eq_ok.mp (hn n (Nat.le_refl n))
  refine ⟨a, ⟨n, fun m hm => ?_⟩, run_pure_eq_ok.mp ha⟩
  obtain ⟨a', hfirst, ha'⟩ := run_bind_eq_ok.mp (hn m hm)
  obtain rfl := hg ((run_pure_eq_ok.mp ha').trans (run_pure_eq_ok.mp ha).symm)
  exact hfirst

end Programs

end ListServer.Lib.Footprint
