import Mathlib.Algebra.Order.Group.Multiset

namespace ListServer.Lib.Difference

variable {α : Type} [DecidableEq α]

def distance (s t : Multiset α) : Nat := (s - t).card + (t - s).card

/-- A change of a multiset by one element at most. -/
inductive Edit (α : Type)
  | keep
  | insert (a : α)
  | erase (a : α)
deriving DecidableEq

def Edit.apply : Edit α → Multiset α → Multiset α
  | .keep, s => s
  | .insert a, s => a ::ₘ s
  | .erase a, s => s.erase a

def applyAll (es : List (Edit α)) (s : Multiset α) : Multiset α :=
  es.foldl (fun s e => e.apply s) s

section Distance

variable {s t : Multiset α} {e f : Edit α}

theorem distance_comm (s t : Multiset α) : distance s t = distance t s := Nat.add_comm _ _

theorem erase_sub_erase_le (a : α) (s t : Multiset α) : s.erase a - t.erase a ≤ s - t := by
  refine Multiset.le_iff_count.mpr fun b => ?_
  rw [Multiset.count_sub, Multiset.count_sub]
  by_cases hb : b = a
  · subst hb
    rw [Multiset.count_erase_self, Multiset.count_erase_self]
    omega
  · rw [Multiset.count_erase_of_ne hb, Multiset.count_erase_of_ne hb]

theorem distance_same (e : Edit α) (s t : Multiset α) :
    distance (e.apply s) (e.apply t) ≤ distance s t := by
  cases e with
  | keep => exact le_refl _
  | insert a =>
    rw [Edit.apply, Edit.apply, distance, distance, ← Multiset.singleton_add a s,
      ← Multiset.singleton_add a t, add_tsub_add_eq_tsub_left, add_tsub_add_eq_tsub_left]
  | erase a =>
    exact Nat.add_le_add (Multiset.card_le_card (erase_sub_erase_le a s t))
      (Multiset.card_le_card (erase_sub_erase_le a t s))

theorem distance_left (e : Edit α) (s t : Multiset α) :
    distance (e.apply s) t ≤ distance s t + 1 := by
  cases e with
  | keep => exact Nat.le_succ _
  | insert a =>
    have hmore : (a ::ₘ s) - t ≤ a ::ₘ (s - t) := by
      refine Multiset.le_iff_count.mpr fun b => ?_
      rw [Multiset.count_sub, Multiset.count_cons, Multiset.count_cons, Multiset.count_sub]
      omega
    have hless : t - (a ::ₘ s) ≤ t - s := tsub_le_tsub_left (Multiset.le_cons_self s a) t
    have hcard := Nat.add_le_add (Multiset.card_le_card hmore) (Multiset.card_le_card hless)
    rw [Multiset.card_cons] at hcard
    rw [Edit.apply, distance, distance]
    omega
  | erase a =>
    have hless : s.erase a - t ≤ s - t := tsub_le_tsub_right (Multiset.erase_le a s) t
    have hmore : t - s.erase a ≤ a ::ₘ (t - s) := by
      refine Multiset.le_iff_count.mpr fun b => ?_
      rw [Multiset.count_sub, Multiset.count_cons, Multiset.count_sub]
      by_cases hb : b = a
      · subst hb
        rw [Multiset.count_erase_self, if_pos rfl]
        omega
      · rw [Multiset.count_erase_of_ne hb]
        omega
    have hcard := Nat.add_le_add (Multiset.card_le_card hless) (Multiset.card_le_card hmore)
    rw [Multiset.card_cons] at hcard
    rw [Edit.apply, distance, distance]
    omega

theorem distance_apply (h : e = f ∨ e = .keep ∨ f = .keep) (s t : Multiset α) :
    distance (e.apply s) (f.apply t) ≤ distance s t + if e = f then 0 else 1 := by
  by_cases hef : e = f
  · subst hef
    rw [if_pos rfl]
    exact distance_same e s t
  · rw [if_neg hef]
    obtain rfl | rfl := h.resolve_left hef
    · rw [distance_comm, distance_comm s]
      exact distance_left f t s
    · exact distance_left e s t

/-- Two runs of changes bring at most as many elements apart as there are
places at which they differ. -/
theorem distance_applyAll {ι : Type} (e f : ι → Edit α)
    (h : ∀ i, e i = f i ∨ e i = .keep ∨ f i = .keep) (is : List ι) (s t : Multiset α) :
    distance (applyAll (is.map e) s) (applyAll (is.map f) t) ≤
      distance s t + is.countP fun i => decide (e i ≠ f i) := by
  induction is generalizing s t with
  | nil => exact le_refl _
  | cons i is ih =>
    have hone := distance_apply (h i) s t
    have hrest := ih ((e i).apply s) ((f i).apply t)
    rw [List.map_cons, List.map_cons, List.countP_cons]
    refine hrest.trans ?_
    by_cases hef : e i = f i
    · rw [if_pos hef] at hone
      simp only [hef, ne_eq, not_true_eq_false, decide_false, Bool.false_eq_true, if_false]
        at hone ⊢
      omega
    · rw [if_neg hef] at hone
      simp only [ne_eq, hef, not_false_eq_true, decide_true, if_true]
      omega

end Distance

end ListServer.Lib.Difference
