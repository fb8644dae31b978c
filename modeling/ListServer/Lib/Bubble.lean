import Mathlib.Data.List.Basic
import Mathlib.Order.Lattice

namespace ListServer.Lib.Bubble

variable {α β : Type} [LinearOrder β] (key : α → β)

/-- The inner loop from an element on: it carries the larger of two neighbours
to the right and tells whether it has swapped anything. -/
def carry : α → List α → List α × Bool
  | cur, [] => ([cur], false)
  | cur, next :: rest =>
    if key next < key cur then (next :: (carry cur rest).1, true)
    else (cur :: (carry next rest).1, (carry next rest).2)

def pass : List α → List α × Bool
  | [] => ([], false)
  | a :: l => carry key a l

/-- `do pass while (swapped)`, for at most the given number of passes. -/
def loop : Nat → List α → List α
  | 0, l => l
  | k + 1, l => if (pass key l).2 then loop k (pass key l).1 else (pass key l).1

def sort (l : List α) : List α := loop key (max l.length 1) l

theorem carry_perm (a : α) (l : List α) : (carry key a l).1.Perm (a :: l) := by
  induction l generalizing a with
  | nil => rfl
  | cons b l ih =>
    by_cases h : key b < key a
    · simpa only [carry, if_pos h] using ((ih a).cons b).trans (List.Perm.swap a b l)
    · simpa only [carry, if_neg h] using (ih b).cons a

theorem pass_perm (l : List α) : (pass key l).1.Perm l := by
  cases l with
  | nil => rfl
  | cons a l => exact carry_perm key a l

theorem loop_perm (k : Nat) (l : List α) : (loop key k l).Perm l := by
  induction k generalizing l with
  | zero => rfl
  | succ k ih =>
    by_cases h : (pass key l).2
    · simpa only [loop, if_pos h] using (ih _).trans (pass_perm key l)
    · simpa only [loop, if_neg h] using pass_perm key l

theorem sort_perm (l : List α) : (sort key l).Perm l := loop_perm key _ l

abbrev Sorted (l : List α) : Prop := l.Pairwise (fun a b => key a ≤ key b)

theorem carry_of_sorted {a : α} {l : List α} (h : Sorted key (a :: l)) :
    carry key a l = (a :: l, false) := by
  induction l generalizing a with
  | nil => rfl
  | cons b l ih =>
    have hab : ¬ key b < key a := not_lt.mpr ((List.pairwise_cons.mp h).1 b (by simp))
    simp [carry, hab, ih (List.pairwise_cons.mp h).2]

theorem carry_no_swap {a : α} {l : List α} (h : (carry key a l).2 = false) :
    (carry key a l).1 = a :: l ∧ Sorted key (a :: l) := by
  induction l generalizing a with
  | nil => exact ⟨rfl, by simp⟩
  | cons b l ih =>
    by_cases hba : key b < key a
    · simp [carry, hba] at h
    · simp only [carry, if_neg hba] at h ⊢
      obtain ⟨he, hs⟩ := ih h
      refine ⟨by rw [he], List.pairwise_cons.mpr ⟨fun c hc => ?_, hs⟩⟩
      obtain rfl | hc := List.mem_cons.mp hc
      · exact not_lt.mp hba
      · exact (not_lt.mp hba).trans ((List.pairwise_cons.mp hs).1 c hc)

theorem pass_no_swap {l : List α} (h : (pass key l).2 = false) :
    (pass key l).1 = l ∧ Sorted key l := by
  cases l with
  | nil => exact ⟨rfl, .nil⟩
  | cons a l => exact carry_no_swap key h

theorem carry_append {a : α} {front suffix : List α} (hs : Sorted key suffix)
    (hle : ∀ x ∈ a :: front, ∀ y ∈ suffix, key x ≤ key y) :
    carry key a (front ++ suffix) = ((carry key a front).1 ++ suffix, (carry key a front).2) := by
  induction front generalizing a with
  | nil =>
    rw [List.nil_append, carry_of_sorted key (List.pairwise_cons.mpr ⟨hle a (by simp), hs⟩)]
    rfl
  | cons b front ih =>
    have ha := ih (a := a) (fun x hx => hle x (by
      obtain rfl | hx := List.mem_cons.mp hx <;> simp_all))
    have hb := ih (a := b) (fun x hx => hle x (List.mem_cons_of_mem a hx))
    by_cases h : key b < key a
    · simp [carry, h, ha]
    · simp [carry, h, hb]

theorem carry_greatest (a : α) (l : List α) :
    ∃ front m, (carry key a l).1 = front ++ [m] ∧ ∀ x ∈ a :: l, key x ≤ key m := by
  induction l generalizing a with
  | nil => exact ⟨[], a, rfl, by simp⟩
  | cons b l ih =>
    by_cases h : key b < key a
    · obtain ⟨front, m, he, hm⟩ := ih a
      have ham : key a ≤ key m := hm a (by simp)
      refine ⟨b :: front, m, by simp [carry, h, he], ?_⟩
      simp only [List.mem_cons, forall_eq_or_imp] at hm ⊢
      exact ⟨ham, h.le.trans ham, hm.2⟩
    · obtain ⟨front, m, he, hm⟩ := ih b
      refine ⟨a :: front, m, by simp [carry, h, he], ?_⟩
      simp only [List.mem_cons, forall_eq_or_imp] at hm ⊢
      exact ⟨(not_lt.mp h).trans hm.1, hm⟩

/-- All but the first `k` elements are in their final places. -/
def Settled (k : Nat) (l : List α) : Prop :=
  ∃ front suffix, l = front ++ suffix ∧ front.length ≤ k ∧ Sorted key suffix ∧
    ∀ x ∈ front, ∀ y ∈ suffix, key x ≤ key y

theorem settled_length (l : List α) : Settled key l.length l :=
  ⟨l, [], by simp, le_rfl, .nil, by simp⟩

theorem settled_pass {k : Nat} {l : List α} (h : Settled key (k + 1) l) :
    Settled key k (pass key l).1 := by
  obtain ⟨front, suffix, rfl, hk, hs, hle⟩ := h
  cases front with
  | nil =>
    refine ⟨[], suffix, ?_, Nat.zero_le k, hs, by simp⟩
    cases suffix with
    | nil => rfl
    | cons a l => simp [pass, carry_of_sorted key hs]
  | cons a front =>
    obtain ⟨rest, m, he, hm⟩ := carry_greatest key a front
    have hp := carry_perm key a front
    rw [he] at hp
    have hmem : ∀ x ∈ rest ++ [m], ∀ y ∈ suffix, key x ≤ key y :=
      fun x hx => hle x (hp.mem_iff.mp hx)
    refine ⟨rest, m :: suffix, ?_, ?_, ?_, ?_⟩
    · simp only [List.cons_append, pass, carry_append key hs hle, he, List.append_assoc,
        List.nil_append]
    · have hl := hp.length_eq
      simp only [List.length_append, List.length_cons, List.length_nil] at hl hk
      omega
    · exact List.pairwise_cons.mpr ⟨hmem m (by simp), hs⟩
    · intro x hx y hy
      obtain rfl | hy := List.mem_cons.mp hy
      · exact hm x (hp.mem_iff.mp (by simp [hx]))
      · exact hmem x (by simp [hx]) y hy

theorem sorted_of_settled {l : List α} (h : Settled key 1 l) : Sorted key l := by
  obtain ⟨front, suffix, rfl, hk, hs, hle⟩ := h
  match front, hk, hle with
  | [], _, _ => exact hs
  | [a], _, hle => exact List.pairwise_cons.mpr ⟨hle a (by simp), hs⟩

theorem two_le_of_swap {k : Nat} {l : List α} (hl : Settled key k l)
    (hp : (pass key l).2 = true) : 2 ≤ k := by
  by_contra hlt
  have h1 : Settled key 1 l := by
    obtain ⟨front, suffix, h0, h1, h2⟩ := hl
    exact ⟨front, suffix, h0, by omega, h2⟩
  have hsl := sorted_of_settled key h1
  cases l with
  | nil => simp [pass] at hp
  | cons a l => simp [pass, carry_of_sorted key hsl] at hp

/-- Enough passes for the unsettled part leave a sorted list: the loop is
never cut short. -/
theorem loop_sorted {k fuel : Nat} {l : List α} (hl : Settled key k l) (hk : k ≤ fuel)
    (hf : 1 ≤ fuel) : Sorted key (loop key fuel l) := by
  induction fuel generalizing k l with
  | zero => omega
  | succ fuel ih =>
    cases hp : (pass key l).2 with
    | false =>
      obtain ⟨he, hs⟩ := pass_no_swap key hp
      simpa [loop, hp, he] using hs
    | true =>
      have hk2 := two_le_of_swap key hl hp
      obtain ⟨j, rfl⟩ : ∃ j, k = j + 1 := ⟨k - 1, by omega⟩
      simpa [loop, hp] using ih (settled_pass key hl) (by omega) (by omega)

theorem sort_sorted (l : List α) : Sorted key (sort key l) :=
  loop_sorted key (settled_length key l) (le_max_left _ _) (le_max_right _ _)

theorem pass_of_sorted {l : List α} (h : Sorted key l) : pass key l = (l, false) := by
  cases l with
  | nil => rfl
  | cons a l => exact carry_of_sorted key h

theorem sort_eq_self_iff {l : List α} : sort key l = l ↔ Sorted key l := by
  constructor
  · intro h
    have hs := sort_sorted key l
    rwa [h] at hs
  · intro h
    obtain ⟨n, hn⟩ : ∃ n, max l.length 1 = n + 1 := ⟨max l.length 1 - 1, by omega⟩
    rw [sort, hn, loop, pass_of_sorted key h]
    rfl

section Map

variable {γ : Type} (f : γ → α)

theorem carry_map (c : γ) (l : List γ) : (carry (key ∘ f) c l).1.map f = (carry key (f c) (l.map f)).1 ∧
    (carry (key ∘ f) c l).2 = (carry key (f c) (l.map f)).2 := by
  induction l generalizing c with
  | nil => exact ⟨rfl, rfl⟩
  | cons d l ih =>
    by_cases h : key (f d) < key (f c)
    · simp [carry, h, (ih c).1]
    · simp [carry, h, ih d]

theorem loop_map (k : Nat) (l : List γ) :
    (loop (key ∘ f) k l).map f = loop key k (l.map f) := by
  induction k generalizing l with
  | zero => rfl
  | succ k ih =>
    have hpass : (pass (key ∘ f) l).1.map f = (pass key (l.map f)).1 ∧
        (pass (key ∘ f) l).2 = (pass key (l.map f)).2 := by
      cases l with
      | nil => exact ⟨rfl, rfl⟩
      | cons c l => exact carry_map key f c l
    rw [loop, loop, ← hpass.2]
    split
    · rw [ih, hpass.1]
    · exact hpass.1

theorem sort_map (l : List γ) : (sort (key ∘ f) l).map f = sort key (l.map f) := by
  rw [sort, loop_map, sort, List.length_map]

end Map

def ofKey (b : β) (l : List α) : List α := l.filter fun x => decide (key x = b)

/-- A swap never moves two elements of the same key past each other. -/
theorem carry_ofKey (b : β) (a : α) (l : List α) :
    ofKey key b (carry key a l).1 = ofKey key b (a :: l) := by
  induction l generalizing a with
  | nil => rfl
  | cons c l ih =>
    simp only [ofKey, List.filter_cons] at ih ⊢
    by_cases h : key c < key a
    · simp only [carry, if_pos h, List.filter_cons, ih]
      by_cases ha : key a = b <;> by_cases hc : key c = b <;> simp_all
    · simp only [carry, if_neg h, List.filter_cons, ih]

theorem pass_ofKey (b : β) (l : List α) : ofKey key b (pass key l).1 = ofKey key b l := by
  cases l with
  | nil => rfl
  | cons a l => exact carry_ofKey key b a l

theorem loop_ofKey (b : β) (k : Nat) (l : List α) : ofKey key b (loop key k l) = ofKey key b l := by
  induction k generalizing l with
  | zero => rfl
  | succ k ih =>
    by_cases h : (pass key l).2
    · rw [loop, if_pos h, ih, pass_ofKey]
    · rw [loop, if_neg h, pass_ofKey]

/-- A sorted arrangement that keeps the order of the elements of every key. -/
structure IsStableSort (l l' : List α) : Prop where
  perm : l'.Perm l
  sorted : Sorted key l'
  stable : ∀ b, ofKey key b l' = ofKey key b l

theorem sort_isStableSort (l : List α) : IsStableSort key l (sort key l) :=
  ⟨sort_perm key l, sort_sorted key l, fun b => loop_ofKey key b _ l⟩

end ListServer.Lib.Bubble
