import Mathlib.Data.List.Sort

namespace ListServer.Lib.Neighbour

variable {α β : Type} [LinearOrder β] {key : α → β} {S : List α}

/-- The element that follows `x` in the order of the keys. -/
structure Next (key : α → β) (S : List α) (x y : α) : Prop where
  mem : y ∈ S
  lt : key x < key y
  least : ∀ z ∈ S, key x < key z → key y ≤ key z

structure Previous (key : α → β) (S : List α) (x y : α) : Prop where
  mem : y ∈ S
  lt : key y < key x
  greatest : ∀ z ∈ S, key z < key x → key z ≤ key y

theorem next_iff_previous {x y : α} (hx : x ∈ S) (hy : y ∈ S) :
    Next key S x y ↔ Previous key S y x := by
  constructor
  · intro h
    refine ⟨hx, h.lt, fun z hz hzy => ?_⟩
    by_contra hxz
    exact absurd (h.least z hz (not_le.mp hxz)) (not_le.mpr hzy)
  · intro h
    refine ⟨hy, h.lt, fun z hz hxz => ?_⟩
    by_contra hyz
    exact absurd (h.greatest z hz (not_le.mp hyz)) (not_le.mpr hxz)

/-- A function that finds the next element whenever there is one. -/
structure Successor (key : α → β) (S : List α) (succ : α → Option α) : Prop where
  found : ∀ x ∈ S, ∀ y, succ x = some y → Next key S x y
  last : ∀ x ∈ S, succ x = none → ∀ z ∈ S, ¬ key x < key z

structure Predecessor (key : α → β) (S : List α) (pred : α → Option α) : Prop where
  found : ∀ x ∈ S, ∀ y, pred x = some y → Previous key S x y
  first : ∀ x ∈ S, pred x = none → ∀ z ∈ S, ¬ key z < key x

variable {succ pred : α → Option α}

theorem Successor.eq_some (h : Successor key S succ) (hinj : Set.InjOn key {x | x ∈ S}) {x y : α}
    (hx : x ∈ S) : succ x = some y ↔ Next key S x y := by
  refine ⟨h.found x hx y, fun hy => ?_⟩
  cases hs : succ x with
  | none => exact absurd hy.lt (h.last x hx hs y hy.mem)
  | some z =>
    have hz := h.found x hx z hs
    have hle := le_antisymm (hz.least y hy.mem hy.lt) (hy.least z hz.mem hz.lt)
    rw [hinj hz.mem hy.mem hle]

theorem Successor.eq_none (h : Successor key S succ) {x : α} (hx : x ∈ S) :
    succ x = none ↔ ∀ z ∈ S, key z ≤ key x := by
  constructor
  · exact fun hs z hz => not_lt.mp (h.last x hx hs z hz)
  · intro hle
    refine Option.eq_none_iff_forall_ne_some.mpr fun y hs => ?_
    have hy := h.found x hx y hs
    exact absurd hy.lt (not_lt.mpr (hle y hy.mem))

/-- The order turned around: a predecessor is a successor. -/
theorem previous_iff_next_dual {x y : α} :
    Previous key S x y ↔ Next (OrderDual.toDual ∘ key) S x y :=
  ⟨fun h => ⟨h.mem, h.lt, h.greatest⟩, fun h => ⟨h.mem, h.lt, h.least⟩⟩

theorem Predecessor.dual (h : Predecessor key S pred) :
    Successor (OrderDual.toDual ∘ key) S pred where
  found x hx y hs := previous_iff_next_dual.mp (h.found x hx y hs)
  last x hx hs := h.first x hx hs

theorem Predecessor.eq_some (h : Predecessor key S pred) (hinj : Set.InjOn key {x | x ∈ S})
    {x y : α} (hx : x ∈ S) : pred x = some y ↔ Previous key S x y := by
  have hdual := OrderDual.toDual.injective.comp_injOn hinj
  rw [previous_iff_next_dual]
  exact h.dual.eq_some hdual hx

theorem Predecessor.eq_none (h : Predecessor key S pred) {x : α} (hx : x ∈ S) :
    pred x = none ↔ ∀ z ∈ S, key x ≤ key z :=
  h.dual.eq_none hx

/-- Follow `succ` for at most the given number of steps. -/
def walk (succ : α → Option α) : Nat → α → List α
  | 0, x => [x]
  | k + 1, x => x :: (succ x).elim [] (walk succ k)

/-- In a sorted list, the element behind `x` follows `x`. -/
theorem next_of_sorted {l m : List α} {x y : α} (hS : ∀ z, z ∈ S ↔ z ∈ l ++ x :: y :: m)
    (hl : (l ++ x :: y :: m).Pairwise fun y z => key y < key z) : Next key S x y := by
  obtain ⟨-, hxm, hlx⟩ := List.pairwise_append.mp hl
  obtain ⟨hxm, hm⟩ := List.pairwise_cons.mp hxm
  refine ⟨(hS y).mpr (by simp), hxm y List.mem_cons_self, fun z hz hlt => ?_⟩
  have hz := (hS z).mp hz
  simp only [List.mem_append, List.mem_cons] at hz
  obtain hz | rfl | rfl | hz := hz
  · exact absurd hlt (not_lt.mpr (hlx z hz x List.mem_cons_self).le)
  · exact absurd hlt (lt_irrefl _)
  · exact le_refl _
  · exact ((List.pairwise_cons.mp hm).1 z hz).le

theorem walk_sorted (h : Successor key S succ) (hinj : Set.InjOn key {x | x ∈ S}) {l m : List α}
    {x : α} (hS : ∀ y, y ∈ S ↔ y ∈ l ++ x :: m)
    (hl : (l ++ x :: m).Pairwise fun y z => key y < key z) {k : Nat} (hk : m.length ≤ k) :
    walk succ k x = x :: m := by
  have hx : x ∈ S := (hS x).mpr (by simp)
  induction m generalizing l x k with
  | nil =>
    have hnone : succ x = none := by
      refine (h.eq_none hx).mpr fun z hz => ?_
      have hz : z ∈ l ∨ z = x := by simpa using (hS z).mp hz
      obtain hz | rfl := hz
      · exact ((List.pairwise_append.mp hl).2.2 z hz x List.mem_cons_self).le
      · exact le_refl _
    cases k <;> simp [walk, hnone]
  | cons y m ih =>
    have hy : succ x = some y := (h.eq_some hinj hx).mpr (next_of_sorted hS hl)
    have happ : l ++ x :: y :: m = (l ++ [x]) ++ y :: m := by simp
    cases k with
    | zero => simp at hk
    | succ k =>
      have hw := ih (l := l ++ [x]) (x := y) (by rwa [happ] at hS) (by rwa [happ] at hl)
        (Nat.le_of_succ_le_succ hk) ((hS y).mpr (by simp))
      rw [walk, hy, Option.elim, hw]

theorem exists_sorted (hinj : Set.InjOn key {x | x ∈ S}) (hnodup : S.Nodup) :
    ∃ l : List α, l.Perm S ∧ l.Pairwise fun y z => key y < key z := by
  have hperm := List.mergeSort_perm S fun y z => decide (key y ≤ key z)
  have hsorted := @List.pairwise_mergeSort α (fun y z => decide (key y ≤ key z))
    (fun a b c hab hbc => by simpa using le_trans (of_decide_eq_true hab) (of_decide_eq_true hbc))
    (fun a b => by simpa using le_total (key a) (key b)) S
  refine ⟨_, hperm, (hsorted.and (hperm.nodup_iff.mpr hnodup)).imp_of_mem ?_⟩
  intro y z hy hz hyz
  exact lt_of_le_of_ne (of_decide_eq_true hyz.1)
    fun he => hyz.2 (hinj (hperm.mem_iff.mp hy) (hperm.mem_iff.mp hz) he)

theorem walk_from_least (h : Successor key S succ) (hinj : Set.InjOn key {x | x ∈ S})
    (hnodup : S.Nodup) {x : α} (hx : x ∈ S) (hleast : ∀ z ∈ S, key x ≤ key z) {k : Nat}
    (hk : S.length ≤ k) :
    (walk succ k x).Perm S ∧ (walk succ k x).Pairwise fun y z => key y < key z := by
  obtain ⟨l, hperm, hl⟩ := exists_sorted hinj hnodup
  cases l with
  | nil => exact absurd (hperm.mem_iff.mpr hx) List.not_mem_nil
  | cons y m =>
    have hy : y ∈ S := hperm.mem_iff.mp List.mem_cons_self
    have hxy : x = y := by
      obtain rfl | hm := List.mem_cons.mp (hperm.mem_iff.mpr hx)
      · rfl
      · exact absurd (hleast y hy) (not_le.mpr ((List.pairwise_cons.mp hl).1 x hm))
    have hlen := hperm.length_eq
    rw [List.length_cons] at hlen
    rw [hxy, walk_sorted h hinj (l := []) (fun z => hperm.mem_iff.symm) hl (by omega)]
    exact ⟨hperm, hl⟩

theorem last_of_sorted {l : List α} (hperm : l.Perm S)
    (hl : l.Pairwise fun y z => key y < key z) {x : α} (hx : x ∈ S)
    (hgreatest : ∀ z ∈ S, key z ≤ key x) : l.getLast? = some x := by
  have hmem := hperm.mem_iff.mpr hx
  obtain rfl | ⟨m, y, rfl⟩ := List.eq_nil_or_concat' l
  · exact absurd hmem List.not_mem_nil
  · rw [List.getLast?_concat]
    have hy : y ∈ S := hperm.mem_iff.mp (by simp)
    obtain hm | hm := List.mem_append.mp hmem
    · have hlt := (List.pairwise_append.mp hl).2.2 x hm y (by simp)
      exact absurd (hgreatest y hy) (not_le.mpr hlt)
    · rw [List.mem_singleton.mp hm]

end ListServer.Lib.Neighbour
