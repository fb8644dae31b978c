import Mathlib.Data.List.Basic
import Mathlib.Order.RelClasses

namespace ListServer.Lib.Scan

variable {α β : Type}

/-- One pass over an array that keeps the best number met so far and where it
was. Elements without a number are skipped. -/
def scan (num : α → Option β) (take : β → β → Bool) : List α → Nat → β × Option Nat → β × Option Nat
  | [], _, acc => acc
  | x :: xs, i, acc =>
    match num x with
    | none => scan num take xs (i + 1) acc
    | some n => scan num take xs (i + 1) (if take n acc.1 then (n, some i) else acc)

/-- The element that a pass from a sentinel ends with. -/
def pick (num : α → Option β) (take : β → β → Bool) (sentinel : β) (xs : List α) : Option α :=
  (scan num take xs 0 (sentinel, none)).2.bind fun i => xs[i]?

section Spec

variable {num : α → Option β} {p : β → Prop} {r : β → β → Prop} {xs : List α}

/-- In `xs` the candidate `x` stands between `l` and `m`: it beats every
candidate before it, and no candidate behind it beats it. -/
structure Between (num : α → Option β) (p : β → Prop) (r : β → β → Prop) (xs l : List α) (x : α)
    (m : List α) (n : β) : Prop where
  split : xs = l ++ x :: m
  number : num x = some n
  candidate : p n
  before : ∀ y ∈ l, ∀ k, num y = some k → p k → r n k
  behind : ∀ y ∈ m, ∀ k, num y = some k → p k → ¬ r k n

def Best (num : α → Option β) (p : β → Prop) (r : β → β → Prop) (xs : List α) (x : α) (n : β) :
    Prop := ∃ l m, Between num p r xs l x m n

/-- What counts for a pass: the numbers that qualify and beat its sentinel. -/
def Counts (p : β → Prop) (r : β → β → Prop) (sentinel n : β) : Prop := p n ∧ r n sentinel

/-- What the pass has kept after the elements `xs`. -/
inductive Kept (num : α → Option β) (p : β → Prop) (r : β → β → Prop) (sentinel : β)
    (xs : List α) : β × Option Nat → Prop
  | none : (∀ y ∈ xs, ∀ k, num y = some k → ¬ Counts p r sentinel k) →
      Kept num p r sentinel xs (sentinel, none)
  | some {l m : List α} {x : α} {n : β} : Between num (Counts p r sentinel) r xs l x m n →
      Kept num p r sentinel xs (n, some l.length)

theorem Between.append {l m : List α} {x y : α} {n : β} (h : Between num p r xs l x m n)
    (hy : ∀ k, num y = some k → p k → ¬ r k n) : Between num p r (xs ++ [y]) l x (m ++ [y]) n where
  split := by simp [h.split]
  number := h.number
  candidate := h.candidate
  before := h.before
  behind z hz k hk hp := by
    obtain hz | rfl : z ∈ m ∨ z = y := by simpa using hz
    · exact h.behind z hz k hk hp
    · exact hy k hk hp

theorem Best.mem {x : α} {n : β} (h : Best num p r xs x n) : x ∈ xs := by
  obtain ⟨l, m, h⟩ := h
  simp [h.split]

theorem kept_skip {sentinel : β} {acc : β × Option Nat} (h : Kept num p r sentinel xs acc) {x : α}
    (hx : num x = none) : Kept num p r sentinel (xs ++ [x]) acc := by
  have hno : ∀ k, num x ≠ some k := by simp [hx]
  cases h with
  | none h =>
    refine .none fun y hy k hk => ?_
    obtain hy | rfl : y ∈ xs ∨ y = x := by simpa using hy
    · exact h y hy k hk
    · exact absurd hk (hno k)
  | some hb => exact .some (hb.append fun k hk => absurd hk (hno k))

variable [IsStrictTotalOrder β r]

theorem Between.eq_or_rel {l m : List α} {x y : α} {n k : β} (h : Between num p r xs l x m n)
    (hy : y ∈ xs) (hk : num y = some k) (hp : p k) : n = k ∨ r n k := by
  have hy : y ∈ l ∨ y = x ∨ y ∈ m := by simpa [h.split] using hy
  obtain hy | rfl | hy := hy
  · exact .inr (h.before y hy k hk hp)
  · exact .inl (Option.some.inj (h.number.symm.trans hk))
  · obtain hr | he | hr := trichotomous_of r n k
    · exact .inr hr
    · exact .inl he
    · exact absurd hr (h.behind y hy k hk hp)

theorem Best.eq_or_rel {x y : α} {n k : β} (h : Best num p r xs x n) (hy : y ∈ xs)
    (hk : num y = some k) (hp : p k) : n = k ∨ r n k := by
  obtain ⟨l, m, h⟩ := h
  exact h.eq_or_rel hy hk hp

theorem Best.unique {x y : α} {n k : β} (hx : Best num p r xs x n) (hy : Best num p r xs y k) :
    x = y := by
  obtain ⟨l, m, hb⟩ := hx
  obtain ⟨l', m', hb'⟩ := hy
  have hnk : ¬ r n k ∧ ¬ r k n := by
    obtain he | hr := hb.eq_or_rel (by simp [hb'.split]) hb'.number hb'.candidate
    · exact he ▸ ⟨irrefl n, irrefl n⟩
    · obtain he | hr' := hb'.eq_or_rel (by simp [hb.split]) hb.number hb.candidate
      · exact he ▸ ⟨irrefl k, irrefl k⟩
      · exact absurd (trans_of r hr hr') (irrefl n)
  obtain ⟨c, rfl, hc⟩ | ⟨c, rfl, hc⟩ := List.append_eq_append_iff.mp (hb.split.symm.trans hb'.split)
  · cases c with
    | nil => exact (List.cons_eq_cons.mp hc).1
    | cons z c =>
      obtain ⟨rfl, -⟩ := List.cons_eq_cons.mp hc
      exact absurd (hb'.before x (by simp) n hb.number hb.candidate) hnk.2
  · cases c with
    | nil => exact (List.cons_eq_cons.mp hc).1.symm
    | cons z c =>
      obtain ⟨rfl, -⟩ := List.cons_eq_cons.mp hc
      exact absurd (hb.before y (by simp) k hb'.number hb'.candidate) hnk.1

variable [DecidablePred p] [DecidableRel r] {sentinel : β}

theorem kept_append {acc : β × Option Nat} (h : Kept num p r sentinel xs acc) {x : α} {n : β}
    (hx : num x = some n) :
    Kept num p r sentinel (xs ++ [x])
      (if decide (p n) && decide (r n acc.1) then (n, some xs.length) else acc) := by
  have hnum : ∀ k, num x = some k → k = n := fun k hk => Option.some.inj (hk.symm.trans hx)
  cases h with
  | none hno =>
    by_cases hp : p n ∧ r n sentinel
    · simp only [hp.1, hp.2, decide_true, Bool.and_self, if_true]
      exact .some ⟨rfl, hx, hp, fun y hy k hk hpk => absurd hpk (hno y hy k hk), by simp⟩
    · have hf : (decide (p n) && decide (r n sentinel)) = false := by simpa using hp
      simp only [hf, Bool.false_eq_true, if_false]
      refine .none fun y hy k hk => ?_
      obtain hy | rfl : y ∈ xs ∨ y = x := by simpa using hy
      · exact hno y hy k hk
      · rwa [hnum k hk]
  | @some l m z k hb =>
    by_cases hp : p n ∧ r n k
    · simp only [hp.1, hp.2, decide_true, Bool.and_self, if_true]
      have hc : Counts p r sentinel n := ⟨hp.1, trans_of r hp.2 hb.candidate.2⟩
      refine .some ⟨rfl, hx, hc, fun y hy j hj hpj => ?_, by simp⟩
      obtain rfl | hr := hb.eq_or_rel hy hj hpj
      · exact hp.2
      · exact trans_of r hp.2 hr
    · have hf : (decide (p n) && decide (r n k)) = false := by simpa using hp
      simp only [hf, Bool.false_eq_true, if_false]
      exact .some (hb.append fun j hj hpj hr => hp (hnum j hj ▸ ⟨hpj.1, hr⟩))

/-- The loop invariant holds to the end of the pass. -/
theorem scan_kept {ys : List α} {acc : β × Option Nat} (h : Kept num p r sentinel xs acc) :
    Kept num p r sentinel (xs ++ ys)
      (scan num (fun n best => decide (p n) && decide (r n best)) ys xs.length acc) := by
  induction ys generalizing xs acc with
  | nil => simpa [scan] using h
  | cons y ys ih =>
    have hlen : (xs ++ [y]).length = xs.length + 1 := by simp
    cases hy : num y with
    | none =>
      have hk := ih (kept_skip h hy)
      rw [hlen, List.append_assoc] at hk
      simpa [scan, hy] using hk
    | some n =>
      have hk := ih (kept_append h hy)
      rw [hlen, List.append_assoc] at hk
      simpa [scan, hy] using hk

/-- The pass finds the first best candidate, if there is one. -/
theorem pick_spec (num : α → Option β) (p : β → Prop) [DecidablePred p] (r : β → β → Prop)
    [DecidableRel r] [IsStrictTotalOrder β r] (sentinel : β) (xs : List α) :
    match pick num (fun n best => decide (p n) && decide (r n best)) sentinel xs with
    | none => ∀ y ∈ xs, ∀ k, num y = some k → ¬ Counts p r sentinel k
    | some x => ∃ n, Best num (Counts p r sentinel) r xs x n := by
  have h : Kept num p r sentinel xs
      (scan num (fun n best => decide (p n) && decide (r n best)) xs 0 (sentinel, none)) :=
    scan_kept (.none fun y hy => absurd hy List.not_mem_nil)
  simp only [pick]
  generalize scan num (fun n best => decide (p n) && decide (r n best)) xs 0 (sentinel, none) = acc
    at h
  cases h with
  | none hno => exact hno
  | @some l m x n hb =>
    have hx : xs[l.length]? = some x := by simp [hb.split]
    simpa [hx] using ⟨n, l, m, hb⟩

theorem pick_eq_some (num : α → Option β) (p : β → Prop) [DecidablePred p] (r : β → β → Prop)
    [DecidableRel r] [IsStrictTotalOrder β r] (sentinel : β) (xs : List α) {x : α} :
    pick num (fun n best => decide (p n) && decide (r n best)) sentinel xs = some x ↔
      ∃ n, Best num (Counts p r sentinel) r xs x n := by
  have h := pick_spec num p r sentinel xs
  generalize pick num (fun n best => decide (p n) && decide (r n best)) sentinel xs = o at h
  cases o with
  | none =>
    refine ⟨nofun, fun ⟨n, hn⟩ => ?_⟩
    obtain ⟨l, m, hb⟩ := id hn
    exact absurd hb.candidate (h x hn.mem n hb.number)
  | some y =>
    obtain ⟨k, hk⟩ := h
    constructor
    · intro he
      exact ⟨k, Option.some.inj he ▸ hk⟩
    · intro ⟨n, hn⟩
      rw [hk.unique hn]

theorem pick_eq_none (num : α → Option β) (p : β → Prop) [DecidablePred p] (r : β → β → Prop)
    [DecidableRel r] [IsStrictTotalOrder β r] (sentinel : β) (xs : List α) :
    pick num (fun n best => decide (p n) && decide (r n best)) sentinel xs = none ↔
      ∀ y ∈ xs, ∀ k, num y = some k → ¬ Counts p r sentinel k := by
  have h := pick_spec num p r sentinel xs
  generalize pick num (fun n best => decide (p n) && decide (r n best)) sentinel xs = o at h
  cases o with
  | none => simpa using h
  | some y =>
    obtain ⟨k, hk⟩ := h
    obtain ⟨l, m, hb⟩ := id hk
    simp only [reduceCtorEq, false_iff]
    exact fun hno => hno y hk.mem k hb.number hb.candidate

end Spec

end ListServer.Lib.Scan
