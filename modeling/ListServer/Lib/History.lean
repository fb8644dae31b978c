import Mathlib.Data.List.Induction
import Mathlib.Data.List.Nodup

namespace ListServer.Lib.History

variable {σ Q A : Type}

/-- What clients see: request number `k` is sent, request number `k` is answered. -/
inductive Event (Q A : Type)
  | sent (k : Nat) (q : Q)
  | answered (k : Nat) (a : A)

/-- The answers of one sequential object to numbered requests, and its last state. -/
def replay (apply : Q → σ → A × σ) : σ → List (Nat × Q) → List (Nat × A) × σ
  | s, [] => ([], s)
  | s, (k, q) :: rest =>
    let (as, t) := replay apply (apply q s).2 rest
    ((k, (apply q s).1) :: as, t)

/-- Request `j` was answered before request `k` was sent. -/
def Precedes (h : List (Event Q A)) (j k : Nat) : Prop :=
  ∃ h₁ h₂, h = h₁ ++ h₂ ∧ (∃ a, .answered j a ∈ h₁) ∧ ∃ q, .sent k q ∈ h₂

/-- An order of requests, among them all the answered ones, that respects
precedence in time and in which the sequential object gives every answer of
the history. -/
structure Linearization (apply : Q → σ → A × σ) (init : σ) (h : List (Event Q A))
    (order : List (Nat × Q)) : Prop where
  once : (order.map Prod.fst).Nodup
  sent : ∀ k q, (k, q) ∈ order → .sent k q ∈ h
  answered : ∀ k a, .answered k a ∈ h → (k, a) ∈ (replay apply init order).1
  precedes : ∀ j k, Precedes h j k → k ∈ order.map Prod.fst →
    ∃ o₁ o₂, order = o₁ ++ o₂ ∧ j ∈ o₁.map Prod.fst ∧ k ∈ o₂.map Prod.fst

/-- The history with the linearization points put in. -/
inductive Act (Q A : Type)
  | sent (k : Nat) (q : Q)
  | point (k : Nat) (q : Q)
  | answered (k : Nat) (a : A)

def history : List (Act Q A) → List (Event Q A)
  | [] => []
  | .sent k q :: tr => .sent k q :: history tr
  | .point _ _ :: tr => history tr
  | .answered k a :: tr => .answered k a :: history tr

def points : List (Act Q A) → List (Nat × Q)
  | [] => []
  | .point k q :: tr => (k, q) :: points tr
  | .sent _ _ :: tr => points tr
  | .answered _ _ :: tr => points tr

/-- Every request gets at most one point, after it is sent, and is answered as
the sequential object answers it at that point. -/
inductive Placed (apply : Q → σ → A × σ) (init : σ) : List (Act Q A) → Prop
  | nil : Placed apply init []
  | sent {tr k q} : Placed apply init tr → (∀ q', .sent k q' ∉ tr) →
      Placed apply init (tr ++ [.sent k q])
  | point {tr k q} : Placed apply init tr → .sent k q ∈ tr → k ∉ (points tr).map Prod.fst →
      Placed apply init (tr ++ [.point k q])
  | answered {tr k a} : Placed apply init tr → (k, a) ∈ (replay apply init (points tr)).1 →
      Placed apply init (tr ++ [.answered k a])

@[simp] theorem history_append (tr us : List (Act Q A)) :
    history (tr ++ us) = history tr ++ history us := by
  induction tr with
  | nil => rfl
  | cons a tr ih => cases a <;> simp [history, ih]

@[simp] theorem points_append (tr us : List (Act Q A)) :
    points (tr ++ us) = points tr ++ points us := by
  induction tr with
  | nil => rfl
  | cons a tr ih => cases a <;> simp [points, ih]

theorem mem_history_sent {tr : List (Act Q A)} {k : Nat} {q : Q} :
    .sent k q ∈ history tr ↔ .sent k q ∈ tr := by
  induction tr with
  | nil => simp [history]
  | cons a tr ih => cases a <;> simp [history, ih]

theorem mem_history_answered {tr : List (Act Q A)} {k : Nat} {a : A} :
    .answered k a ∈ history tr ↔ .answered k a ∈ tr := by
  induction tr with
  | nil => simp [history]
  | cons b tr ih => cases b <;> simp [history, ih]

theorem mem_points {tr : List (Act Q A)} {k : Nat} {q : Q} :
    (k, q) ∈ points tr ↔ .point k q ∈ tr := by
  induction tr with
  | nil => simp [points]
  | cons a tr ih => cases a <;> simp [points, ih]

theorem replay_append (apply : Q → σ → A × σ) (s : σ) (xs ys : List (Nat × Q)) :
    replay apply s (xs ++ ys) =
      ((replay apply s xs).1 ++ (replay apply (replay apply s xs).2 ys).1,
        (replay apply (replay apply s xs).2 ys).2) := by
  induction xs generalizing s with
  | nil => rfl
  | cons x xs ih => simp only [List.cons_append, replay, ih]

theorem replay_fst (apply : Q → σ → A × σ) (s : σ) (xs : List (Nat × Q)) :
    (replay apply s xs).1.map Prod.fst = xs.map Prod.fst := by
  induction xs generalizing s with
  | nil => rfl
  | cons x xs ih => simp only [replay, List.map_cons, ih]

variable {apply : Q → σ → A × σ} {init : σ}

theorem placed_of_append {tr us : List (Act Q A)} (h : Placed apply init (tr ++ us)) :
    Placed apply init tr := by
  induction us using List.reverseRecOn with
  | nil => rwa [List.append_nil] at h
  | append_singleton us a ih =>
    rw [← List.append_assoc] at h
    generalize hw : tr ++ us ++ [a] = w at h
    cases h with
    | nil => simp at hw
    | sent hp _ | point hp _ _ | answered hp _ => exact ih ((List.append_inj' hw rfl).1 ▸ hp)

theorem placed_points {tr : List (Act Q A)} (h : Placed apply init tr) :
    ((points tr).map Prod.fst).Nodup ∧ ∀ k q, (k, q) ∈ points tr → .sent k q ∈ tr := by
  induction h with
  | nil => exact ⟨List.nodup_nil, fun _ _ h => by simp [points] at h⟩
  | sent _ _ ih =>
    refine ⟨by simpa [points] using ih.1, fun k q hm => ?_⟩
    exact List.mem_append_left _ (ih.2 k q (by simpa [points] using hm))
  | answered _ _ ih =>
    refine ⟨by simpa [points] using ih.1, fun k q hm => ?_⟩
    exact List.mem_append_left _ (ih.2 k q (by simpa [points] using hm))
  | @point tr j r _ hs hn ih =>
    constructor
    · simp only [points_append, List.map_append, points, List.map_cons, List.map_nil]
      exact List.Nodup.append ih.1 (List.nodup_singleton j) (List.disjoint_singleton.mpr hn)
    · intro k q hm
      rw [points_append] at hm
      obtain hm | hm := List.mem_append.mp hm
      · exact List.mem_append_left _ (ih.2 k q hm)
      · obtain ⟨rfl, rfl⟩ : k = j ∧ q = r := by simpa [points] using hm
        exact List.mem_append_left _ hs

theorem placed_answered {tr : List (Act Q A)} (h : Placed apply init tr) {k : Nat} {a : A}
    (ha : .answered k a ∈ tr) : (k, a) ∈ (replay apply init (points tr)).1 := by
  induction h with
  | nil => simp at ha
  | sent _ _ ih => simpa [points] using ih (by simpa using ha)
  | point _ _ _ ih =>
    rw [points_append, replay_append]
    exact List.mem_append_left _ (ih (by simpa using ha))
  | answered _ hr ih =>
    rw [points_append, replay_append]
    obtain hm | hm := List.mem_append.mp ha
    · exact List.mem_append_left _ (ih hm)
    · obtain ⟨rfl, rfl⟩ : k = _ ∧ a = _ := by simpa using hm
      exact List.mem_append_left _ hr

theorem placed_sent_once {tr us : List (Act Q A)} (h : Placed apply init (tr ++ us)) {k : Nat}
    {q : Q} (hs : .sent k q ∈ us) (q' : Q) : .sent k q' ∉ tr := by
  induction us using List.reverseRecOn with
  | nil => simp at hs
  | append_singleton us a ih =>
    rw [← List.append_assoc] at h
    obtain hm | hm := List.mem_append.mp hs
    · exact ih (placed_of_append h) hm
    · obtain rfl : Act.sent k q = a := List.mem_singleton.mp hm
      generalize hw : tr ++ us ++ [Act.sent k q] = w at h
      cases h with
      | nil => simp at hw
      | sent hp hn =>
        obtain ⟨rfl, he⟩ := List.append_inj' hw rfl
        injection he with he
        injection he with hk
        exact fun hm => hn q' (hk ▸ List.mem_append_left us hm)
      | point _ _ _ | answered _ _ => cases (List.append_inj' hw rfl).2

theorem placed_sent_unique {tr : List (Act Q A)} (h : Placed apply init tr) {k : Nat} {q q' : Q}
    (hq : .sent k q ∈ tr) (hq' : .sent k q' ∈ tr) : q = q' := by
  induction h with
  | nil => cases hq
  | @sent tr j p _ hnew ih =>
    simp only [List.mem_append, List.mem_singleton, Act.sent.injEq] at hq hq'
    obtain hq | ⟨rfl, rfl⟩ := hq <;> obtain hq' | ⟨hk, rfl⟩ := hq'
    · exact ih hq hq'
    · exact absurd (hk ▸ hq) (hnew q)
    · exact absurd hq' (hnew q')
    · rfl
  | point _ _ _ ih | answered _ _ ih => exact ih (by simpa using hq) (by simpa using hq')

theorem history_split {tr : List (Act Q A)} {h₁ h₂ : List (Event Q A)}
    (h : history tr = h₁ ++ h₂) :
    ∃ t₁ t₂, tr = t₁ ++ t₂ ∧ history t₁ = h₁ ∧ history t₂ = h₂ := by
  induction tr generalizing h₁ with
  | nil =>
    obtain ⟨rfl, rfl⟩ := List.append_eq_nil_iff.mp h.symm
    exact ⟨[], [], rfl, rfl, rfl⟩
  | cons a tr ih =>
    cases h₁ with
    | nil => exact ⟨[], a :: tr, rfl, rfl, h⟩
    | cons e h₁ =>
      cases a with
      | point k q =>
        obtain ⟨t₁, t₂, rfl, ht₁, ht₂⟩ := ih h
        exact ⟨.point k q :: t₁, t₂, rfl, ht₁, ht₂⟩
      | sent k q | answered k q =>
        obtain ⟨rfl, hr⟩ := List.cons_eq_cons.mp h
        obtain ⟨t₁, t₂, rfl, ht₁, ht₂⟩ := ih hr
        exact ⟨_ :: t₁, t₂, rfl, by rw [history, ht₁], ht₂⟩

/-- The linearization-point rule. -/
theorem Placed.linearization {tr : List (Act Q A)} (h : Placed apply init tr) :
    Linearization apply init (history tr) (points tr) := by
  obtain ⟨hnodup, hsent⟩ := placed_points h
  refine ⟨hnodup, fun k q hm => mem_history_sent.mpr (hsent k q hm),
    fun k a ha => placed_answered h (mem_history_answered.mp ha), ?_⟩
  rintro j k ⟨h₁, h₂, hh, ⟨a, ha⟩, q, hq⟩ hk
  obtain ⟨t₁, t₂, rfl, rfl, rfl⟩ := history_split hh
  have hp := placed_of_append h
  have hj : j ∈ (points t₁).map Prod.fst := by
    rw [← replay_fst apply init]
    exact List.mem_map.mpr ⟨_, placed_answered hp (mem_history_answered.mp ha), rfl⟩
  have hnot : k ∉ (points t₁).map Prod.fst := by
    intro hm
    obtain ⟨⟨i, r⟩, hr, rfl⟩ := List.mem_map.mp hm
    exact placed_sent_once h (mem_history_sent.mp hq) r ((placed_points hp).2 i r hr)
  rw [points_append, List.map_append] at hk
  exact ⟨points t₁, points t₂, points_append t₁ t₂, hj, (List.mem_append.mp hk).resolve_left hnot⟩

end ListServer.Lib.History
