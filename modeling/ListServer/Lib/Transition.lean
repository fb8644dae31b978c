import Mathlib.Data.List.Basic

namespace ListServer.Lib.Transition

variable {σ ι : Type} (step : σ → ι → Option σ)

/-- Follow a list of labels; a label that is not enabled ends the attempt. -/
def run : σ → List ι → Option σ
  | s, [] => some s
  | s, l :: ls => (step s l).bind fun t => run t ls

/-- Every step of the run meets the condition, in the state before it. -/
def Meets (G : σ → ι → Prop) : σ → List ι → Prop
  | _, [] => True
  | s, l :: ls => G s l ∧ ∀ t, step s l = some t → Meets G t ls

def Enabled (s : σ) (l : ι) : Prop := ∃ t, step s l = some t

theorem meets_of_append {G : σ → ι → Prop} {s : σ} {ls ms : List ι}
    (h : Meets step G s (ls ++ ms)) : Meets step G s ls := by
  induction ls generalizing s with
  | nil => trivial
  | cons l ls ih => exact ⟨h.1, fun t ht => ih (h.2 t ht)⟩

/-- The invariant rule for a property of the labels so far and the state they
lead to. -/
theorem run_trace_invariant {G : σ → ι → Prop} {I : List ι → σ → Prop}
    (hstep : ∀ ls s l t, I ls s → G s l → step s l = some t → I (ls ++ [l]) t)
    {s t : σ} (pre : List ι) {ls : List ι} (hI : I pre s) (hG : Meets step G s ls)
    (hrun : run step s ls = some t) : I (pre ++ ls) t := by
  induction ls generalizing s pre with
  | nil =>
    obtain rfl : s = t := Option.some.inj hrun
    rwa [List.append_nil]
  | cons l ls ih =>
    obtain ⟨u, hu, hrest⟩ := Option.bind_eq_some_iff.mp hrun
    rw [List.append_cons]
    exact ih (pre ++ [l]) (hstep pre s l u hI hG.1 hu) (hG.2 u hu) hrest

/-- The invariant rule for a property of the state. -/
theorem run_invariant {G : σ → ι → Prop} {I : σ → Prop}
    (hstep : ∀ s l t, I s → G s l → step s l = some t → I t)
    {s t : σ} {ls : List ι} (hI : I s) (hG : Meets step G s ls)
    (hrun : run step s ls = some t) : I t :=
  run_trace_invariant step (I := fun _ => I) (fun _ => hstep) [] hI hG hrun

theorem meets_of_labels {P : ι → Prop} {ls : List ι} (h : ∀ l ∈ ls, P l) (s : σ) :
    Meets step (fun _ => P) s ls := by
  induction ls generalizing s with
  | nil => trivial
  | cons l ls ih =>
    exact ⟨h l List.mem_cons_self, fun t _ => ih (fun l hl => h l (List.mem_cons_of_mem _ hl)) t⟩

theorem run_invariant_of_step {I : σ → Prop} (hstep : ∀ s l t, I s → step s l = some t → I t)
    {s t : σ} {ls : List ι} (hI : I s) (hrun : run step s ls = some t) : I t :=
  run_invariant step (G := fun _ _ => True) (fun s l t hs _ => hstep s l t hs) hI
    (meets_of_labels step (fun _ _ => trivial) s) hrun

theorem reached_invariant {G : σ → ι → Prop} {I : σ → Prop}
    (hstep : ∀ s l t, I s → G s l → step s l = some t → I t) {s : σ} {ls : List ι} (hI : I s)
    (hG : Meets step G s ls) : ∀ ks ms t, ls = ks ++ ms → run step s ks = some t → I t := by
  intro ks ms t he hrun
  rw [he] at hG
  exact run_invariant step hstep hI (meets_of_append step hG) hrun

/-- A condition that follows from another one and an invariant. -/
theorem meets_of_invariant {G H : σ → ι → Prop} {I : σ → Prop}
    (hstep : ∀ s l t, I s → G s l → step s l = some t → I t)
    (hmeets : ∀ s l t, I s → step s l = some t → H s l) {s t : σ} {ls : List ι} (hI : I s)
    (hG : Meets step G s ls) (hrun : run step s ls = some t) : Meets step H s ls := by
  induction ls generalizing s with
  | nil => trivial
  | cons l ls ih =>
    obtain ⟨u, hu, hrest⟩ := Option.bind_eq_some_iff.mp hrun
    refine ⟨hmeets s l u hI hu, fun v hv => ?_⟩
    obtain rfl : u = v := Option.some.inj (hu.symm.trans hv)
    exact ih (hstep s l u hI hG.1 hu) (hG.2 u hu) hrest

/-- Where a step keeps the property exactly when it meets the condition, all
states that a run reaches have the property exactly when all its steps meet the
condition. -/
theorem reached_iff_meets_of_run {G : σ → ι → Prop} {I : σ → Prop}
    (hstep : ∀ s l t, I s → step s l = some t → (I t ↔ G s l)) {s u : σ} {ls : List ι} (hI : I s)
    (hrun : run step s ls = some u) :
    (∀ ks ms t, ls = ks ++ ms → run step s ks = some t → I t) ↔ Meets step G s ls := by
  induction ls generalizing s with
  | nil =>
    refine ⟨fun _ => trivial, fun _ ks ms t he ht => ?_⟩
    obtain ⟨rfl, rfl⟩ := List.append_eq_nil_iff.mp he.symm
    obtain rfl : s = t := Option.some.inj ht
    exact hI
  | cons l ls ih =>
    obtain ⟨v, hv, hrest⟩ := Option.bind_eq_some_iff.mp hrun
    have hcons : ∀ ks, run step s (l :: ks) = run step v ks := fun ks => by simp [run, hv]
    constructor
    · intro h
      have hIv : I v := h [l] ls v rfl (by rw [hcons]; rfl)
      refine ⟨(hstep s l v hI hv).mp hIv, fun t ht => ?_⟩
      obtain rfl : v = t := Option.some.inj (hv.symm.trans ht)
      refine (ih hIv hrest).mp fun ks ms t he ht => h (l :: ks) ms t (by rw [he]; rfl) ?_
      rw [hcons, ht]
    · intro h ks ms t he ht
      cases ks with
      | nil =>
        obtain rfl : s = t := Option.some.inj ht
        exact hI
      | cons k ks =>
        obtain ⟨rfl, hks⟩ := List.cons_eq_cons.mp he
        have hIv : I v := (hstep s l v hI hv).mpr h.1
        exact (ih hIv hrest).mpr (h.2 v hv) ks ms t hks (hcons ks ▸ ht)

theorem reached_iff_meets_of_invariant {G : σ → ι → Prop} {J I : σ → Prop}
    (hinv : ∀ s l t, J s → step s l = some t → J t)
    (hstep : ∀ s l t, J s → I s → step s l = some t → (I t ↔ G s l)) {s u : σ} {ls : List ι}
    (hJ : J s) (hI : I s) (hrun : run step s ls = some u) :
    (∀ ks ms t, ls = ks ++ ms → run step s ks = some t → I t) ↔ Meets step G s ls := by
  have hreach : ∀ ks t, run step s ks = some t → J t := fun _ _ =>
    run_invariant_of_step step hinv hJ
  have hiff := reached_iff_meets_of_run step (I := fun s => J s ∧ I s) (G := G)
    (fun s l t hs ht => (and_iff_right (hinv s l t hs.1 ht)).trans (hstep s l t hs.1 hs.2 ht))
    ⟨hJ, hI⟩ hrun
  rw [← hiff]
  exact ⟨fun h ks ms t he ht => ⟨hreach ks t ht, h ks ms t he ht⟩,
    fun h ks ms t he ht => (h ks ms t he ht).2⟩

theorem exists_run (htotal : ∀ s l, Enabled step s l) (s : σ) (ls : List ι) :
    ∃ t, run step s ls = some t := by
  induction ls generalizing s with
  | nil => exact ⟨s, rfl⟩
  | cons l ls ih =>
    obtain ⟨u, hu⟩ := htotal s l
    obtain ⟨t, ht⟩ := ih u
    exact ⟨t, by simp [run, hu, ht]⟩

theorem reached_iff_meets {G : σ → ι → Prop} {I : σ → Prop} (htotal : ∀ s l, Enabled step s l)
    (hstep : ∀ s l t, I s → step s l = some t → (I t ↔ G s l)) {s : σ} (hI : I s) (ls : List ι) :
    (∀ ks ms t, ls = ks ++ ms → run step s ks = some t → I t) ↔ Meets step G s ls := by
  obtain ⟨u, hu⟩ := exists_run step htotal s ls
  exact reached_iff_meets_of_run step hstep hI hu

def Reaches (P : ι → Prop) (s t : σ) : Prop :=
  ∃ ls : List ι, (∀ l ∈ ls, P l) ∧ run step s ls = some t

theorem run_append (s : σ) (ls ms : List ι) :
    run step s (ls ++ ms) = (run step s ls).bind fun t => run step t ms := by
  induction ls generalizing s with
  | nil => rfl
  | cons l ls ih =>
    rw [List.cons_append, run, run, Option.bind_assoc]
    exact Option.bind_congr fun t _ => ih t

theorem run_single {s t : σ} {l : ι} (h : step s l = some t) : run step s [l] = some t := by
  rw [run, h]
  rfl

section Reaches

variable {step} {P : ι → Prop} {s t u : σ}

theorem Reaches.refl (s : σ) : Reaches step P s s := ⟨[], nofun, rfl⟩

theorem Reaches.single {l : ι} (hs : step s l = some t) (hl : P l) : Reaches step P s t :=
  ⟨[l], fun k hk => List.mem_singleton.mp hk ▸ hl, by simp [run, hs]⟩

theorem Reaches.trans (h : Reaches step P s t) (h' : Reaches step P t u) :
    Reaches step P s u := by
  obtain ⟨ls, hls, hrun⟩ := h
  obtain ⟨ms, hms, hrun'⟩ := h'
  refine ⟨ls ++ ms, fun l hl => ?_, ?_⟩
  · obtain hl | hl := List.mem_append.mp hl
    · exact hls l hl
    · exact hms l hl
  · rw [run_append, hrun]
    exact hrun'

theorem Reaches.head {l : ι} (hs : step s l = some t) (hl : P l) (h : Reaches step P t u) :
    Reaches step P s u := (Reaches.single hs hl).trans h

theorem Reaches.invariant {I : σ → Prop} (hstep : ∀ s l t, I s → P l → step s l = some t → I t)
    (h : Reaches step P s t) (hI : I s) : I t := by
  obtain ⟨ls, hls, hrun⟩ := h
  exact run_invariant step (G := fun _ => P) hstep hI (meets_of_labels step hls s) hrun

end Reaches

instance decidableMeets {G : σ → ι → Prop} [∀ s l, Decidable (G s l)] :
    ∀ s ls, Decidable (Meets step G s ls)
  | _, [] => isTrue trivial
  | s, l :: ls =>
    match h : step s l with
    | none => decidable_of_iff (G s l) ⟨fun hg => ⟨hg, fun t ht => by simp [h] at ht⟩, And.left⟩
    | some u =>
      have := decidableMeets (G := G) u ls
      decidable_of_iff (G s l ∧ Meets step G u ls)
        ⟨fun hg => ⟨hg.1, fun t ht => Option.some.inj (h.symm.trans ht) ▸ hg.2⟩,
          fun hg => ⟨hg.1, hg.2 u h⟩⟩

end ListServer.Lib.Transition
