import ListServer.ChainControl

namespace ListServer.ChainPairs

open CarList Message Skeleton ClientThread ChainSystem ChainControl

/-- Server `i + 1` has executed the write and server `i` is about to. -/
def Ahead (s : Chain) (i : Nat) (r : Request) : Prop :=
  (∃ m, ((s.srv (i + 1)).phase .pred).executed = some (r, m)) ∨
    ∃ c, (s.srv i).phase c = .forwarded r 0

section Views

variable {γ : Type} (t : AnoAtual) (view : ListT → γ)

/-- What neighbours agree on: between writes the views of their lists, and
during a write that only the second one has executed, what the write makes of a
list that looks like the first one's. The mark records on which list the second
one executed it. -/
structure Pair (mark : Request → ListT → Prop) (s : Chain) (i : Nat) : Prop where
  ahead : ∀ r, Ahead s i r → ∃ l, view (s.srv i).list = view l ∧
    view (after t r.msg l) = view (s.srv (i + 1)).list ∧ mark r l
  level : (∀ r, ¬ Ahead s i r) → view (s.srv i).list = view (s.srv (i + 1)).list

def Pairs (n : Nat) (mark : Request → ListT → Prop) (s : Chain) : Prop :=
  ∀ i, i + 1 < n → Pair t view mark s i

end Views

variable {γ : Type} {t : AnoAtual} {view : ListT → γ} {n : Nat} {s s' : Chain}
  {mark mark' : Request → ListT → Prop}

theorem pairs_start (n : Nat) (list : ListT) (mark : Request → ListT → Prop) :
    Pairs t view n mark (Chain.start n list) := fun i _ =>
  ⟨fun r h => by simp [Ahead, Chain.start, Server.start, Phase.executed] at h, fun _ => rfl⟩

theorem pair_of_same {i : Nat} (hp : Pair t view mark s i) (hm : ∀ r l, mark r l → mark' r l)
    (hi : view (s'.srv i).list = view (s.srv i).list)
    (hi' : view (s'.srv (i + 1)).list = view (s.srv (i + 1)).list)
    (ha : ∀ r, Ahead s' i r ↔ Ahead s i r) : Pair t view mark' s' i where
  ahead r hr := by
    obtain ⟨l, h1, h2, h3⟩ := hp.ahead r ((ha r).mp hr)
    exact ⟨l, hi.trans h1, h2.trans hi'.symm, hm r l h3⟩
  level hno := by
    rw [hi, hi']
    exact hp.level fun r hr => hno r ((ha r).mpr hr)

/-- The connection from the predecessor and the forwards that have come back
are all that `Ahead` looks at. -/
theorem ahead_congr {i : Nat}
    (he : ((s'.srv (i + 1)).phase .pred).executed = ((s.srv (i + 1)).phase .pred).executed)
    (ho : ∀ d r, (s'.srv i).phase d = .forwarded r 0 ↔ (s.srv i).phase d = .forwarded r 0)
    (r : Request) : Ahead s' i r ↔ Ahead s i r := by
  simp only [Ahead, he, ho]

/-- A server that holds `lock_list` for one thread waits for nobody else. -/
theorem not_executed_of_holds (h : Control n s) {i : Nat} {c : Conn}
    (hc : ((s.srv i).phase c).holdsList = true) (hw : ∀ r, (s.srv i).phase c ≠ .waiting r)
    (r : Request) (m : MessageT) : ((s.srv (i + 1)).phase .pred).executed ≠ some (r, m) := by
  intro he
  obtain ⟨d, hd⟩ := (h.link i r).mp (executed_request he)
  obtain rfl : d = c := h.unique (i := i) (by simp [hd, Phase.holdsList]) hc
  exact hw r hd

theorem not_forwarded_of_holds (h : Control n s) {i : Nat} {c : Conn}
    (hc : ((s.srv i).phase c).holdsList = true) (hf : ∀ r, (s.srv i).phase c ≠ .forwarded r 0)
    (d : Conn) (r : Request) : (s.srv i).phase d ≠ .forwarded r 0 := by
  intro hd
  obtain rfl : d = c := h.unique (i := i) (by simp [hd, Phase.holdsList]) hc
  exact hf r hd

theorem set_list (s : Chain) {i : Nat} {u : Server} (h : u.list = (s.srv i).list) (j : Nat) :
    ((s.set i u).srv j).list = (s.srv j).list :=
  forall_set (P := fun _ v w => v.list = w.list) h (fun _ _ => rfl) j

theorem pairs_own {i : Nat} {a : Act} (hp : Pairs t view n mark s)
    (hs : step n t s (.own i a) = some s') : Pairs t view n mark s' := by
  obtain ⟨ha, u, hu, rfl⟩ := step_own.mp hs
  obtain ⟨hlist, -, hlike⟩ := own_frame ha hu
  have hall := forall_set (s := s) (P := fun _ v w => ∀ d, Like (v.phase d) (w.phase d)) hlike
    (fun _ _ _ => Like.refl _)
  intro j hj
  exact pair_of_same (hp j hj) (fun _ _ h => h) (congrArg view (set_list s hlist j))
    (congrArg view (set_list s hlist (j + 1)))
    (ahead_congr (hall (j + 1) .pred).executed (fun d => (hall j d).ok))

theorem pairs_client {i c : Nat} {p : Phase} (hp : Pairs t view n mark s)
    (hold : ∀ r, (s.srv i).phase (.client c) ≠ .forwarded r 0) (hnew : ∀ r, p ≠ .forwarded r 0) :
    Pairs t view n mark (s.set i ((s.srv i).setPhase (.client c) p)) := by
  intro j hj
  refine pair_of_same (hp j hj) (fun _ _ h => h) (congrArg view (set_list s (by rfl) j))
    (congrArg view (set_list s (by rfl) (j + 1))) (ahead_congr ?_ ?_)
  · exact forall_set (P := fun _ v w => (v.phase .pred).executed = (w.phase .pred).executed)
      (by simp) (fun _ _ => rfl) (j + 1)
  · refine forall_set
      (P := fun _ v w => ∀ d r, v.phase d = .forwarded r 0 ↔ w.phase d = .forwarded r 0) ?_
      (fun _ _ _ _ => Iff.rfl) j
    intro d r
    by_cases hd : d = .client c
    · subst hd
      simp [hold, hnew]
    · simp [hd]

theorem pairs_forward {i : Nat} {c : Conn} (hp : Pairs t view n mark s)
    (hs : step n t s (.forward i c) = some s') : Pairs t view n mark s' := by
  obtain ⟨r, hc, -, hq, rfl⟩ := step_forward.mp hs
  have hlist : ∀ j, (((s.set i ((s.srv i).setPhase c (.waiting r))).set (i + 1)
      ((s.srv (i + 1)).setPhase .pred (.sent r))).srv j).list = (s.srv j).list := fun j =>
    (set_list _ (by simp) j).trans (set_list s (by rfl) j)
  intro j hj
  refine pair_of_same (hp j hj) (fun _ _ h => h) (congrArg view (hlist j))
    (congrArg view (hlist (j + 1))) (ahead_congr ?_ fun d q => ?_)
  · rw [set_set_phase]
    by_cases hji : j = i
    · subst hji
      simp [hq, Phase.executed]
    · by_cases hj1 : j + 1 = i
      · subst hj1
        by_cases hcp : Conn.pred = c
        · subst hcp
          simp [hc, Phase.executed]
        · simp [hcp]
      · simp [hji, hj1]
  · rw [set_set_phase]
    by_cases hj1 : j = i + 1
    · subst hj1
      by_cases hd : d = .pred
      · subst hd
        simp [hq]
      · simp [hd]
    · by_cases hji : j = i
      · subst hji
        by_cases hd : d = c
        · subst hd
          simp [hc]
        · simp [hd]
      · simp [hj1, hji]

theorem pairs_back {i : Nat} {c : Conn} (h : Control n s) (hp : Pairs t view n mark s)
    (hs : step n t s (.back i c) = some s') : Pairs t view n mark s' := by
  obtain ⟨r, r', m, hc, hq, rfl⟩ := step_back.mp hs
  have hlist : ∀ j, (((s.set i { (s.srv i).setPhase c (.forwarded r 0) with rlsLock := none }).set
      (i + 1) ((s.srv (i + 1)).setPhase .pred .idle)).srv j).list = (s.srv j).list := fun j =>
    (set_list _ (by simp) j).trans (set_list s (by rfl) j)
  have hrr : r' = r := by
    obtain ⟨d, hd⟩ := (h.link i r').mp (by simp [hq, Phase.request])
    obtain rfl : d = c := h.unique (i := i) (by simp [hd, Phase.holdsList])
      (by simp [hc, Phase.holdsList])
    simpa using hd.symm.trans hc
  intro j hj
  refine pair_of_same (hp j hj) (fun _ _ h => h) (congrArg view (hlist j))
    (congrArg view (hlist (j + 1))) fun q => ?_
  by_cases hji : j = i
  · -- the reply that was on its way is now the result of the forward
    subst hji
    have hno := not_forwarded_of_holds h (i := j) (c := c) (by simp [hc, Phase.holdsList])
      (by simp [hc])
    simp only [Ahead, set_set_phase, if_true, setPhase_self, Phase.executed, hq, hno]
    constructor
    · rintro (⟨m', hm'⟩ | ⟨d, hd⟩)
      · cases hm'
      · by_cases hdc : d = c
        · subst hdc
          have hrq : r = q := by simpa using hd
          exact .inl ⟨m, by rw [hrr, hrq]⟩
        · exact absurd (by simpa [hdc] using hd) (hno d q)
    · rintro (⟨m', hm'⟩ | ⟨d, hd⟩)
      · have hrq : r' = q := by simpa using congrArg (Option.map Prod.fst) hm'
        exact .inr ⟨c, by simp [← hrr, hrq]⟩
      · exact hd.elim
  · refine ahead_congr ?_ (fun d p => ?_) q
    · rw [set_set_phase]
      by_cases hj1 : j + 1 = i
      · subst hj1
        by_cases hcp : Conn.pred = c
        · subst hcp
          simp [hc, Phase.executed]
        · simp [hcp]
      · simp [hji, hj1]
    · rw [set_set_phase]
      by_cases hj1 : j = i + 1
      · subst hj1
        by_cases hd : d = .pred
        · subst hd
          simp [hq]
        · simp [hd]
      · simp [hj1, hji]

theorem pairs_read {i : Nat} {c : Conn} {r : Request} {p : MessageT × ListT} (h : Control n s)
    (hp : Pairs t view n mark s) (hc : (s.srv i).phase c = .locked r)
    (hr : needsForward r.msg = false) (hv : view p.2 = view (s.srv i).list) :
    Pairs t view n mark
      (s.set i { (s.srv i).setPhase c (.invoked r p.1) with list := p.2 }) := by
  have hcp : Conn.pred ≠ c := by
    rintro rfl
    have hw := h.pred_write (i := i) (r := r) (by simp [hc, Phase.request])
    simp [hr] at hw
  have hview := forall_set (s := s) (i := i) (P := fun _ v w => view v.list = view w.list)
    (u := { (s.srv i).setPhase c (.invoked r p.1) with list := p.2 }) hv (fun _ _ => rfl)
  intro j hj
  refine pair_of_same (hp j hj) (fun _ _ h => h) (hview j) (hview (j + 1)) (ahead_congr ?_ ?_)
  · exact forall_set (P := fun _ v w => (v.phase .pred).executed = (w.phase .pred).executed)
      (by simp [hcp]) (fun _ _ => rfl) (j + 1)
  · refine forall_set
      (P := fun _ v w => ∀ d r, v.phase d = .forwarded r 0 ↔ w.phase d = .forwarded r 0) ?_
      (fun _ _ _ _ => Iff.rfl) j
    intro d q
    by_cases hd : d = c
    · subst hd
      simp [hc]
    · simp [hd]

/-- What a server executes after a successful forward, the next one executed
on a list that looked the same. -/
theorem Pairs.executed {i : Nat} {c : Conn} {r : Request} (hp : Pairs t view n mark s)
    (hi : i + 1 < n) (hc : (s.srv i).phase c = .forwarded r 0) :
    ∃ l, view (s.srv i).list = view l ∧ view (after t r.msg l) = view (s.srv (i + 1)).list ∧
      mark r l := (hp i hi).ahead r (.inr ⟨c, hc⟩)

theorem pairs_write {i : Nat} {c : Conn} {r : Request} {rc : Int} {m : MessageT} (h : Control n s)
    (hp : Pairs t view n mark s) (hc : (s.srv i).phase c = .forwarded r rc)
    (hwrite : ∀ l l', view l = view l' → mark' r l → mark' r l' →
      view (after t r.msg l) = view (after t r.msg l'))
    (hmono : ∀ r l, mark r l → mark' r l) (hexec : mark' r (s.srv i).list) :
    Pairs t view n mark' (s.set i { (s.srv i).setPhase c (.invoked r m) with
      list := after t r.msg (s.srv i).list }) := by
  have hholds : ((s.srv i).phase c).holdsList = true := by simp [hc, Phase.holdsList]
  have hw : needsForward r.msg = true := (h.locks i).writes c r (by simp [hc, Phase.forwards])
  have hother : ∀ d q, d ≠ c → (s.srv i).phase d ≠ .forwarded q 0 := by
    intro d q hd he
    exact hd (h.unique (i := i) (by simp [he, Phase.holdsList]) hholds)
  intro j hj
  by_cases hji : j = i
  · -- the server catches up with its successor
    subst hji
    obtain rfl : rc = 0 := by simpa [hj] using h.code j c r rc hc
    obtain ⟨l, h1, h2, h3⟩ := hp.executed hj hc
    have hview : view (after t r.msg (s.srv j).list) = view (s.srv (j + 1)).list :=
      (hwrite _ l h1 hexec (hmono r l h3)).trans h2
    refine ⟨fun q hq => ?_, fun _ => by simpa using hview⟩
    obtain ⟨m', hm'⟩ | ⟨d, hd⟩ := hq
    · exact absurd (by simpa using hm') (not_executed_of_holds h hholds (by simp [hc]) q m')
    · obtain ⟨hdc, hd⟩ := setPhase_other (by simpa using hd) (by simp)
      exact absurd hd (hother d q hdc)
  · by_cases hj1 : j + 1 = i
    · -- the predecessor is now one write behind
      subst hj1
      obtain rfl : c = .pred := h.write_pred (i := j) (by simp only [hc, Phase.request]) hw
      obtain ⟨d, hd⟩ := (h.link j r).mp (by simp [hc, Phase.request])
      have hbefore : ∀ q, ¬ Ahead s j q := by
        rintro q (⟨m', hm'⟩ | ⟨e, he⟩)
        · simp [hc, Phase.executed] at hm'
        · exact not_forwarded_of_holds h (i := j) (c := d) (by simp [hd, Phase.holdsList])
            (by simp [hd]) e q he
      have hlevel := (hp j hj).level hbefore
      refine ⟨fun q hq => ?_, fun hno => absurd (.inl ⟨m, by simp [Phase.executed]⟩) (hno r)⟩
      obtain ⟨m', hm'⟩ | ⟨e, he⟩ := hq
      · obtain rfl : r = q := by
          simpa [Phase.executed] using congrArg (Option.map Prod.fst) hm'
        exact ⟨(s.srv (j + 1)).list, by simpa [hji] using hlevel, by simp, hexec⟩
      · exact absurd (.inr ⟨e, by simpa [hji] using he⟩) (hbefore q)
    · refine pair_of_same (hp j hj) hmono (by simp [hji]) (by simp [hj1])
        (ahead_congr (by simp [hj1]) (fun d q => by simp [hji]))

/-- Every step of the chain keeps neighbours in agreement, if writes respect
views and every server executes a write on a list that the mark allows. -/
theorem pairs_step {l : Label} (h : Control n s) (hp : Pairs t view n mark s)
    (hread : ∀ msg l, needsForward msg = false → view (after t msg l) = view l)
    (hwrite : ∀ r l l', view l = view l' → mark' r l → mark' r l' →
      view (after t r.msg l) = view (after t r.msg l'))
    (hmono : ∀ r l, mark r l → mark' r l)
    (hexec : ∀ i c r, l = .invoke i c r → needsForward r.msg = true → mark' r (s.srv i).list)
    (hs : step n t s l = some s') : Pairs t view n mark' s' := by
  have weaken : ∀ {u}, Pairs t view n mark u → Pairs t view n mark' u := fun hu i hi =>
    pair_of_same (hu i hi) hmono rfl rfl (fun _ => Iff.rfl)
  cases l with
  | send i c r =>
    obtain ⟨-, -, hc, rfl⟩ := step_send.mp hs
    have hu := pairs_client (i := i) (c := c) (p := .sent r) hp (by simp [hc]) (by simp)
    exact fun j hj => pair_of_same (hu j hj) hmono rfl rfl fun _ => Iff.rfl
  | own i a => exact weaken (pairs_own hp hs)
  | forward i c => exact weaken (pairs_forward hp hs)
  | back i c => exact weaken (pairs_back h hp hs)
  | invoke i c r =>
    obtain ⟨rc, ⟨hc, hr, rfl⟩ | hc, rfl⟩ := step_invoke.mp hs
    · exact weaken (pairs_read h hp hc hr (hread r.msg _ hr))
    · have hw := (h.locks i).writes c r (by simp [hc, Phase.forwards])
      have hserve : afterForward t rc r.msg (s.srv i).list = serve t r.msg (s.srv i).list := by
        obtain hrc := (h.code i c r rc hc).trans (by rfl)
        by_cases hi : i + 1 < n <;> simp [hrc, hi]
      rw [hserve]
      exact pairs_write h hp hc (hwrite r) hmono (hexec i c r rfl hw)
  | answer i c r m =>
    obtain ⟨hc, rfl⟩ := step_answer.mp hs
    exact weaken (pairs_client hp (by simp [hc]) (by simp))

end ListServer.ChainPairs
