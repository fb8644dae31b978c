import ListServer.ChainSystem

namespace ListServer.ChainControl

open CarList Message Skeleton ClientThread ChainSystem

/-- Two places of a thread that nobody outside its server can tell apart. -/
structure Like (p q : Phase) : Prop where
  request : p.request = q.request
  executed : p.executed = q.executed
  waiting : ∀ r, p = .waiting r ↔ q = .waiting r
  ok : ∀ r, p = .forwarded r 0 ↔ q = .forwarded r 0

theorem Like.refl (p : Phase) : Like p p := ⟨rfl, rfl, fun _ => Iff.rfl, fun _ => Iff.rfl⟩

theorem like_setPhase {s : Server} {c : Conn} {p : Phase} (h : Like p (s.phase c)) (d : Conn) :
    Like ((s.setPhase c p).phase d) (s.phase d) := by
  by_cases hd : d = c
  · subst hd
    simpa using h
  · simpa [hd] using Like.refl (s.phase d)

theorem own_frame {t : AnoAtual} {s s' : Server} {a : Act} (ha : isOwn a = true)
    (h : s.step t a = some s') :
    s'.list = s.list ∧ s'.next = s.next ∧ ∀ d, Like (s'.phase d) (s.phase d) := by
  cases a with
  | receive c =>
    obtain ⟨r, hp, rfl⟩ := step_receive.mp h
    exact ⟨rfl, rfl, like_setPhase ⟨by simp [hp, Phase.request], by simp [hp, Phase.executed],
      by simp [hp], by simp [hp]⟩⟩
  | lock c =>
    obtain ⟨r, hp, -, rfl⟩ := step_lock.mp h
    exact ⟨rfl, rfl, like_setPhase ⟨by simp [hp, Phase.request], by simp [hp, Phase.executed],
      by simp [hp], by simp [hp]⟩⟩
  | link c =>
    obtain ⟨r, hp, -, -, rfl⟩ := step_link.mp h
    exact ⟨rfl, rfl, like_setPhase ⟨by simp [hp, Phase.request], by simp [hp, Phase.executed],
      by simp [hp], by simp [hp]⟩⟩
  | alone c =>
    obtain ⟨r, hp, -, rfl⟩ := step_alone.mp h
    exact ⟨rfl, rfl, like_setPhase ⟨by simp [hp, Phase.request], by simp [hp, Phase.executed],
      by simp [hp], by simp [hp]⟩⟩
  | release c =>
    obtain ⟨r, m, hp, rfl⟩ := step_release.mp h
    exact ⟨rfl, rfl, like_setPhase ⟨by simp [hp, Phase.request], by simp [hp, Phase.executed],
      by simp [hp], by simp [hp]⟩⟩
  | reply c =>
    obtain ⟨r, m, hp, rfl⟩ := step_reply.mp h
    exact ⟨rfl, rfl, like_setPhase ⟨by simp [hp, Phase.request], by simp [hp, Phase.executed],
      by simp [hp], by simp [hp]⟩⟩
  | deliver | forward | back | invoke | take => simp [isOwn] at ha

/-- A server decides alone that its forward is over only without a successor. -/
theorem own_code {t : AnoAtual} {s s' : Server} {a : Act} (ha : isOwn a = true)
    (h : s.step t a = some s') {d : Conn} {r : Request} {rc : Int}
    (hd : s'.phase d = .forwarded r rc) :
    s.phase d = .forwarded r rc ∨ (rc = -2 ∧ s.next = false) := by
  cases a with
  | receive c =>
    obtain ⟨_, -, rfl⟩ := step_receive.mp h
    exact .inl (setPhase_other hd (by simp)).2
  | lock c =>
    obtain ⟨_, -, -, rfl⟩ := step_lock.mp h
    exact .inl (setPhase_other hd (by simp)).2
  | link c =>
    obtain ⟨_, -, -, -, rfl⟩ := step_link.mp h
    exact .inl (setPhase_other hd (by simp)).2
  | alone c =>
    obtain ⟨q, -, hn, rfl⟩ := step_alone.mp h
    by_cases hrc : rc = -2
    · exact .inr ⟨hrc, hn⟩
    · exact .inl (setPhase_other hd (by simp [Ne.symm hrc])).2
  | release c =>
    obtain ⟨_, _, -, rfl⟩ := step_release.mp h
    exact .inl (setPhase_other hd (by simp)).2
  | reply c =>
    obtain ⟨_, _, -, rfl⟩ := step_reply.mp h
    exact .inl (setPhase_other hd (by simp)).2
  | deliver | forward | back | invoke | take => simp [isOwn] at ha

theorem request_eq_none {p : Phase} : p.request = none ↔ p = .idle := by
  cases p <;> simp [Phase.request]

structure Control (n : Nat) (s : Chain) : Prop where
  locks : ∀ i, (s.srv i).Locks
  next : ∀ i, (s.srv i).next = decide (i + 1 < n)
  link : ∀ i r, ((s.srv (i + 1)).phase .pred).request = some r ↔
    ∃ c, (s.srv i).phase c = .waiting r
  head : ((s.srv 0).phase .pred).request = none
  inside : ∀ i c r, ((s.srv i).phase c).request = some r → i < n
  code : ∀ i c r rc, (s.srv i).phase c = .forwarded r rc → rc = if i + 1 < n then 0 else -2
  entry : ∀ i c r, ((s.srv i).phase c).request = some r → c ≠ .pred →
    needsForward r.msg = true → i = 0

def WritesAtHead : Label → Prop
  | .send i _ r => needsForward r.msg = true → i = 0
  | _ => True

instance : DecidablePred WritesAtHead
  | .send i _ r => inferInstanceAs (Decidable (needsForward r.msg = true → i = 0))
  | .own .. | .forward .. | .back .. | .invoke .. | .answer .. => isTrue trivial

theorem control_start (n : Nat) (list : ListT) : Control n (Chain.start n list) where
  locks i := locks_start list (decide (i + 1 < n))
  next i := rfl
  link i r := by simp [Chain.start, Server.start, Phase.request]
  head := rfl
  inside i c r h := by simp [Chain.start, Server.start, Phase.request] at h
  code i c r rc h := by simp [Chain.start, Server.start] at h
  entry i c r h := by simp [Chain.start, Server.start, Phase.request] at h

/-- At most one thread of a server is between taking `lock_list` and releasing it. -/
theorem Control.unique {n : Nat} {s : Chain} (h : Control n s) {i : Nat} {c d : Conn}
    (hc : ((s.srv i).phase c).holdsList = true) (hd : ((s.srv i).phase d).holdsList = true) :
    c = d := by
  have hlc := ((h.locks i).list c).mp hc
  have hld := ((h.locks i).list d).mp hd
  exact Option.some.inj (hlc.symm.trans hld)

theorem Control.pred_write {n : Nat} {s : Chain} (h : Control n s) {i : Nat} {r : Request}
    (hr : ((s.srv i).phase .pred).request = some r) : needsForward r.msg = true := by
  cases i with
  | zero => rw [h.head] at hr; cases hr
  | succ i =>
    obtain ⟨c, hc⟩ := (h.link i r).mp hr
    exact (h.locks i).writes c r (by simp [hc, Phase.forwards])

theorem Control.write_pred {n : Nat} {s : Chain} (h : Control n s) {i : Nat} {c : Conn}
    {r : Request} (hr : ((s.srv (i + 1)).phase c).request = some r)
    (hw : needsForward r.msg = true) : c = .pred := by
  by_contra hc
  have h0 := h.entry (i + 1) c r hr hc hw
  omega

theorem control_of {n : Nat} {s s' : Chain} (h : Control n s) (hl : ∀ j, (s'.srv j).Locks)
    (hn : ∀ j, (s'.srv j).next = (s.srv j).next)
    (hp : ∀ j, ((s'.srv j).phase .pred).request = ((s.srv j).phase .pred).request)
    (hw : ∀ j d r, (s'.srv j).phase d = .waiting r ↔ (s.srv j).phase d = .waiting r)
    (hr : ∀ j d r, ((s'.srv j).phase d).request = some r → ((s.srv j).phase d).request = some r ∨
      (j < n ∧ (needsForward r.msg = true → j = 0)))
    (hc : ∀ j d r rc, (s'.srv j).phase d = .forwarded r rc →
      (s.srv j).phase d = .forwarded r rc ∨ rc = if j + 1 < n then 0 else -2) : Control n s' where
  locks := hl
  next j := (hn j).trans (h.next j)
  link j r := by
    rw [hp, h.link]
    exact exists_congr fun c => (hw j c r).symm
  head := (hp 0).trans h.head
  inside j d r hd := (hr j d r hd).elim (h.inside j d r) And.left
  code j d r rc hd := (hc j d r rc hd).elim (h.code j d r rc) id
  entry j d r hd hne := (hr j d r hd).elim (fun hd => h.entry j d r hd hne) And.right

theorem locks_set {s : Chain} (h : ∀ j, (s.srv j).Locks) {i : Nat} {u : Server} (hu : u.Locks) :
    ∀ j, ((s.set i u).srv j).Locks := by
  intro j
  by_cases hj : j = i
  · subst hj
    simpa using hu
  · simpa [hj] using h j

/-- What holds of the one server that changes, and of every server that does
not, holds of all. -/
theorem forall_set {s : Chain} {i : Nat} {u : Server} {P : Nat → Server → Server → Prop}
    (hu : P i u (s.srv i)) (hs : ∀ j v, P j v v) (j : Nat) : P j ((s.set i u).srv j) (s.srv j) := by
  by_cases hj : j = i
  · subst hj
    simpa using hu
  · simpa [hj] using hs j (s.srv j)

theorem control_own {n : Nat} {t : AnoAtual} {s s' : Chain} {i : Nat} {a : Act} (h : Control n s)
    (hs : step n t s (.own i a) = some s') : Control n s' := by
  obtain ⟨ha, u, hu, rfl⟩ := step_own.mp hs
  obtain ⟨-, hnext, hlike⟩ := own_frame ha hu
  refine control_of h (locks_set h.locks (step_locks (h.locks i) hu)) ?_ ?_ ?_ ?_ ?_
  · exact forall_set (P := fun _ v w => v.next = w.next) hnext (fun _ _ => rfl)
  · exact forall_set (P := fun _ v w => (v.phase .pred).request = (w.phase .pred).request)
      (hlike .pred).request (fun _ _ => rfl)
  · exact forall_set (P := fun _ v w => ∀ d r, v.phase d = .waiting r ↔ w.phase d = .waiting r)
      (fun d => (hlike d).waiting) (fun _ _ _ _ => Iff.rfl)
  · refine forall_set (P := fun j v w => ∀ d r, (v.phase d).request = some r →
      (w.phase d).request = some r ∨ (j < n ∧ (needsForward r.msg = true → j = 0))) ?_ ?_
    · exact fun d r hd => .inl ((hlike d).request ▸ hd)
    · exact fun _ _ _ _ hd => .inl hd
  · refine forall_set (P := fun j v w => ∀ d r rc, v.phase d = .forwarded r rc →
      w.phase d = .forwarded r rc ∨ rc = if j + 1 < n then 0 else -2) ?_ ?_
    · intro d r rc hd
      refine (own_code ha hu hd).imp_right fun hrc => ?_
      have hlast : ¬ i + 1 < n := by simpa [h.next i] using hrc.2
      rw [if_neg hlast, hrc.1]
    · exact fun _ _ _ _ _ hd => .inl hd

theorem control_one {n : Nat} {s : Chain} {i : Nat} {c : Conn} {p : Phase} {u : Server}
    (h : Control n s) (hu : u.Locks) (hnext : u.next = (s.srv i).next)
    (hphase : u.phase = ((s.srv i).setPhase c p).phase) (hp : ∀ r, p ≠ .waiting r)
    (hf : ∀ r rc, p ≠ .forwarded r rc) (ho : ∀ r, (s.srv i).phase c ≠ .waiting r)
    (hpred : c = .pred → p.request = ((s.srv i).phase c).request)
    (hreq : ∀ r, p.request = some r → ((s.srv i).phase c).request = some r ∨
      (i < n ∧ (needsForward r.msg = true → i = 0))) : Control n (s.set i u) := by
  refine control_of h (locks_set h.locks hu) ?_ ?_ ?_ ?_ ?_
  · exact forall_set (P := fun _ v w => v.next = w.next) hnext (fun _ _ => rfl)
  · refine forall_set (P := fun _ v w => (v.phase .pred).request = (w.phase .pred).request) ?_
      (fun _ _ => rfl)
    rw [hphase]
    by_cases hc : Conn.pred = c
    · subst hc
      simpa using hpred rfl
    · simp [hc]
  · refine forall_set (P := fun _ v w => ∀ d q, v.phase d = .waiting q ↔ w.phase d = .waiting q) ?_
      (fun _ _ _ _ => Iff.rfl)
    intro d q
    rw [hphase]
    by_cases hd : d = c
    · subst hd
      simp [hp q, ho q]
    · simp [hd]
  · refine forall_set (P := fun j v w => ∀ d q, (v.phase d).request = some q →
      (w.phase d).request = some q ∨ (j < n ∧ (needsForward q.msg = true → j = 0))) ?_
      (fun _ _ _ _ hd => .inl hd)
    intro d q hd
    rw [hphase] at hd
    by_cases hdc : d = c
    · subst hdc
      exact hreq q (by simpa using hd)
    · exact .inl (by simpa [hdc] using hd)
  · refine forall_set (P := fun j v w => ∀ d q rc, v.phase d = .forwarded q rc →
      w.phase d = .forwarded q rc ∨ rc = if j + 1 < n then 0 else -2) ?_
      (fun _ _ _ _ _ hd => .inl hd)
    exact fun d q rc hd => .inl (setPhase_other (hphase ▸ hd) (hf q rc)).2

theorem control_invoke {n : Nat} {t : AnoAtual} {s s' : Chain} {i : Nat} {c : Conn} {r : Request}
    (h : Control n s) (hs : step n t s (.invoke i c r) = some s') : Control n s' := by
  obtain ⟨rc, hp, rfl⟩ := step_invoke.mp hs
  have hlocks := step_locks (h.locks i) ((ClientThread.step_invoke (t := t)).mpr ⟨r, rc, hp, rfl⟩)
  obtain ⟨hreq, hwait⟩ := invoke_place hp
  exact control_one h hlocks rfl rfl (by simp) (by simp) hwait (fun _ => hreq.symm)
    (fun q hq => .inl (hreq.trans hq))

theorem control_send {n : Nat} {t : AnoAtual} {s s' : Chain} {i c : Nat} {r : Request}
    (h : Control n s) (hg : WritesAtHead (.send i c r))
    (hs : step n t s (.send i c r) = some s') : Control n s' := by
  obtain ⟨hi, -, hp, rfl⟩ := step_send.mp hs
  have hlocks := step_locks (h.locks i) ((step_deliver (t := t) (r := r)).mpr ⟨hp, rfl⟩)
  have hc := control_one h hlocks rfl rfl (by simp) (by simp) (by simp [hp]) nofun
    (fun q hq => .inr ⟨hi, Option.some.inj hq ▸ hg⟩)
  exact ⟨hc.locks, hc.next, hc.link, hc.head, hc.inside, hc.code, hc.entry⟩

theorem control_answer {n : Nat} {t : AnoAtual} {s s' : Chain} {i c : Nat} {r : Request}
    {m : MessageT} (h : Control n s) (hs : step n t s (.answer i c r m) = some s') :
    Control n s' := by
  obtain ⟨hp, rfl⟩ := step_answer.mp hs
  have hlocks := step_locks (h.locks i) ((step_take (t := t)).mpr ⟨r, m, hp, rfl⟩)
  exact control_one h hlocks rfl rfl (by simp) (by simp) (by simp [hp]) nofun nofun

theorem set_set_phase (s : Chain) (i : Nat) (u v : Server) (j : Nat) (d : Conn) :
    (((s.set i u).set (i + 1) v).srv j).phase d =
      if j = i + 1 then v.phase d else if j = i then u.phase d else (s.srv j).phase d := by
  by_cases hj : j = i + 1
  · simp [hj]
  · by_cases hi : j = i <;> simp [hj, hi]

/-- A step that starts or ends the wait of server `i` for server `i + 1`. -/
theorem control_two {n : Nat} {s : Chain} {i : Nat} {u v : Server} (h : Control n s)
    (hi : i + 1 < n) (hu : u.Locks) (hv : v.Locks) (hun : u.next = (s.srv i).next)
    (hvn : v.next = (s.srv (i + 1)).next)
    (hur : ∀ d, (u.phase d).request = ((s.srv i).phase d).request)
    (huc : ∀ d r rc, u.phase d = .forwarded r rc → (s.srv i).phase d = .forwarded r rc ∨ rc = 0)
    (hvp : ∀ d, d ≠ .pred → v.phase d = (s.srv (i + 1)).phase d)
    (hvw : ∀ r, v.phase .pred ≠ .waiting r ∧ (s.srv (i + 1)).phase .pred ≠ .waiting r)
    (hvf : ∀ r rc, v.phase .pred ≠ .forwarded r rc)
    (hlink : ∀ r, (v.phase .pred).request = some r ↔ ∃ d, u.phase d = .waiting r) :
    Control n ((s.set i u).set (i + 1) v) where
  locks := locks_set (locks_set h.locks hu) hv
  next j := by
    by_cases hj : j = i + 1
    · subst hj
      simpa using hvn.trans (h.next (i + 1))
    · by_cases hji : j = i
      · subst hji
        simpa using hun.trans (h.next j)
      · simpa [hj, hji] using h.next j
  link j r := by
    simp only [set_set_phase, Nat.add_right_cancel_iff]
    by_cases hj : j = i
    · subst hj
      simpa using hlink r
    · have hl := h.link j r
      by_cases hj1 : j = i + 1
      · subst hj1
        simp only [if_neg hj, if_true, show ¬ i + 1 + 1 = i by omega, if_false, hl]
        refine exists_congr fun d => ?_
        by_cases hd : d = .pred
        · subst hd
          simp [(hvw r).1, (hvw r).2]
        · rw [hvp d hd]
      · by_cases hj2 : j + 1 = i
        · subst hj2
          simpa [hj, hj1, hur] using hl
        · simpa [hj, hj1, hj2] using hl
  head := by
    rw [set_set_phase]
    by_cases h0 : 0 = i
    · subst h0
      simpa [hur] using h.head
    · simpa [h0] using h.head
  inside j d r hd := by
    rw [set_set_phase] at hd
    by_cases hj : j = i + 1
    · omega
    · by_cases hji : j = i
      · omega
      · exact h.inside j d r (by simpa [hj, hji] using hd)
  code j d r rc hd := by
    rw [set_set_phase] at hd
    by_cases hj : j = i + 1
    · subst hj
      by_cases hdp : d = .pred
      · subst hdp
        exact absurd (by simpa using hd) (hvf r rc)
      · exact h.code (i + 1) d r rc (by simpa [hvp d hdp] using hd)
    · by_cases hji : j = i
      · subst hji
        obtain hd | rfl := huc d r rc (by simpa using hd)
        · exact h.code j d r rc hd
        · simp [hi]
      · exact h.code j d r rc (by simpa [hj, hji] using hd)
  entry j d r hd hdp := by
    rw [set_set_phase] at hd
    refine h.entry j d r ?_ hdp
    by_cases hj : j = i + 1
    · subst hj
      simpa [hvp d hdp] using hd
    · by_cases hji : j = i
      · subst hji
        simpa [hur] using hd
      · simpa [hj, hji] using hd

theorem request_setPhase {u : Server} {c : Conn} {p : Phase}
    (hp : p.request = (u.phase c).request) (d : Conn) :
    ((u.setPhase c p).phase d).request = (u.phase d).request := by
  by_cases hd : d = c
  · subst hd
    rw [setPhase_self, hp]
  · rw [setPhase_ne _ _ hd]

theorem control_forward {n : Nat} {t : AnoAtual} {s s' : Chain} {i : Nat} {c : Conn}
    (h : Control n s) (hs : step n t s (.forward i c) = some s') : Control n s' := by
  obtain ⟨r, hp, hn, hq, rfl⟩ := step_forward.mp hs
  have hu := step_locks (h.locks i) ((ClientThread.step_forward (t := t)).mpr ⟨r, hp, hn, rfl⟩)
  have hv := step_locks (h.locks (i + 1)) ((step_deliver (t := t) (r := r)).mpr ⟨hq, rfl⟩)
  have hi : i + 1 < n := by simpa [h.next i] using hn
  refine control_two h hi hu hv rfl rfl (request_setPhase (by rw [hp]; rfl)) ?_
    (fun d hd => setPhase_ne _ _ hd) (by simp [hq]) (by simp) ?_
  · exact fun d r' rc hd => .inl (setPhase_other hd (by simp)).2
  · intro q
    simp only [setPhase_self, Phase.request, Option.some.injEq]
    constructor
    · rintro rfl
      exact ⟨c, by simp⟩
    · rintro ⟨d, hd⟩
      by_cases hdc : d = c
      · subst hdc
        simpa using hd
      · have hw : (s.srv i).phase d = .waiting q := by simpa [hdc] using hd
        exact absurd (h.unique (i := i) (by simp [hw, Phase.holdsList])
          (by simp [hp, Phase.holdsList])) hdc

theorem control_back {n : Nat} {t : AnoAtual} {s s' : Chain} {i : Nat} {c : Conn}
    (h : Control n s) (hs : step n t s (.back i c) = some s') : Control n s' := by
  obtain ⟨r, r', m, hp, hq, rfl⟩ := step_back.mp hs
  have hu := step_locks (t := t) (a := .back c (some m)) (h.locks i)
    (ClientThread.step_back.mpr ⟨r, hp, rfl⟩)
  have hv := step_locks (h.locks (i + 1)) ((step_take (t := t)).mpr ⟨r', m, hq, rfl⟩)
  have hi : i + 1 < n := h.inside (i + 1) .pred r' (by simp [hq, Phase.request])
  refine control_two h hi hu hv rfl rfl (request_setPhase (by rw [hp]; rfl)) ?_
    (fun d hd => setPhase_ne _ _ hd) (by simp [hq]) (by simp) ?_
  · intro d q rc hd
    by_cases hdc : d = c
    · subst hdc
      simp only [setPhase_self, Phase.forwarded.injEq] at hd
      exact .inr hd.2.symm
    · exact .inl (by simpa [hdc] using hd)
  · intro q
    simp only [setPhase_self, Phase.request, reduceCtorEq, false_iff, not_exists]
    intro d hd
    obtain ⟨hdc, hw⟩ := setPhase_other hd (by simp)
    exact hdc (h.unique (i := i) (by simp [hw, Phase.holdsList]) (by simp [hp, Phase.holdsList]))

theorem control_step {n : Nat} {t : AnoAtual} {s s' : Chain} {l : Label} (h : Control n s)
    (hg : WritesAtHead l) (hs : step n t s l = some s') : Control n s' := by
  cases l with
  | send i c r => exact control_send h hg hs
  | own i a => exact control_own h hs
  | forward i c => exact control_forward h hs
  | back i c => exact control_back h hs
  | invoke i c r => exact control_invoke h hs
  | answer i c r m => exact control_answer h hs

end ListServer.ChainControl
