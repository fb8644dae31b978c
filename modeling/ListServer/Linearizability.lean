import ListServer.ChainPairs
import ListServer.ClientStub
import ListServer.Lib.History
import Mathlib.Logic.Equiv.Basic

namespace ListServer.Linearizability

open CarList Message Skeleton ClientThread ChainSystem ChainControl ChainPairs ClientStub
open Lib.History Lib.Transition

abbrev Place := Nat × Conn

def phaseAt (s : Chain) (x : Place) : Phase := (s.srv x.1).phase x.2

/-- Of the places that a forwarded request occupies, the last one is where it
is worked on. -/
def Active (p : Phase) (r : Request) : Prop := p.request = some r ∧ p ≠ .waiting r

def Early (p : Phase) (r : Request) : Prop :=
  Active p r ∧ p.executed = none ∧ p ≠ .forwarded r 0

theorem Like.active {p q : Phase} (h : Like p q) {r : Request} (hp : Active p r) : Active q r :=
  ⟨h.request ▸ hp.1, fun hq => hp.2 ((h.waiting r).mpr hq)⟩

theorem Like.early {p q : Phase} (h : Like p q) {r : Request} (hp : Early p r) : Early q r :=
  ⟨Like.active h hp.1, h.executed ▸ hp.2.1, fun hq => hp.2.2 ((h.ok r).mpr hq)⟩

theorem at_set {s : Chain} {i : Nat} {c : Conn} {p : Phase} {u : Server}
    (hu : u.phase = ((s.srv i).setPhase c p).phase) (x : Place) :
    phaseAt (s.set i u) x = if x = (i, c) then p else phaseAt s x := by
  obtain ⟨j, d⟩ := x
  by_cases hj : j = i
  · subst hj
    simp [phaseAt, hu, setPhase_phase]
  · simp [phaseAt, hj]

theorem at_set_set {s : Chain} {i : Nat} {c : Conn} {p q : Phase} {u v : Server}
    (hu : u.phase = ((s.srv i).setPhase c p).phase)
    (hv : v.phase = ((s.srv (i + 1)).setPhase .pred q).phase) (x : Place) :
    phaseAt ((s.set i u).set (i + 1) v) x =
      if x = (i + 1, .pred) then q else if x = (i, c) then p else phaseAt s x := by
  rw [at_set (c := .pred) (p := q) (by simp [hv]), at_set hu]

/-- A step that executes nothing only moves requests around. -/
structure Moves (s s' : Chain) : Prop where
  back : ∃ g : Place → Place, g.Injective ∧ ∀ x r, Active (phaseAt s' x) r →
    Active (phaseAt s (g x)) r ∧ (Early (phaseAt s' x) r → Early (phaseAt s (g x)) r)
  request : ∀ x r, (phaseAt s' x).request = some r →
    ∃ y, (phaseAt s y).request = some r ∧ (needsForward r.msg = false → y = x)
  executed : ∀ x r m, (phaseAt s' x).executed = some (r, m) → (phaseAt s x).executed = some (r, m)

theorem moves_own {n i : Nat} {t : AnoAtual} {s s' : Chain} {a : Act}
    (hs : step n t s (.own i a) = some s') : Moves s s' := by
  obtain ⟨ha, u, hu, rfl⟩ := step_own.mp hs
  obtain ⟨-, -, hlike⟩ := own_frame ha hu
  have hall : ∀ x, Like (phaseAt (s.set i u) x) (phaseAt s x) := fun x =>
    forall_set (s := s) (P := fun _ v w => ∀ d, Like (v.phase d) (w.phase d)) hlike
      (fun _ _ _ => Like.refl _) x.1 x.2
  refine ⟨⟨id, Function.injective_id, fun x r hx => ?_⟩, fun x r hx => ?_, fun x r m hx => ?_⟩
  · exact ⟨Like.active (hall x) hx, Like.early (hall x)⟩
  · exact ⟨x, (hall x).request ▸ hx, fun _ => rfl⟩
  · exact (hall x).executed ▸ hx

theorem moves_two {s s' : Chain} {x y : Place} {p q : Phase}
    (hat : ∀ z, phaseAt s' z = if z = y then q else if z = x then p else phaseAt s z)
    (hq : ∀ r, Active q r → Active (phaseAt s x) r ∧ Early (phaseAt s x) r)
    (hp : ∀ r, Active p r → Active (phaseAt s y) r ∧ ¬ Early p r)
    (hqr : ∀ r, q.request = some r → (phaseAt s x).request = some r ∧ needsForward r.msg = true)
    (hpr : ∀ r, p.request = some r → (phaseAt s x).request = some r)
    (hqx : q.executed = none) (hpx : p.executed = none) : Moves s s' := by
  refine ⟨⟨Equiv.swap y x, Equiv.injective _, fun z r hz => ?_⟩, fun z r hz => ?_,
    fun z r m hz => ?_⟩
  · rw [hat] at hz ⊢
    by_cases hzy : z = y
    · rw [if_pos hzy] at hz
      rw [hzy, Equiv.swap_apply_left]
      exact (hq r hz).imp_right fun he _ => he
    · rw [if_neg hzy] at hz ⊢
      by_cases hzx : z = x
      · rw [if_pos hzx] at hz ⊢
        rw [hzx, Equiv.swap_apply_right]
        exact (hp r hz).imp_right fun hn he => absurd he hn
      · rw [if_neg hzx] at hz ⊢
        rw [Equiv.swap_apply_of_ne_of_ne hzy hzx]
        exact ⟨hz, id⟩
  · rw [hat] at hz
    split at hz
    next =>
      obtain ⟨hx, hw⟩ := hqr r hz
      exact ⟨x, hx, by simp [hw]⟩
    next =>
      split at hz
      next hzx => exact ⟨z, hzx ▸ hpr r hz, fun _ => rfl⟩
      next => exact ⟨z, hz, fun _ => rfl⟩
  · rw [hat] at hz
    split at hz
    next => simp [hqx] at hz
    next =>
      split at hz
      next => simp [hpx] at hz
      next => exact hz

theorem moves_forward {n i : Nat} {t : AnoAtual} {s s' : Chain} {c : Conn} (h : Control n s)
    (hs : step n t s (.forward i c) = some s') : Moves s s' := by
  obtain ⟨r, hc, -, hp, rfl⟩ := ChainSystem.step_forward.mp hs
  have hw : needsForward r.msg = true := (h.locks i).writes c r (by simp [hc, Phase.forwards])
  have hx : phaseAt s (i, c) = .linked r := hc
  have hat := at_set_set (s := s) (i := i) (c := c) (p := .waiting r) (q := .sent r) rfl rfl
  refine moves_two hat (fun q hq => ?_) (fun q hq => ?_) (fun q hq => ?_) (fun q hq => ?_) rfl rfl
  · obtain rfl : r = q := Option.some.inj hq.1
    simp [hx, Active, Early, Phase.request, Phase.executed]
  · obtain rfl : r = q := Option.some.inj hq.1
    exact absurd rfl hq.2
  · obtain rfl : r = q := Option.some.inj hq
    exact ⟨by simp [hx, Phase.request], hw⟩
  · obtain rfl : r = q := Option.some.inj hq
    simp [hx, Phase.request]

theorem moves_back {n i : Nat} {t : AnoAtual} {s s' : Chain} {c : Conn} (h : Control n s)
    (hs : step n t s (.back i c) = some s') : Moves s s' := by
  obtain ⟨r, r', m, hc, hp, rfl⟩ := ChainSystem.step_back.mp hs
  have hx : phaseAt s (i, c) = .waiting r := hc
  have hy : phaseAt s (i + 1, .pred) = .replied r' m := hp
  have hrr : r' = r := by
    obtain ⟨d, hd⟩ := (h.link i r').mp (by simp [hp, Phase.request])
    obtain rfl : d = c := h.unique (i := i) (by simp [hd, Phase.holdsList])
      (by simp [hc, Phase.holdsList])
    simpa using hd.symm.trans hc
  have hat := at_set_set (s := s) (i := i) (c := c) (p := .forwarded r 0) (q := .idle)
    (u := { (s.srv i).setPhase c (.forwarded r 0) with rlsLock := none }) rfl rfl
  have hidle : ∀ q, Phase.request .idle ≠ some q := by simp [Phase.request]
  refine moves_two hat (fun q hq => absurd hq.1 (hidle q)) (fun q hq => ?_)
    (fun q hq => absurd hq (hidle q)) (fun q hq => ?_) rfl rfl
  · obtain rfl : r = q := Option.some.inj hq.1
    simp [hy, hrr, Active, Early, Phase.request]
  · obtain rfl : r = q := Option.some.inj hq
    simp [hx, Phase.request]

theorem moves_answer {n i c : Nat} {t : AnoAtual} {s s' : Chain} {r : Request} {m : MessageT}
    (hs : step n t s (.answer i c r m) = some s') : Moves s s' := by
  obtain ⟨hc, rfl⟩ := step_answer.mp hs
  have hat := at_set (s := s) (i := i) (c := .client c) (p := .idle) rfl
  refine ⟨⟨id, Function.injective_id, fun x q hq => ?_⟩, fun x q hq => ?_, fun x q m hq => ?_⟩
  · rw [hat] at hq ⊢
    by_cases h1 : x = (i, .client c)
    · simp [h1, Active, Phase.request] at hq
    · simpa [h1] using hq
  · rw [hat] at hq
    by_cases h1 : x = (i, .client c)
    · simp [h1, Phase.request] at hq
    · exact ⟨x, by simpa [h1] using hq, fun _ => rfl⟩
  · rw [hat] at hq
    by_cases h1 : x = (i, .client c)
    · simp [h1, Phase.executed] at hq
    · simpa [h1] using hq

variable {n : Nat} {t : AnoAtual} {s s' : Chain} {tr : List (Act MessageT MessageT)}

/-- What a label adds to the trace: the linearization point of a request is
its execution by the last server. -/
def actOf (n : Nat) : Label → List (Act MessageT MessageT)
  | .send _ _ r => [.sent r.id r.msg]
  | .invoke i _ r => if i + 1 = n then [.point r.id r.msg] else []
  | .answer _ _ r m => [.answered r.id m]
  | _ => []

def trace (n : Nat) (ls : List Label) : List (Act MessageT MessageT) := ls.flatMap (actOf n)

def Answered (t : AnoAtual) (tr : List (Act MessageT MessageT)) (k : Nat) (m : MessageT) : Prop :=
  (k, m) ∈ (replay (serve t) listCreate (points tr)).1

structure Linear (n : Nat) (t : AnoAtual) (tr : List (Act MessageT MessageT)) (s : Chain) :
    Prop where
  control : Control n s
  placed : Placed (serve t) listCreate tr
  pairs : Pairs t models n (fun r l => Answered t tr r.id (reply t r.msg l)) s
  tail : ∀ i, i + 1 = n → (s.srv i).list = (replay (serve t) listCreate (points tr)).2
  reads : ∀ x r, (phaseAt s x).request = some r → needsForward r.msg = false → x.1 + 1 = n
  sent : ∀ x r, (phaseAt s x).request = some r → .sent r.id r.msg ∈ tr
  count : ∀ k q, .sent k q ∈ tr → k < s.count
  once : ∀ x y p q, Active (phaseAt s x) p → Active (phaseAt s y) q → p.id = q.id → x = y
  early : ∀ x r, Early (phaseAt s x) r → r.id ∉ (points tr).map Prod.fst
  done : ∀ x r m, (phaseAt s x).executed = some (r, m) → Answered t tr r.id m

theorem answered_append {u : List (Act MessageT MessageT)} {k : Nat} {m : MessageT}
    (h : Answered t tr k m) : Answered t (tr ++ u) k m := by
  rw [Answered, points_append, replay_append]
  exact List.mem_append_left _ h

def FromStub (n : Nat) : Label → Prop
  | .send i _ r => ∃ q : Call, q.message = some r.msg ∧ i = if q.atHead then 0 else n - 1
  | _ => True

theorem writesAtHead_of_fromStub {l : Label} (h : FromStub n l) : WritesAtHead l := by
  cases l with
  | send i c r =>
    obtain ⟨q, hq, rfl⟩ := h
    intro hw
    rw [needsForward_message hq] at hw
    exact if_pos hw
  | _ => trivial

theorem linear_start (n : Nat) (t : AnoAtual) : Linear n t [] (Chain.start n listCreate) where
  control := control_start n listCreate
  placed := .nil
  pairs := pairs_start n listCreate _
  tail _ _ := rfl
  reads x r h := by simp [phaseAt, Chain.start, Server.start, Phase.request] at h
  sent x r h := by simp [phaseAt, Chain.start, Server.start, Phase.request] at h
  count k q h := by simp at h
  once x y p q h := by simp [phaseAt, Chain.start, Server.start, Active, Phase.request] at h
  early x r h := by simp [phaseAt, Chain.start, Server.start, Early, Active, Phase.request] at h
  done x r m h := by simp [phaseAt, Chain.start, Server.start, Phase.executed] at h

theorem pairs_models (mark' : Request → ListT → Prop) {l : Label} (h : Linear n t tr s)
    (hmono : ∀ r l, Answered t tr r.id (reply t r.msg l) → mark' r l)
    (hexec : ∀ i c r, l = .invoke i c r → needsForward r.msg = true → mark' r (s.srv i).list)
    (hs : step n t s l = some s') : Pairs t models n mark' s' := by
  refine pairs_step h.control h.pairs (fun msg list hr => ?_) ?_ hmono hexec hs
  · rw [models_eq_map, models_eq_map, cars_after_read hr]
  · exact fun r l l' hl _ _ => models_after_congr r.msg t hl

theorem linear_moves {l : Label} (h : Linear n t tr s) (hg : FromStub n l) (hm : Moves s s')
    (hl : ∀ i c r, l ≠ .invoke i c r) (hcount : s'.count = s.count)
    (hlist : ∀ i, (s'.srv i).list = (s.srv i).list) (hs : step n t s l = some s') :
    Linear n t tr s' := by
  obtain ⟨g, hinj, hback⟩ := hm.back
  exact {
    control := control_step h.control (writesAtHead_of_fromStub hg) hs
    placed := h.placed
    pairs := pairs_models _ h (fun _ _ ha => ha) (fun i c r he => absurd he (hl i c r)) hs
    tail := by
      intro i hi
      rw [hlist, h.tail i hi]
    reads := by
      intro x r hx hr
      obtain ⟨y, hy, he⟩ := hm.request x r hx
      exact he hr ▸ h.reads y r hy hr
    sent := by
      intro x r hx
      obtain ⟨y, hy, -⟩ := hm.request x r hx
      exact h.sent y r hy
    count := hcount ▸ h.count
    once := by
      intro x y p q hx hy hpq
      exact hinj (h.once (g x) (g y) p q (hback x p hx).1 (hback y q hy).1 hpq)
    early := by
      intro x r hx
      exact h.early (g x) r ((hback x r hx.1).2 hx)
    done := by
      intro x r m hx
      exact h.done x r m (hm.executed x r m hx) }

theorem linear_send {i c : Nat} {r : Request} (h : Linear n t tr s)
    (hg : FromStub n (.send i c r)) (hs : step n t s (.send i c r) = some s') :
    Linear n t (tr ++ [.sent r.id r.msg]) s' := by
  have hcontrol := control_step h.control (writesAtHead_of_fromStub hg) hs
  have hpairs := pairs_models _ h (fun _ _ => answered_append (u := [.sent r.id r.msg]))
    (fun _ _ _ he => by cases he) hs
  obtain ⟨hi, hid, hc, he⟩ := step_send.mp hs
  have hpts : points (tr ++ [.sent r.id r.msg]) = points tr := by simp [points]
  have hnew : ∀ k q, .sent k q ∈ tr → k ≠ r.id := fun k q hk => by
    have hk := h.count k q hk
    omega
  have hold : ∀ x p, (phaseAt s x).request = some p → p.id ≠ r.id := fun x p hx =>
    hnew _ _ (h.sent x p hx)
  have hat : ∀ x, phaseAt s' x = if x = (i, .client c) then .sent r else phaseAt s x :=
    he ▸ at_set (s := s) (i := i) (c := .client c) (p := .sent r) rfl
  have hreqs : ∀ x p, (phaseAt s' x).request = some p →
      (x = (i, .client c) ∧ r = p) ∨ (phaseAt s x).request = some p := by
    intro x p hx
    rw [hat] at hx
    split at hx
    next hxc => exact .inl ⟨hxc, by simpa [Phase.request] using hx⟩
    next => exact .inr hx
  exact {
    control := hcontrol
    placed := .sent h.placed fun q hq => hnew _ _ hq rfl
    pairs := hpairs
    tail := by
      intro j hj
      have hlist : (s'.srv j).list = (s.srv j).list := he ▸ set_list s (by rfl) j
      rw [hlist, hpts]
      exact h.tail j hj
    reads := by
      intro x p hx hp
      obtain ⟨hxc, rfl⟩ | hx := hreqs x p hx
      · obtain ⟨q, hq, rfl⟩ := hg
        rw [needsForward_message hq] at hp
        simp only [hxc, hp, Bool.false_eq_true, if_false]
        omega
      · exact h.reads x p hx hp
    sent := by
      intro x p hx
      obtain ⟨-, rfl⟩ | hx := hreqs x p hx
      · exact List.mem_append_right _ (List.mem_singleton.mpr rfl)
      · exact List.mem_append_left _ (h.sent x p hx)
    count := by
      intro k q hk
      have hcount : s'.count = s.count + 1 := by rw [← he]
      obtain hk | hk := List.mem_append.mp hk
      · have hk := h.count k q hk
        omega
      · obtain ⟨hk, -⟩ : k = r.id ∧ q = r.msg := by simpa using hk
        omega
    once := by
      intro x y p q hx hy hpq
      rw [hat] at hx hy
      split at hx <;> split at hy
      next hxc hyc => rw [hxc, hyc]
      next =>
        obtain rfl : r = p := by simpa [Phase.request] using hx.1
        exact absurd hpq.symm (hold y q hy.1)
      next =>
        obtain rfl : r = q := by simpa [Phase.request] using hy.1
        exact absurd hpq (hold x p hx.1)
      next => exact h.once x y p q hx hy hpq
    early := by
      intro x p hx
      rw [hat] at hx
      rw [hpts]
      split at hx
      next =>
        obtain rfl : r = p := by simpa [Phase.request] using hx.1.1
        intro hm
        obtain ⟨⟨k, q⟩, hq, hk⟩ := List.mem_map.mp hm
        exact hnew k q ((placed_points h.placed).2 k q hq) hk
      next => exact h.early x p hx
    done := by
      intro x p m hx
      rw [hat] at hx
      split at hx
      next => simp [Phase.executed] at hx
      next => exact answered_append (h.done x p m hx) }

theorem linear_answer {i c : Nat} {r : Request} {m : MessageT} (h : Linear n t tr s)
    (hs : step n t s (.answer i c r m) = some s') :
    Linear n t (tr ++ [.answered r.id m]) s' := by
  have hm := moves_answer hs
  obtain ⟨hc, he⟩ := step_answer.mp hs
  have hu := linear_moves h (l := .answer i c r m) trivial hm (fun _ _ _ he => by cases he)
    (by simp [← he]) (fun j => by rw [← he]; exact set_list s (by rfl) j) hs
  have hpts : points (tr ++ [.answered r.id m]) = points tr := by simp [points]
  have hsent : ∀ k q, .sent k q ∈ tr ++ [.answered r.id m] ↔ .sent k q ∈ tr := by simp
  have ha : Answered t (tr ++ [.answered r.id m]) = Answered t tr := by
    funext k a
    rw [Answered, Answered, hpts]
  exact {
    control := hu.control
    placed := by
      have hx : (phaseAt s (i, .client c)).executed = some (r, m) := by
        simp [phaseAt, hc, Phase.executed]
      exact .answered hu.placed (h.done _ r m hx)
    pairs := ha ▸ hu.pairs
    tail := hpts ▸ hu.tail
    reads := hu.reads
    sent := fun x p hx => (hsent _ _).mpr (hu.sent x p hx)
    count := fun k q hk => hu.count k q ((hsent k q).mp hk)
    once := hu.once
    early := hpts ▸ hu.early
    done := ha ▸ hu.done }

/-- A server below the last one executes a write after the last one has, with
the answer that the last one gave. -/
theorem answered_above {i : Nat} {c : Conn} {r : Request} (h : Linear n t tr s) (hi : i + 1 < n)
    (hc : (s.srv i).phase c = .forwarded r 0) :
    Answered t tr r.id (reply t r.msg (s.srv i).list) := by
  obtain ⟨l, hl, -, hr⟩ := h.pairs.executed hi hc
  have hw := (h.control.locks i).writes c r (by simp [hc, Phase.forwards])
  have hop : r.msg.opcode ∉ [opSize, opGet, opGetListByYear, opGetModels] := by
    intro hop
    simp only [List.mem_cons, List.not_mem_nil, or_false] at hop
    obtain hop | hop | hop | hop := hop <;> simp [needsForward, hop] at hw <;> revert hw <;> decide
  rw [reply_congr hop t hl]
  exact hr

theorem active_early {i : Nat} {c : Conn} {r : Request} {rc : Int} (hi : i + 1 = n)
    (hcode : ∀ rc, (s.srv i).phase c = .forwarded r rc → rc = if i + 1 < n then 0 else -2)
    (hp : (s.srv i).phase c = .locked r ∨ (s.srv i).phase c = .forwarded r rc) :
    Early (phaseAt s (i, c)) r := by
  obtain hp | hp := hp
  · simp [Early, Active, phaseAt, hp, Phase.request, Phase.executed]
  · have hrc := hcode rc hp
    rw [if_neg (by omega)] at hrc
    simp [Early, Active, phaseAt, hp, hrc, Phase.request, Phase.executed]

/-- What an execution adds to the trace makes its own answer the answer of the
single list. -/
theorem linear_point {i : Nat} {c : Conn} {r : Request} (h : Linear n t tr s)
    (hs : step n t s (.invoke i c r) = some s') :
    Placed (serve t) listCreate (tr ++ actOf n (.invoke i c r)) ∧
      Answered t (tr ++ actOf n (.invoke i c r)) r.id (reply t r.msg (s.srv i).list) := by
  obtain ⟨rc, hp, -⟩ := ChainSystem.step_invoke.mp hs
  have hreq : (phaseAt s (i, c)).request = some r := (invoke_place hp).1
  by_cases hi : i + 1 = n
  · have hearly := active_early hi (h.control.code i c r) (hp.imp_left And.left)
    simp only [actOf, if_pos hi]
    refine ⟨.point h.placed (h.sent _ r hreq) (h.early _ r hearly), ?_⟩
    rw [Answered, points_append, replay_append, ← h.tail i hi]
    exact List.mem_append_right _ (by simp [points, replay, reply])
  · simp only [actOf, if_neg hi, List.append_nil]
    have hin : i + 1 < n := by
      have hlt := h.control.inside i c r hreq
      omega
    obtain ⟨-, hr, -⟩ | hp := hp
    · exact absurd (h.reads (i, c) r hreq hr) hi
    · obtain rfl : rc = 0 := by simpa [hin] using h.control.code i c r rc hp
      exact ⟨h.placed, answered_above h hin hp⟩

theorem linear_invoke {i : Nat} {c : Conn} {r : Request} (h : Linear n t tr s)
    (hs : step n t s (.invoke i c r) = some s') :
    Linear n t (tr ++ actOf n (.invoke i c r)) s' := by
  obtain ⟨hplaced, hans⟩ := linear_point h hs
  have hcontrol := control_step h.control (l := .invoke i c r) trivial hs
  have hpairs := pairs_models
    (fun q l => Answered t (tr ++ actOf n (.invoke i c r)) q.id (reply t q.msg l)) h
    (fun _ _ ha => answered_append ha) (fun j d q he _ => by cases he; exact hans) hs
  obtain ⟨rc, hp, he⟩ := ChainSystem.step_invoke.mp hs
  have hserve : afterForward t rc r.msg (s.srv i).list = serve t r.msg (s.srv i).list := by
    obtain ⟨-, -, rfl⟩ | hp := hp
    · rfl
    · by_cases hi : i + 1 < n <;> simp [h.control.code i c r rc hp, hi]
  rw [hserve] at he
  have hact : Active (phaseAt s (i, c)) r := (invoke_place hp).imp_right fun hw => hw r
  have hreq := hact.1
  have hat : ∀ x, phaseAt s' x =
      if x = (i, c) then .invoked r (serve t r.msg (s.srv i).list).1 else phaseAt s x :=
    he ▸ at_set (s := s) (i := i) (c := c) rfl
  have hback : ∀ x p, Active (phaseAt s' x) p → Active (phaseAt s x) p := by
    intro x p hx
    rw [hat] at hx
    split at hx
    next hxc =>
      obtain rfl : r = p := by simpa [Phase.request] using hx.1
      exact hxc ▸ hact
    next => exact hx
  have hreqs : ∀ x p, (phaseAt s' x).request = some p → (phaseAt s x).request = some p := by
    intro x p hx
    rw [hat] at hx
    split at hx
    next hxc =>
      obtain rfl : r = p := by simpa [Phase.request] using hx
      exact hxc ▸ hreq
    next => exact hx
  exact {
    control := hcontrol
    placed := hplaced
    pairs := hpairs
    tail := by
      intro j hj
      rw [points_append, replay_append, ← h.tail j hj, ← he]
      by_cases hji : j = i
      · subst hji
        simp [actOf, hj, points, replay]
      · have hin : i + 1 ≠ n := by omega
        simp [actOf, hji, hin, points, replay]
    reads := fun x p hx => h.reads x p (hreqs x p hx)
    sent := fun x p hx => List.mem_append_left _ (h.sent x p (hreqs x p hx))
    count := by
      intro k q hk
      have hk : .sent k q ∈ tr := by
        by_cases hi : i + 1 = n <;> simpa [actOf, hi] using hk
      rw [← he]
      exact h.count k q hk
    once := fun x y p q hx hy => h.once x y p q (hback x p hx) (hback y q hy)
    early := by
      intro x p hx
      have hxc : x ≠ (i, c) := by
        rintro rfl
        simp [hat, Early, Phase.executed] at hx
      have hold : Early (phaseAt s x) p := by simpa [hat, hxc] using hx
      intro hm
      rw [points_append, List.map_append] at hm
      obtain hm | hm := List.mem_append.mp hm
      · exact h.early x p hold hm
      · by_cases hi : i + 1 = n
        · have hid : p.id = r.id := by simpa [actOf, hi, points] using hm
          exact hxc (h.once x (i, c) p r hold.1 hact hid)
        · simp [actOf, hi, points] at hm
    done := by
      intro x p m hx
      rw [hat] at hx
      split at hx
      next =>
        obtain ⟨rfl, rfl⟩ : r = p ∧ (serve t r.msg (s.srv i).list).1 = m := by
          simpa [Phase.executed] using hx
        exact hans
      next => exact answered_append (h.done x p m hx) }

theorem linear_step {l : Label} (h : Linear n t tr s) (hg : FromStub n l)
    (hs : step n t s l = some s') : Linear n t (tr ++ actOf n l) s' := by
  cases l with
  | send i c r => exact linear_send h hg hs
  | own i a =>
    obtain ⟨ha, u, hu, he⟩ := step_own.mp hs
    have hl : ∀ j, (s'.srv j).list = (s.srv j).list := he ▸ set_list s (own_frame ha hu).1
    simpa [actOf] using linear_moves h hg (moves_own hs) (fun _ _ _ he => by cases he)
      (by simp [← he]) hl hs
  | forward i c =>
    obtain ⟨r, -, -, -, he⟩ := ChainSystem.step_forward.mp hs
    have hl : ∀ j, (s'.srv j).list = (s.srv j).list := fun j => by
      rw [← he, set_list _ (by simp), set_list s (by rfl)]
    simpa [actOf] using linear_moves h hg (moves_forward h.control hs)
      (fun _ _ _ he => by cases he) (by simp [← he]) hl hs
  | back i c =>
    obtain ⟨r, r', m, -, -, he⟩ := ChainSystem.step_back.mp hs
    have hl : ∀ j, (s'.srv j).list = (s.srv j).list := fun j => by
      rw [← he, set_list _ (by simp), set_list s (by rfl)]
    simpa [actOf] using linear_moves h hg (moves_back h.control hs)
      (fun _ _ _ he => by cases he) (by simp [← he]) hl hs
  | invoke i c r => exact linear_invoke h hs
  | answer i c r m => exact linear_answer h hs

def events (ls : List Label) : List (Event MessageT MessageT) := ls.flatMap fun
  | .send _ _ r => [.sent r.id r.msg]
  | .answer _ _ r m => [.answered r.id m]
  | _ => []

def Executed (ls : List Label) (k : Nat) : Prop := ∃ i c r, .invoke i c r ∈ ls ∧ r.id = k

theorem history_trace (n : Nat) (ls : List Label) : history (trace n ls) = events ls := by
  induction ls with
  | nil => rfl
  | cons l ls ih =>
    simp only [trace, events, List.flatMap_cons, history_append] at ih ⊢
    rw [ih]
    congr 1
    cases l with
    | invoke i c r => by_cases hi : i + 1 = n <;> simp [actOf, hi, history]
    | _ => rfl

theorem mem_points_trace {ls : List Label} {k : Nat} {q : MessageT}
    (h : (k, q) ∈ points (trace n ls)) : Executed ls k := by
  obtain ⟨l, hl, hp⟩ := List.mem_flatMap.mp (mem_points.mp h)
  cases l with
  | invoke i c r =>
    by_cases hi : i + 1 = n
    · obtain ⟨rfl, -⟩ : k = r.id ∧ q = r.msg := by simpa [actOf, hi] using hp
      exact ⟨i, c, r, hl, rfl⟩
    · simp [actOf, hi] at hp
  | _ => simp [actOf] at hp

/-- The invariant of a run with the executions it contains. -/
structure Progress (n : Nat) (t : AnoAtual) (ls : List Label) (s : Chain) : Prop where
  linear : Linear n t (trace n ls) s
  executed : ∀ k, Executed ls k → k ∈ (points (trace n ls)).map Prod.fst

theorem progress_step {l : Label} {ls : List Label} (h : Progress n t ls s) (hg : FromStub n l)
    (hs : step n t s l = some s') : Progress n t (ls ++ [l]) s' := by
  have htr : trace n (ls ++ [l]) = trace n ls ++ actOf n l := by simp [trace]
  refine ⟨htr ▸ linear_step h.linear hg hs, fun k hk => ?_⟩
  obtain ⟨i, c, r, hm, rfl⟩ := hk
  obtain hm | hm := List.mem_append.mp hm
  · rw [htr, points_append, List.map_append]
    exact List.mem_append_left _ (h.executed _ ⟨i, c, r, hm, rfl⟩)
  · obtain rfl : .invoke i c r = l := by simpa using hm
    have ha := (linear_point h.linear hs).2
    rw [htr, ← replay_fst (serve t) listCreate]
    exact List.mem_map.mpr ⟨_, ha, rfl⟩

/-- A stable chain answers as one list does: the requests that were executed
have an order, compatible with the order in time of answers and later
requests, in which a single list gives every answer that a client received. -/
theorem chain_linearizable (n : Nat) (ano : Int) (ls : List Label) (s : Chain)
    (hstub : ∀ l ∈ ls, FromStub n l)
    (hrun : run (step n (.same ano)) (Chain.start n listCreate) ls = some s) :
    ∃ order, Linearization (serve (.same ano)) listCreate (events ls) order ∧
      ∀ k, k ∈ order.map Prod.fst ↔ Executed ls k := by
  have hstart : Progress n (.same ano) [] (Chain.start n listCreate) :=
    ⟨linear_start n _, fun k ⟨i, c, r, hm, _⟩ => by simp at hm⟩
  have h := run_trace_invariant (step n (.same ano)) (I := Progress n (.same ano))
    (fun ls s l u hp hg hs => progress_step hp hg hs) [] hstart (meets_of_labels _ hstub _) hrun
  rw [List.nil_append] at h
  refine ⟨points (trace n ls), history_trace n ls ▸ h.linear.placed.linearization, fun k => ?_⟩
  constructor
  · intro hk
    obtain ⟨⟨j, q⟩, hm, rfl⟩ := List.mem_map.mp hk
    exact mem_points_trace hm
  · exact h.executed k

def addThenSize : List Label :=
  writeSteps 0 ⟨0, toyotaRequest 2020⟩ (Skeleton.MessageT.added (toyotaRequest 2020)) ++
    readSteps 1 0 ⟨1, rlistSizeRequest⟩
      { rlistSizeRequest with opcode := opSize + 1, cType := ctResult, result := 1 }

theorem chain_linearizable_addThenSize :
    ∃ order, Linearization (serve (.same 2026)) listCreate (events addThenSize) order ∧
      ∀ k, k ∈ order.map Prod.fst ↔ Executed addThenSize k := by
  have hrun : (run (step 2 (.same 2026)) (Chain.start 2 listCreate) addThenSize).isSome := by decide
  obtain ⟨s, hs⟩ := Option.isSome_iff_exists.mp hrun
  refine chain_linearizable 2 2026 addThenSize s ?_ hs
  simp only [addThenSize, writeSteps, readSteps, List.cons_append, List.nil_append,
    List.forall_mem_cons, FromStub, true_and, List.not_mem_nil, false_imp_iff, implies_true,
    and_true]
  exact ⟨⟨.add (toyota 2020), rfl, rfl⟩, .size, rfl, rfl⟩

end ListServer.Linearizability
