import ListServer.OrderIndependence
import ListServer.WriteOrder

namespace ListServer.ReadsAnywhere

open Lib.CTypes CarList Message Skeleton ClientThread ChainSystem ChainControl Linearizability
open ChainPairs ClientStub WriteOrder OrderIndependence
open Lib.History Lib.Transition Lib.Replication

/-- What a client that sends only some kinds of reads can tell of the lists and
of the replies. -/
structure View (t : AnoAtual) (P : MessageT → Prop) (V : Type) where
  Same : ListT → ListT → Prop
  seen : MessageT → MessageT → V
  refl : ∀ l, Same l l
  both : ∀ {l l'} msg, Same l l' → Same (after t msg l) (after t msg l')
  read : ∀ {l l' msg}, needsForward msg = false → P msg → Same l l' → Same (after t msg l) l'
  seen_eq : ∀ {l l'} msg, Same l l' → seen msg (reply t msg l) = seen msg (reply t msg l')

variable {t : AnoAtual} {P : MessageT → Prop} {V : Type}

def View.serve (v : View t P V) (msg : MessageT) (list : ListT) : V × ListT :=
  (v.seen msg (reply t msg list), after t msg list)

def Reads (P : MessageT → Prop) : Label → Prop
  | .send _ _ r => needsForward r.msg = false → P r.msg
  | .own .. | .forward .. | .back .. | .invoke .. | .answer .. => True

instance [DecidablePred P] : DecidablePred (Reads P)
  | .send _ _ r => inferInstanceAs (Decidable (needsForward r.msg = false → P r.msg))
  | .own .. | .forward .. | .back .. | .invoke .. | .answer .. => isTrue trivial

/-- The linearization point of a write is its execution by the last server, that
of a read its own execution, wherever that is. -/
def pointOf (v : View t P V) (n : Nat) : Label → List (Act MessageT V)
  | .send _ _ r => [.sent r.id r.msg]
  | .invoke i _ r => if needsForward r.msg = false ∨ i + 1 = n then [.point r.id r.msg] else []
  | .answer _ _ r m => [.answered r.id (v.seen r.msg m)]
  | .own .. | .forward .. | .back .. => []

def given (v : View t P V) (list : ListT) (tr : List (Act MessageT V)) : List (Nat × V) :=
  (replay v.serve list (points tr)).1

def single (v : View t P V) (list : ListT) (tr : List (Act MessageT V)) : ListT :=
  (replay v.serve list (points tr)).2

section Replay

variable {v : View t P V} {list : ListT} {tr us : List (Act MessageT V)}

theorem given_append {e : Nat × V} (h : e ∈ given v list tr) : e ∈ given v list (tr ++ us) := by
  rw [given, points_append, replay_append]
  exact List.mem_append_left _ h

theorem given_point (k : Nat) (msg : MessageT) :
    (k, v.seen msg (reply t msg (single v list tr))) ∈ given v list (tr ++ [.point k msg]) := by
  rw [given, points_append, replay_append]
  exact List.mem_append_right _ List.mem_cons_self

theorem single_point (k : Nat) (msg : MessageT) :
    single v list (tr ++ [.point k msg]) = after t msg (single v list tr) := by
  rw [single, points_append, replay_append]
  rfl

theorem executeAll_append (l : ListT) (rs : List Request) (r : Request) :
    executeAll t l (rs ++ [r]) = after t r.msg (executeAll t l rs) := by
  rw [executeAll, List.foldl_append]
  rfl

end Replay

section Locked

variable {n : Nat} {s : Chain} {list : ListT} {log : Log Request}

theorem locked_above (h : Control n s) {i : Nat} {r : Request} (ha : Ahead s i r) {j : Nat}
    (hj : j ≤ i) : ∃ d, (s.srv j).phase d = .waiting r ∨ (s.srv j).phase d = .forwarded r 0 := by
  obtain ⟨k, rfl⟩ := Nat.exists_eq_add_of_le hj
  induction k generalizing j with
  | zero =>
    obtain ⟨m, hm⟩ | ⟨d, hd⟩ := ha
    · obtain ⟨d, hd⟩ := (h.link j r).mp (executed_request hm)
      exact ⟨d, .inl hd⟩
    · exact ⟨d, .inr hd⟩
  | succ k ih =>
    obtain ⟨d, hd⟩ := ih (j := j + 1) (by rwa [Nat.succ_add_eq_add_succ]) (by omega)
    have hforwards : ((s.srv (j + 1)).phase d).forwards = some r := by
      obtain hd | hd := hd <;> rw [hd] <;> rfl
    have hreq := forwards_request hforwards
    obtain rfl := h.write_pred hreq ((h.locks (j + 1)).writes d r hforwards)
    obtain ⟨e, he⟩ := (h.link j r).mp hreq
    exact ⟨e, .inl he⟩

/-- A server that executes a read has every write that the last one has. -/
theorem read_level (h : Ordered n t list s log) {i : Nat} {c : Conn} {r : Request}
    (hc : (s.srv i).phase c = .locked r) : log.view i = log.all := by
  refine view_eq_all fun k q hpend => ?_
  by_contra hk
  obtain ⟨hpos, hkn⟩ := h.place k q hpend
  obtain ⟨k, rfl⟩ : ∃ j, k = j + 1 := ⟨k - 1, by omega⟩
  have hik : i ≤ k := by omega
  obtain ⟨d, hd⟩ := locked_above h.control ((h.ahead k q hkn).mpr hpend) hik
  obtain rfl : d = c := by
    refine h.control.unique (i := i) ?_ (by rw [hc]; rfl)
    obtain hd | hd := hd <;> rw [hd] <;> rfl
  obtain hd | hd := hd <;> rw [hc] at hd <;> cases hd

end Locked

/-- The chain answers like the single list that executes the requests at their
points. -/
structure Atomic (v : View t P V) (n : Nat) (list : ListT) (tr : List (Act MessageT V))
    (s : Chain) (log : Log Request) : Prop where
  ordered : Ordered n t list s log
  placed : Placed v.serve list tr
  lists : ∀ i, i < n → v.Same (s.srv i).list (executeAll t list (log.view i))
  single : v.Same (single v list tr) (executeAll t list log.all)
  allowed : ∀ x r, (phaseAt s x).request = some r → needsForward r.msg = false → P r.msg
  sent : ∀ x r, (phaseAt s x).request = some r → .sent r.id r.msg ∈ tr
  count : ∀ k q, .sent k q ∈ tr → k < s.count
  early : ∀ x r, Early (phaseAt s x) r → r.id ∉ (points tr).map Prod.fst
  pending : ∀ k r, log.pending = some (k, r) →
    (r.id, v.seen r.msg (reply t r.msg (executeAll t list log.settled))) ∈ given v list tr
  done : ∀ x r m, (phaseAt s x).executed = some (r, m) → (r.id, v.seen r.msg m) ∈ given v list tr

section Steps

variable {v : View t P V} {n : Nat} {list : ListT} {tr : List (Act MessageT V)} {s s' : Chain}
  {log : Log Request} {l : Label}

theorem atomic_start (v : View t P V) (n : Nat) (list : ListT) :
    Atomic v n list [] (Chain.start n list) Log.empty where
  ordered := ordered_start n t list
  placed := .nil
  lists i _ := v.refl list
  single := v.refl list
  allowed x r h := by cases h
  sent x r h := by cases h
  count k q h := by cases h
  early x r h := by cases h.1.1
  pending k r h := by cases h
  done x r m h := by cases h

theorem atomic_moves (h : Atomic v n list tr s log) (hordered : Ordered n t list s' log)
    (hm : Moves s s') (hcount : s'.count = s.count)
    (hlist : ∀ i, (s'.srv i).list = (s.srv i).list) : Atomic v n list tr s' log := by
  obtain ⟨g, -, hback⟩ := hm.back
  exact {
    ordered := hordered
    placed := h.placed
    lists := fun i hi => hlist i ▸ h.lists i hi
    single := h.single
    allowed := fun x r hx hr => by
      obtain ⟨y, hy, -⟩ := hm.request x r hx
      exact h.allowed y r hy hr
    sent := fun x r hx => by
      obtain ⟨y, hy, -⟩ := hm.request x r hx
      exact h.sent y r hy
    count := hcount ▸ h.count
    early := fun x r hx => h.early (g x) r ((hback x r hx.1).2 hx)
    pending := h.pending
    done := fun x r m hx => h.done x r m (hm.executed x r m hx) }

theorem atomic_send {i c : Nat} {r : Request} (h : Atomic v n list tr s log)
    (hordered : Ordered n t list s' log) (hl : Reads P (.send i c r))
    (hs : step n t s (.send i c r) = some s') :
    Atomic v n list (tr ++ [.sent r.id r.msg]) s' log := by
  obtain ⟨-, hid, hc, rfl⟩ := step_send.mp hs
  have hpoints : points (tr ++ [.sent r.id r.msg]) = points tr := by simp [points]
  have hnew : ∀ k q, .sent k q ∈ tr → k ≠ r.id := fun k q hk => by
    have hlt := h.count k q hk
    omega
  have hat : ∀ x, phaseAt { s.set i ((s.srv i).setPhase (.client c) (.sent r)) with
      count := s.count + 1 } x = if x = (i, .client c) then .sent r else phaseAt s x :=
    at_set (s := s) (i := i) (c := .client c) (p := .sent r)
      (u := (s.srv i).setPhase (.client c) (.sent r)) rfl
  have hold : ∀ x q, (phaseAt { s.set i ((s.srv i).setPhase (.client c) (.sent r)) with
      count := s.count + 1 } x).request = some q → r = q ∨ (phaseAt s x).request = some q := by
    intro x q hx
    rw [hat] at hx
    split at hx
    next => exact .inl (Option.some.inj hx)
    next => exact .inr hx
  exact {
    ordered := hordered
    placed := .sent h.placed fun q hq => hnew _ _ hq rfl
    lists := fun j hj => by
      have hsame := set_list s (i := i) (u := (s.srv i).setPhase (.client c) (.sent r)) rfl j
      show v.Same ((s.set i ((s.srv i).setPhase (.client c) (.sent r))).srv j).list _
      rw [hsame]
      exact h.lists j hj
    single := by
      rw [ReadsAnywhere.single, hpoints]
      exact h.single
    allowed := fun x q hx hq => by
      obtain rfl | hx := hold x q hx
      · exact hl hq
      · exact h.allowed x q hx hq
    sent := fun x q hx => by
      obtain rfl | hx := hold x q hx
      · exact List.mem_append_right _ List.mem_cons_self
      · exact List.mem_append_left _ (h.sent x q hx)
    count := fun k q hk => by
      obtain hk | hk := List.mem_append.mp hk
      · exact Nat.lt_succ_of_lt (h.count k q hk)
      · obtain ⟨rfl, -⟩ : k = r.id ∧ q = r.msg := by simpa using hk
        exact hid ▸ Nat.lt_succ_self _
    early := fun x q hx => by
      rw [hpoints]
      rw [hat] at hx
      split at hx
      next =>
        obtain rfl : r = q := Option.some.inj hx.1.1
        intro hm
        obtain ⟨⟨k, p⟩, hp, hk⟩ := List.mem_map.mp hm
        exact hnew k p ((placed_points h.placed).2 k p hp) hk
      next => exact h.early x q hx
    pending := fun k q hk => given_append (h.pending k q hk)
    done := fun x q m hx => by
      rw [hat] at hx
      split at hx
      next => cases hx
      next => exact given_append (h.done x q m hx) }

theorem atomic_answer {i c : Nat} {r : Request} {m : MessageT} (h : Atomic v n list tr s log)
    (hordered : Ordered n t list s' log) (hs : step n t s (.answer i c r m) = some s') :
    Atomic v n list (tr ++ [.answered r.id (v.seen r.msg m)]) s' log := by
  have hmoves := moves_answer hs
  obtain ⟨hc, rfl⟩ := step_answer.mp hs
  have hu := atomic_moves h hordered hmoves rfl fun j => set_list s (by rfl) j
  have hpoints : points (tr ++ [.answered r.id (v.seen r.msg m)]) = points tr := by simp [points]
  have hsent : ∀ k q, .sent k q ∈ tr ++ [.answered r.id (v.seen r.msg m)] ↔ .sent k q ∈ tr := by
    simp
  exact {
    ordered := hordered
    placed := .answered h.placed (h.done (i, .client c) r m (by rw [phaseAt, hc]; rfl))
    lists := hu.lists
    single := by
      rw [ReadsAnywhere.single, hpoints]
      exact h.single
    allowed := hu.allowed
    sent := fun x q hx => (hsent _ _).mpr (hu.sent x q hx)
    count := fun k q hk => hu.count k q ((hsent k q).mp hk)
    early := fun x q hx => hpoints ▸ hu.early x q hx
    pending := fun k q hk => given_append (h.pending k q hk)
    done := fun x q p hx => given_append (hu.done x q p hx) }

theorem request_unique (h : Atomic v n list tr s log) {x y : Place} {p q : Request}
    (hx : (phaseAt s x).request = some p) (hy : (phaseAt s y).request = some q)
    (hid : p.id = q.id) : p = q := by
  have hmsg : p.msg = q.msg :=
    placed_sent_unique h.placed (h.sent x p hx) (hid ▸ h.sent y q hy)
  obtain ⟨k, msg⟩ := p
  exact congrArg₂ Request.mk hid hmsg

theorem invoke_effect {i : Nat} {c : Conn} {r : Request} (h : Control n s)
    (hs : step n t s (.invoke i c r) = some s') :
    (∀ j, (s'.srv j).list = if j = i then after t r.msg (s.srv i).list else (s.srv j).list) ∧
      ∀ x q m, (phaseAt s' x).executed = some (q, m) →
        (q = r ∧ m = reply t r.msg (s.srv i).list) ∨ (phaseAt s x).executed = some (q, m) := by
  obtain ⟨rc, hp, rfl⟩ := ChainSystem.step_invoke.mp hs
  have hserve : afterForward t rc r.msg (s.srv i).list = serve t r.msg (s.srv i).list := by
    obtain ⟨-, -, rfl⟩ | hp := hp
    · rfl
    · rw [h.code i c r rc hp]
      split <;> rfl
  rw [hserve]
  refine ⟨fun j => ?_, fun x q m hx => ?_⟩
  · by_cases hj : j = i
    · subst hj
      rw [set_self, if_pos rfl]
      rfl
    · rw [set_ne _ _ hj, if_neg hj]
  · rw [at_set (s := s) (i := i) (c := c) (u := { (s.srv i).setPhase c
      (.invoked r (serve t r.msg (s.srv i).list).1) with
        list := (serve t r.msg (s.srv i).list).2 }) rfl] at hx
    split at hx
    next =>
      obtain ⟨rfl, rfl⟩ := Prod.mk.inj (Option.some.inj hx)
      exact .inl ⟨rfl, rfl⟩
    next => exact .inr hx

/-- What the points, the lists and the answers have to do for an execution to
keep the invariant. -/
theorem atomic_execute {i : Nat} {c : Conn} {r : Request} {log' : Log Request}
    (h : Atomic v n list tr s log) (hordered : Ordered n t list s' log')
    (hs : step n t s (.invoke i c r) = some s')
    (hplaced : Placed v.serve list (tr ++ pointOf v n (.invoke i c r)))
    (hlists : ∀ j, j < n → v.Same (s'.srv j).list (executeAll t list (log'.view j)))
    (hsingle : v.Same (single v list (tr ++ pointOf v n (.invoke i c r)))
      (executeAll t list log'.all))
    (hpending : ∀ k q, log'.pending = some (k, q) →
      (q.id, v.seen q.msg (reply t q.msg (executeAll t list log'.settled))) ∈
        given v list (tr ++ pointOf v n (.invoke i c r)))
    (hgiven : (r.id, v.seen r.msg (reply t r.msg (s.srv i).list)) ∈
      given v list (tr ++ pointOf v n (.invoke i c r))) :
    Atomic v n list (tr ++ pointOf v n (.invoke i c r)) s' log' := by
  have hframe := executes_invoke hs
  have heffect := invoke_effect h.ordered.control hs
  have hact : Active (phaseAt s (i, c)) r := by
    obtain ⟨rc, hp, -⟩ := ChainSystem.step_invoke.mp hs
    exact (invoke_place hp).imp_right fun hwait => hwait r
  have hcount : s'.count = s.count := by
    obtain ⟨rc, -, rfl⟩ := ChainSystem.step_invoke.mp hs
    rfl
  exact {
    ordered := hordered
    placed := hplaced
    lists := hlists
    single := hsingle
    allowed := fun x q hx => h.allowed x q (hframe.request x q hx)
    sent := fun x q hx => List.mem_append_left _ (h.sent x q (hframe.request x q hx))
    count := fun k q hk => by
      have hk : .sent k q ∈ tr := by
        rw [pointOf] at hk
        split at hk <;> simpa using hk
      exact hcount ▸ h.count k q hk
    early := fun x q hx hm => by
      obtain ⟨hxc, hold⟩ := hframe.early x q hx
      rw [points_append, List.map_append] at hm
      obtain hm | hm := List.mem_append.mp hm
      · exact h.early x q hold hm
      · rw [pointOf] at hm
        split at hm
        next =>
          have hid : q.id = r.id := List.mem_singleton.mp hm
          obtain rfl := request_unique h hold.1.1 hact.1 hid
          exact hxc (h.ordered.once x (i, c) q hold.1 hact)
        next => cases hm
    pending := hpending
    done := fun x q m hx => by
      obtain ⟨rfl, rfl⟩ | hx := heffect.2 x q m hx
      · exact hgiven
      · exact given_append (h.done x q m hx) }

theorem atomic_read {i : Nat} {c : Conn} {r : Request} (h : Atomic v n list tr s log)
    (hordered : Ordered n t list s' log) (hs : step n t s (.invoke i c r) = some s')
    (hr : needsForward r.msg = false) :
    Atomic v n list (tr ++ pointOf v n (.invoke i c r)) s' log := by
  obtain ⟨hlist, -⟩ := invoke_effect h.ordered.control hs
  obtain ⟨rc, hp, -⟩ := ChainSystem.step_invoke.mp hs
  have hc : (s.srv i).phase c = .locked r := by
    obtain ⟨hc, -⟩ | hc := hp
    · exact hc
    · have hw := (h.ordered.control.locks i).writes c r (by rw [hc]; rfl)
      rw [hr] at hw
      cases hw
  have hreq : (phaseAt s (i, c)).request = some r := by rw [phaseAt, hc]; rfl
  have hi : i < n := h.ordered.control.inside i c r hreq
  have hallowed := h.allowed (i, c) r hreq hr
  have hearly : Early (phaseAt s (i, c)) r := by
    simp [Early, Active, phaseAt, hc, Phase.request, Phase.executed]
  have hsame := h.lists i hi
  rw [read_level h.ordered hc] at hsame
  have hseen : v.seen r.msg (reply t r.msg (s.srv i).list) =
      v.seen r.msg (reply t r.msg (single v list tr)) :=
    (v.seen_eq r.msg hsame).trans (v.seen_eq r.msg h.single).symm
  have hpoint : pointOf v n (.invoke i c r) = [.point r.id r.msg] := by
    rw [pointOf, if_pos (.inl hr)]
  refine atomic_execute h hordered hs ?_ (fun j hj => ?_) ?_
    (fun k q hk => given_append (h.pending k q hk)) ?_
  · rw [hpoint]
    exact .point h.placed (h.sent (i, c) r hreq) (h.early (i, c) r hearly)
  · rw [hlist]
    split
    next hj => exact v.read hr hallowed (hj ▸ h.lists i hi)
    next => exact h.lists j hj
  · rw [hpoint, single_point]
    exact v.read hr hallowed h.single
  · rw [hpoint, hseen]
    exact given_point r.id r.msg

theorem atomic_write {i : Nat} {c : Conn} {r : Request} (h : Atomic v n list tr s log)
    (hs : step n t s (.invoke i c r) = some s') (hr : needsForward r.msg = true) :
    Atomic v n list (tr ++ pointOf v n (.invoke i c r)) s' (log.reach i r) := by
  obtain ⟨hstep, hordered⟩ := ordered_write h.ordered hs hr
  obtain ⟨hlist, -⟩ := invoke_effect h.ordered.control hs
  obtain ⟨rc, hp, -⟩ := ChainSystem.step_invoke.mp hs
  have hreq : (phaseAt s (i, c)).request = some r := (invoke_place hp).1
  have hi : i < n := h.ordered.control.inside i c r hreq
  have hlists : ∀ j, j < n →
      v.Same (s'.srv j).list (executeAll t list ((log.reach i r).view j)) := fun j hj => by
    rw [hlist, view_execute hstep hj, own_single]
    by_cases hji : j = i
    · subst hji
      rw [if_pos rfl, if_pos rfl, executeAll_append]
      exact v.both r.msg (h.lists j hi)
    · rw [if_neg hji, if_neg (Ne.symm hji), List.append_nil]
      exact h.lists j hj
  have hpend : ∀ k q, (log.reach i r).pending = some (k, q) →
      q = r ∧ (log.reach i r).settled = log.settled := fun k q hk => by
    rw [Log.reach] at hk ⊢
    split at hk
    next => cases hk
    next hne =>
      rw [if_neg hne]
      exact ⟨(Prod.mk.inj (Option.some.inj hk)).2.symm, rfl⟩
  obtain ⟨hnone, hn⟩ | hpass := (execute_eq_some.mp hstep).1
  -- the last server starts the write
  · have hpoint : pointOf v n (.invoke i c r) = [.point r.id r.msg] := by
      rw [pointOf, if_pos (.inr hn)]
    have hearly := active_early hn (h.ordered.control.code i c r) (hp.imp_left And.left)
    have hall : log.all = log.settled := by simp [Log.all, hnone]
    have hview : log.view i = log.settled := view_none hnone i
    have hsame := h.single
    rw [hall] at hsame
    refine atomic_execute h hordered hs ?_ hlists ?_ (fun k q hk => ?_) ?_
    · rw [hpoint]
      exact .point h.placed (h.sent (i, c) r hreq) (h.early (i, c) r hearly)
    · rw [hpoint, single_point, all_start hnone, executeAll_append]
      exact v.both r.msg h.single
    · obtain ⟨rfl, hsettled⟩ := hpend k q hk
      rw [hpoint, hsettled, ← v.seen_eq q.msg hsame]
      exact given_point q.id q.msg
    · rw [hpoint, v.seen_eq r.msg (hview ▸ h.lists i hi), ← v.seen_eq r.msg hsame]
      exact given_point r.id r.msg
  -- the others follow
  · have hin : i + 1 < n := (h.ordered.place (i + 1) r hpass).2
    have hpoint : pointOf v n (.invoke i c r) = [] := by
      rw [pointOf, if_neg (by simp [hr]; omega)]
    have hview : log.view i = log.settled := by rw [view_some hpass, if_neg (by omega)]
    refine atomic_execute h hordered hs ?_ hlists ?_ (fun k q hk => ?_) ?_
    · rw [hpoint, List.append_nil]
      exact h.placed
    · rw [hpoint, List.append_nil, all_pass hpass]
      exact h.single
    · obtain ⟨rfl, hsettled⟩ := hpend k q hk
      rw [hpoint, List.append_nil, hsettled]
      exact h.pending (i + 1) q hpass
    · rw [hpoint, List.append_nil, v.seen_eq r.msg (hview ▸ h.lists i hi)]
      exact h.pending (i + 1) r hpass

theorem atomic_step (h : Atomic v n list tr s log) (hhead : WritesAtHead l) (hl : Reads P l)
    (hs : step n t s l = some s') : ∃ log', Atomic v n list (tr ++ pointOf v n l) s' log' := by
  obtain ⟨log', hrun, hordered⟩ := ordered_step h.ordered hhead hs
  cases l with
  | send i c r =>
    obtain rfl : log = log' := Option.some.inj hrun
    exact ⟨log, atomic_send h hordered hl hs⟩
  | own i a =>
    obtain rfl : log = log' := Option.some.inj hrun
    have hmoves := moves_own hs
    obtain ⟨ha, u, hu, rfl⟩ := step_own.mp hs
    rw [pointOf, List.append_nil]
    exact ⟨log, atomic_moves h hordered hmoves rfl fun j => set_list s (own_frame ha hu).1 j⟩
  | forward i c =>
    obtain rfl : log = log' := Option.some.inj hrun
    have hmoves := moves_forward h.ordered.control hs
    obtain ⟨r, -, -, -, rfl⟩ := ChainSystem.step_forward.mp hs
    rw [pointOf, List.append_nil]
    exact ⟨log, atomic_moves h hordered hmoves rfl fun j =>
      (set_list _ (by simp) j).trans (set_list s (by rfl) j)⟩
  | back i c =>
    obtain rfl : log = log' := Option.some.inj hrun
    have hmoves := moves_back h.ordered.control hs
    obtain ⟨r, r', m, -, -, rfl⟩ := ChainSystem.step_back.mp hs
    rw [pointOf, List.append_nil]
    exact ⟨log, atomic_moves h hordered hmoves rfl fun j =>
      (set_list _ (by simp) j).trans (set_list s (by rfl) j)⟩
  | invoke i c r =>
    cases hr : needsForward r.msg with
    | false =>
      have hnone : writeOf (.invoke i c r) = none := by simp [writeOf, hr]
      rw [hnone] at hrun
      obtain rfl : log = log' := Option.some.inj hrun
      exact ⟨log, atomic_read h hordered hs hr⟩
    | true => exact ⟨log.reach i r, atomic_write h hs hr⟩
  | answer i c r m =>
    obtain rfl : log = log' := Option.some.inj hrun
    exact ⟨log, atomic_answer h hordered hs⟩

end Steps

def seenEvents (v : View t P V) (ls : List Label) : List (Event MessageT V) := ls.flatMap fun
  | .send _ _ r => [.sent r.id r.msg]
  | .answer _ _ r m => [.answered r.id (v.seen r.msg m)]
  | _ => []

theorem history_points (v : View t P V) (n : Nat) (ls : List Label) :
    history (ls.flatMap (pointOf v n)) = seenEvents v ls := by
  induction ls with
  | nil => rfl
  | cons l ls ih =>
    rw [seenEvents] at ih ⊢
    rw [List.flatMap_cons, List.flatMap_cons, history_append, ih]
    congr 1
    cases l with
    | invoke i c r =>
      rw [pointOf]
      split <;> rfl
    | _ => rfl

theorem linearizable_view (v : View t P V) (n : Nat) (list : ListT) (ls : List Label) (s : Chain)
    (hhead : ∀ l ∈ ls, WritesAtHead l) (hreads : ∀ l ∈ ls, Reads P l)
    (hrun : run (step n t) (Chain.start n list) ls = some s) :
    ∃ order, Linearization v.serve list (seenEvents v ls) order := by
  obtain ⟨log, h⟩ : ∃ log, Atomic v n list (ls.flatMap (pointOf v n)) s log :=
    run_trace_invariant (step n t) (G := fun _ l => WritesAtHead l ∧ Reads P l)
      (I := fun ls s => ∃ log, Atomic v n list (ls.flatMap (pointOf v n)) s log)
      (fun ls _ l _ ⟨_, h⟩ hl hs => by
        rw [List.flatMap_append, List.flatMap_singleton]
        exact atomic_step h hl.1 hl.2 hs)
      [] ⟨Log.empty, atomic_start v n list⟩
      (meets_of_labels _ (fun l hl => ⟨hhead l hl, hreads l hl⟩) _) hrun
  exact ⟨_, history_points v n ls ▸ h.placed.linearization⟩

/-- A reply without the order of its models. The cars of a reply depend on the
order that the clients have asked a single server for. -/
inductive Seen
  | reply (m : MessageT)
  | models (m : MessageT) (models : Multiset CString)
  | cars

def seen (msg m : MessageT) : Seen :=
  if msg.opcode = opGet ∨ msg.opcode = opGetListByYear then .cars
  else if msg.opcode = opGetModels then .models { m with models := [] } m.models
  else .reply m

theorem seen_congr {l l' : ListT} (msg : MessageT) (h : SameModels l l') :
    seen msg (reply t msg l) = seen msg (reply t msg l') := by
  rw [seen, seen]
  split
  next => rfl
  next hcars =>
    rw [not_or] at hcars
    have hsize : listSize l = listSize l' := h.size
    split
    next hop =>
      have hinv : ∀ list, reply t msg list = (invokeGetModels msg list).2.1 := fun list => by
        rw [reply, serve, invoke, hop]
        rfl
      rw [hinv, hinv, invokeGetModels, invokeGetModels, hsize]
      exact congrArg (Seen.models _) h.models
    next hmodels =>
      by_cases hs : msg.opcode = opSize
      · exact congrArg Seen.reply ((agree_reply ⟨t, msg⟩ h).equal (.inr (.inr hs)))
      · have hop : msg.opcode ∉ [opSize, opGet, opGetListByYear, opGetModels] := by
          simp [hs, hcars.1, hcars.2, hmodels]
        exact congrArg Seen.reply (reply_congr hop t h.models)

/-- The replies up to the order of the models, whatever reads the clients send. -/
def byModels (t : AnoAtual) : View t (fun _ => True) Seen where
  Same := SameModels
  seen := seen
  refl _ := ⟨rfl, rfl⟩
  both msg h := sameModels_after t msg h
  read hr _ h := SameModels.trans (sameModels_read (not_add hr) (not_del hr) t _) h
  seen_eq msg h := seen_congr msg h

def Reorders (msg : MessageT) : Prop := msg.opcode = opGetListByYear ∧ msg.result = -1

instance : DecidablePred Reorders := fun msg =>
  inferInstanceAs (Decidable (msg.opcode = opGetListByYear ∧ msg.result = -1))

/-- The whole replies, if no client asks for the order. -/
def exact (t : AnoAtual) : View t (fun msg => ¬ Reorders msg) MessageT where
  Same := Eq
  seen _ m := m
  refl _ := rfl
  both msg h := congrArg (after t msg) h
  read hr horder h := by
    rw [after_read (not_add hr) (not_del hr), h]
    exact if_neg horder
  seen_eq msg h := congrArg (reply t msg) h

/-- A stable chain answers as one list does, to whichever servers the clients
send their reads: up to the order of the models, and exactly if nobody has
asked for an order. -/
theorem reads_anywhere (n : Nat) (list : ListT) (t : AnoAtual) (ls : List Label) (s : Chain)
    (hhead : ∀ l ∈ ls, WritesAtHead l) (hrun : run (step n t) (Chain.start n list) ls = some s) :
    (∃ order, Linearization (byModels t).serve list (seenEvents (byModels t) ls) order) ∧
      ((∀ l ∈ ls, Reads (fun msg => ¬ Reorders msg) l) →
        ∃ order, Linearization (serve t) list (events ls) order) := by
  refine ⟨?_, fun hreads => ?_⟩
  · refine linearizable_view (byModels t) n list ls s hhead (fun l _ => ?_) hrun
    cases l <;> simp [Reads]
  · exact linearizable_view (exact t) n list ls s hhead hreads hrun

/-- A read at the last server while an addition is on its way back, and one at
the head after it. -/
def readsAtBoth : List Label :=
  let write := writeSteps 0 ⟨0, toyotaRequest 2020⟩ (Skeleton.MessageT.added (toyotaRequest 2020))
  let sized := { rlistSizeRequest with opcode := opSize + 1, cType := ctResult, result := 1 }
  write.take 11 ++ readSteps 1 0 ⟨1, rlistSizeRequest⟩ sized ++ write.drop 11 ++
    readSteps 0 1 ⟨2, rlistSizeRequest⟩ sized

theorem reads_anywhere_both :
    (∃ order, Linearization (byModels (.same 2026)).serve listCreate
      (seenEvents (byModels (.same 2026)) readsAtBoth) order) ∧
      ∃ order, Linearization (serve (.same 2026)) listCreate (events readsAtBoth) order := by
  have hrun : (run (step 2 (.same 2026)) (Chain.start 2 listCreate) readsAtBoth).isSome := by
    decide
  obtain ⟨s, hs⟩ := Option.isSome_iff_exists.mp hrun
  obtain ⟨hmodels, hexact⟩ :=
    reads_anywhere 2 listCreate (.same 2026) readsAtBoth s (by decide) hs
  exact ⟨hmodels, hexact (by decide)⟩

end ListServer.ReadsAnywhere
