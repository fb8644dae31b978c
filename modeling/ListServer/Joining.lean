import ListServer.ChainControl
import ListServer.ListTransfer

namespace ListServer.Joining

open CarList Message Skeleton ClientThread ChainControl ListTransfer
open ChainSystem (isOwn)

/-- Where the main thread of the new server stands: it creates its znode, reads
the children, updates (there is no greater child), connects to its predecessor
and asks for its list, and accepts. -/
inductive Boot
  | start
  | created
  | listed
  | updated
  | connected
  | requested
  | fetched
  | accepting
  | failed
deriving DecidableEq, Repr

/-- Where the child watcher of the last server stands: until it has called
`update`, inside it with `rls_lock` held and connecting to the new server, which
sends READY when it accepts, and after it. -/
inductive Watch
  | armed
  | notified
  | updating
  | done
deriving DecidableEq, Repr

/-- The last server `p` of a chain and a server `n` that joins behind it. -/
structure State where
  p : Server
  n : Server
  boot : Boot
  watch : Watch

def State.start (list : ListT) : State :=
  ⟨Server.start list false, Server.start listCreate false, .start, .armed⟩

inductive Label
  | send (c : Nat) (r : Request)
  | own (a : Act)
  | invoke (c : Conn)
  | answer (c : Nat)
  | forward (c : Conn)
  | back (c : Conn)
  | nOwn (a : Act)
  | nInvoke (c : Conn)
  | main
  | notify
  | watchUpdate
  | watchReady
  | watchLost
deriving DecidableEq

def listRequest : Request := ⟨0, rlistGetListAddRequest⟩

/-- The steps of the new server's main thread that neither wait nor change lists. -/
def Boot.next : Boot → Option Boot
  | .start => some .created
  | .created => some .listed
  | .listed => some .updated
  | .updated => some .connected
  | .fetched => some .accepting
  | _ => none

/-- The next step of the new server's main thread. The last server is in its
accept loop, so connecting to it does not block. -/
def mainStep (t : AnoAtual) (s : State) : Option State :=
  match s.boot with
  | .connected =>
    (s.p.step t (.deliver .succ listRequest)).map fun p => { s with p := p, boot := .requested }
  | .requested =>
    match s.p.phase .succ with
    | .replied _ m =>
      (s.p.step t (.take .succ)).map fun p =>
        let (rc, list) := rlistGetListAdd t (some m) s.n.list
        { s with
          p := p, n := { s.n with list := list }, boot := if rc = -1 then .failed else .fetched }
    | _ => none
  | b => b.next.map fun b => { s with boot := b }

def step (t : AnoAtual) (s : State) : Label → Option State
  | .send c r => (s.p.step t (.deliver (.client c) r)).map fun p => { s with p := p }
  | .own a => if isOwn a then (s.p.step t a).map fun p => { s with p := p } else none
  | .invoke c => (s.p.step t (.invoke c)).map fun p => { s with p := p }
  | .answer c => (s.p.step t (.take (.client c))).map fun p => { s with p := p }
  | .forward c =>
    match s.p.phase c with
    | .linked r =>
      (s.p.step t (.forward c)).bind fun p =>
        (s.n.step t (.deliver .pred r)).map fun n => { s with p := p, n := n }
    | _ => none
  | .back c =>
    match s.n.phase .pred with
    | .replied _ m =>
      (s.p.step t (.back c (some m))).bind fun p =>
        (s.n.step t (.take .pred)).map fun n => { s with p := p, n := n }
    | _ => none
  | .nOwn a => if isOwn a then (s.n.step t a).map fun n => { s with n := n } else none
  | .nInvoke c => (s.n.step t (.invoke c)).map fun n => { s with n := n }
  | .main => mainStep t s
  | .notify =>
    if s.watch = .armed ∧ s.boot ≠ .start then some { s with watch := .notified } else none
  | .watchUpdate =>
    if s.watch = .notified ∧ s.p.rlsLock = none then
      some { s with p := { s.p with rlsLock := some .watcher }, watch := .updating }
    else none
  | .watchReady =>
    if s.watch = .updating ∧ s.boot = .accepting then
      some { s with p := { s.p with rlsLock := none, next := true }, watch := .done }
    else none
  | .watchLost =>
    if s.watch = .updating ∧ s.boot = .failed then
      some { s with p := { s.p with rlsLock := none }, watch := .done }
    else none

def timedStep (s : State) (l : AnoAtual × Label) : Option State := step l.1 s l.2

def answered : Boot → Bool
  | .fetched | .accepting | .failed => true
  | _ => false

def Unserved (s : State) : Prop :=
  answered s.boot = false ∧ (s.p.phase .succ).executed = none

instance (s : State) : Decidable (Unserved s) := inferInstanceAs (Decidable (_ ∧ _))

def startSteps : List Label := [.main, .main, .main, .main]

def loadSteps : List Label :=
  [.main, .own (.receive .succ), .own (.lock .succ), .invoke .succ, .own (.release .succ),
    .own (.reply .succ), .main]

/-- How the threads of the two servers hang together. -/
structure Linked (s : State) : Prop where
  pLocks : s.p.Locks
  nLocks : s.n.Locks
  rls : s.p.rlsLock = some .watcher ↔ s.watch = .updating
  nRls : s.n.rlsLock ≠ some .watcher
  next : s.p.next = true → s.watch = .done ∧ s.boot = .accepting
  nNext : s.n.next = false
  waits : ∀ c r, s.p.phase c = .waiting r → s.p.next = true
  link : ∀ r, (s.n.phase .pred).request = some r ↔ ∃ c, s.p.phase c = .waiting r
  nOther : ∀ c, c ≠ .pred → s.n.phase c = .idle
  nWaits : ∀ c r, s.n.phase c ≠ .waiting r
  succ : (s.p.phase .succ).request = if s.boot = .requested then some listRequest else none

variable {t : AnoAtual} {s s' : State}

theorem linked_start (list : ListT) : Linked (.start list) where
  pLocks := locks_start list false
  nLocks := locks_start listCreate false
  rls := by simp [State.start, Server.start]
  nRls := by simp [State.start, Server.start]
  next h := by simp [State.start, Server.start] at h
  nNext := rfl
  waits c r h := by simp [State.start, Server.start] at h
  link r := by simp [State.start, Server.start, Phase.request]
  nOther c _ := rfl
  nWaits c r := by simp [State.start, Server.start]
  succ := by simp [State.start, Server.start, Phase.request]

theorem linked_p {p : Server} (h : Linked s) (hl : p.Locks)
    (hr : p.rlsLock = some .watcher ↔ s.p.rlsLock = some .watcher) (hn : p.next = s.p.next)
    (hw : ∀ c r, p.phase c = .waiting r ↔ s.p.phase c = .waiting r)
    (hs : (p.phase .succ).request = (s.p.phase .succ).request) : Linked { s with p := p } :=
  { h with
    pLocks := hl
    rls := hr.trans h.rls
    next := fun hp => h.next (hn ▸ hp)
    waits := fun c r hc => by
      rw [hn]
      exact h.waits c r ((hw c r).mp hc)
    link := fun r => (h.link r).trans (exists_congr fun c => (hw c r).symm)
    succ := hs.trans h.succ }

theorem linked_own {p : Server} {a : Act} (h : Linked s) (ha : isOwn a = true)
    (hp : s.p.step t a = some p) : Linked { s with p := p } := by
  obtain ⟨-, hnext, hlike⟩ := own_frame ha hp
  exact linked_p h (step_locks h.pLocks hp) (step_watcher h.pLocks hp) hnext
    (fun c => (hlike c).waiting) (hlike .succ).request

theorem linked_client {a : Act} {c : Nat} {q : Phase} (h : Linked s)
    (hp : s.p.step t a = some (s.p.setPhase (.client c) q))
    (hold : ∀ r, s.p.phase (.client c) ≠ .waiting r) (hnew : ∀ r, q ≠ .waiting r) :
    Linked { s with p := s.p.setPhase (.client c) q } :=
  linked_p h (step_locks h.pLocks hp) Iff.rfl rfl (setPhase_waiting hold hnew) (by simp)

theorem invoke_frame {u v : Server} {c : Conn} (h : u.step t (.invoke c) = some v) (d : Conn) :
    (v.phase d).request = (u.phase d).request ∧
      ∀ r, v.phase d = .waiting r ↔ u.phase d = .waiting r := by
  obtain ⟨r, rc, hc, rfl⟩ := step_invoke.mp h
  obtain ⟨hreq, hold⟩ := invoke_place hc
  refine ⟨setPhase_congr Phase.request (p := .invoked r _) ?_ d, setPhase_waiting hold (by simp) d⟩
  rw [hreq]
  rfl

theorem invoke_rest {u v : Server} {c : Conn} (h : u.step t (.invoke c) = some v) :
    v.next = u.next ∧ v.rlsLock = u.rlsLock := by
  obtain ⟨r, rc, -, rfl⟩ := step_invoke.mp h
  exact ⟨rfl, rfl⟩

theorem linked_invoke {p : Server} {c : Conn} (h : Linked s)
    (hp : s.p.step t (.invoke c) = some p) : Linked { s with p := p } :=
  linked_p h (step_locks h.pLocks hp) (step_watcher h.pLocks hp) (invoke_rest hp).1
    (fun d => (invoke_frame hp d).2) (invoke_frame hp .succ).1

theorem step_forward {c : Conn} : step t s (.forward c) = some s' ↔
    ∃ r, s.p.phase c = .linked r ∧ s.p.next = true ∧ s.n.phase .pred = .idle ∧
      { s with p := s.p.setPhase c (.waiting r), n := s.n.setPhase .pred (.sent r) } = s' := by
  cases h : s.p.phase c with
  | linked r =>
    simp only [step, h, Option.bind_eq_some_iff, Option.map_eq_some_iff, ClientThread.step_forward,
      step_deliver, Phase.linked.injEq]
    constructor
    · rintro ⟨p, ⟨_, rfl, hn, rfl⟩, n, ⟨hi, rfl⟩, rfl⟩
      exact ⟨_, rfl, hn, hi, rfl⟩
    · rintro ⟨_, rfl, hn, hi, rfl⟩
      exact ⟨_, ⟨_, rfl, hn, rfl⟩, _, ⟨hi, rfl⟩, rfl⟩
  | _ => simp [step, h]

theorem step_back {c : Conn} : step t s (.back c) = some s' ↔
    ∃ r q m, s.p.phase c = .waiting r ∧ s.n.phase .pred = .replied q m ∧
      { s with
        p := { s.p.setPhase c (.forwarded r 0) with rlsLock := none }
        n := s.n.setPhase .pred .idle } = s' := by
  cases h : s.n.phase .pred with
  | replied q m =>
    simp only [step, h, Option.bind_eq_some_iff, Option.map_eq_some_iff, ClientThread.step_back,
      step_take, Phase.replied.injEq, zooForwardToSuccessor]
    constructor
    · rintro ⟨p, ⟨r, hw, rfl⟩, n, ⟨_, _, ⟨rfl, rfl⟩, rfl⟩, rfl⟩
      exact ⟨r, q, m, hw, ⟨rfl, rfl⟩, rfl⟩
    · rintro ⟨r, _, _, hw, ⟨rfl, rfl⟩, rfl⟩
      exact ⟨_, ⟨r, hw, rfl⟩, _, ⟨_, _, ⟨rfl, rfl⟩, rfl⟩, rfl⟩
  | _ => simp [step, h]

/-- At most one thread of the last server holds `lock_list`. -/
theorem Linked.unique (h : Linked s) {c d : Conn} (hc : (s.p.phase c).holdsList = true)
    (hd : (s.p.phase d).holdsList = true) : c = d :=
  Option.some.inj (((h.pLocks.list c).mp hc).symm.trans ((h.pLocks.list d).mp hd))

theorem Linked.not_succ (h : Linked s) {c : Conn} {r : Request}
    (hf : (s.p.phase c).forwards = some r) : c ≠ .succ := by
  rintro rfl
  have hw := h.pLocks.writes .succ r hf
  have hsucc := (forwards_request hf).symm.trans h.succ
  split at hsucc <;> cases hsucc
  cases hw

theorem linked_forward {c : Conn} (h : Linked s) (hs : step t s (.forward c) = some s') :
    Linked s' := by
  obtain ⟨r, hc, hn, hi, rfl⟩ := step_forward.mp hs
  have hne := h.not_succ (c := c) (r := r) (by simp [hc, Phase.forwards])
  have hnone : ∀ d q, s.p.phase d ≠ .waiting q := fun d q hd => by
    have hreq := (h.link q).mpr ⟨d, hd⟩
    simp [hi, Phase.request] at hreq
  have hpstep : s.p.step t (.forward c) = some (s.p.setPhase c (.waiting r)) :=
    ClientThread.step_forward.mpr ⟨r, hc, hn, rfl⟩
  have hnstep : s.n.step t (.deliver .pred r) = some (s.n.setPhase .pred (.sent r)) :=
    step_deliver.mpr ⟨hi, rfl⟩
  exact { h with
    pLocks := step_locks h.pLocks hpstep
    nLocks := step_locks h.nLocks hnstep
    waits := fun _ _ _ => hn
    link := fun q => by
      constructor
      · intro hq
        obtain rfl : r = q := by simpa [Phase.request] using hq
        exact ⟨c, by simp⟩
      · rintro ⟨d, hd⟩
        by_cases hdc : d = c
        · subst hdc
          simpa [Phase.request] using hd
        · exact absurd (by simpa [hdc] using hd) (hnone d q)
    nOther := fun d hd => by simpa [hd] using h.nOther d hd
    nWaits := fun d k hd => h.nWaits d k (setPhase_other hd (by simp)).2
    succ := by simpa [hne.symm] using h.succ }

theorem linked_back {c : Conn} (h : Linked s) (hs : step t s (.back c) = some s') :
    Linked s' := by
  obtain ⟨r, q, m, hc, hq, rfl⟩ := step_back.mp hs
  have hne := h.not_succ (c := c) (r := r) (by simp [hc, Phase.forwards])
  have hpstep : s.p.step t (.back c (some m)) =
      some { s.p.setPhase c (.forwarded r 0) with rlsLock := none } :=
    ClientThread.step_back.mpr ⟨r, hc, rfl⟩
  have hnstep : s.n.step t (.take .pred) = some (s.n.setPhase .pred .idle) :=
    step_take.mpr ⟨q, m, hq, rfl⟩
  have hold : ∀ d k, d ≠ c → s.p.phase d ≠ .waiting k := fun d k hd hw =>
    hd (h.unique (by simp [hw, Phase.holdsList]) (by simp [hc, Phase.holdsList]))
  exact { h with
    pLocks := step_locks h.pLocks hpstep
    nLocks := step_locks h.nLocks hnstep
    rls := (step_watcher h.pLocks hpstep).trans h.rls
    waits := fun d k hd => h.waits d k (setPhase_other hd (by simp)).2
    link := fun k => by
      simp only [setPhase_self, Phase.request, reduceCtorEq, false_iff, not_exists]
      intro d hd
      obtain ⟨hdc, hd⟩ := setPhase_other hd (by simp)
      exact hold d k hdc hd
    nOther := fun d hd => by simpa [hd] using h.nOther d hd
    nWaits := fun d k hd => h.nWaits d k (setPhase_other hd (by simp)).2
    succ := by simpa [hne.symm] using h.succ }

theorem linked_n {n : Server} (h : Linked s) (hl : n.Locks)
    (hr : n.rlsLock = some .watcher ↔ s.n.rlsLock = some .watcher) (hn : n.next = s.n.next)
    (hq : ∀ c, (n.phase c).request = (s.n.phase c).request)
    (hw : ∀ c r, n.phase c = .waiting r ↔ s.n.phase c = .waiting r) :
    Linked { s with n := n } :=
  { h with
    nLocks := hl
    nRls := fun hw => h.nRls (hr.mp hw)
    nNext := hn.trans h.nNext
    link := fun r => by
      rw [hq]
      exact h.link r
    nOther := fun c hc => by
      rw [← request_eq_none, hq, h.nOther c hc]
      rfl
    nWaits := fun c r hc => h.nWaits c r ((hw c r).mp hc) }

theorem linked_nOwn {n : Server} {a : Act} (h : Linked s) (ha : isOwn a = true)
    (hn : s.n.step t a = some n) : Linked { s with n := n } := by
  obtain ⟨-, hnext, hlike⟩ := own_frame ha hn
  exact linked_n h (step_locks h.nLocks hn) (step_watcher h.nLocks hn) hnext
    (fun c => (hlike c).request) (fun c => (hlike c).waiting)

theorem linked_nInvoke {n : Server} {c : Conn} (h : Linked s)
    (hn : s.n.step t (.invoke c) = some n) : Linked { s with n := n } :=
  linked_n h (step_locks h.nLocks hn) (step_watcher h.nLocks hn) (invoke_rest hn).1
    (fun d => (invoke_frame hn d).1) (fun d => (invoke_frame hn d).2)

theorem Linked.executes (h : Linked s) {c : Conn} {r : Request}
    (hr : (s.n.phase c).request = some r) :
    c = .pred ∧ s.boot = .accepting ∧ ∃ d, s.p.phase d = .waiting r := by
  have hc : c = .pred := by
    by_contra hc
    rw [h.nOther c hc] at hr
    cases hr
  subst hc
  obtain ⟨d, hd⟩ := (h.link r).mp hr
  exact ⟨rfl, (h.next (h.waits d r hd)).2, d, hd⟩

theorem Linked.lock_free (h : Linked s) (hp : (s.n.phase .pred).holdsList = false) :
    s.n.lockList = none := by
  cases hl : s.n.lockList with
  | none => rfl
  | some c =>
    have hc := (h.nLocks.list c).mpr hl
    by_cases hcp : c = .pred
    · rw [hcp, hp] at hc
      cases hc
    · simp [h.nOther c hcp, Phase.holdsList] at hc

theorem Linked.rls_free (h : Linked s) (hp : (s.n.phase .pred).holdsRls = false) :
    s.n.rlsLock = none := by
  cases hl : s.n.rlsLock with
  | none => rfl
  | some d =>
    cases d with
    | watcher => exact absurd hl h.nRls
    | thread c =>
      have hc := (h.nLocks.rls c).mpr hl
      by_cases hcp : c = .pred
      · rw [hcp, hp] at hc
        cases hc
      · simp [h.nOther c hcp, Phase.holdsRls] at hc

theorem main_cases (h : Linked s) (hs : mainStep t s = some s') :
    (∃ b, s.boot.next = some b ∧ { s with boot := b } = s') ∨
    (s.boot = .connected ∧ s.p.phase .succ = .idle ∧
      { s with p := s.p.setPhase .succ (.sent listRequest), boot := .requested } = s') ∨
    ∃ m rc list, s.boot = .requested ∧ s.p.phase .succ = .replied listRequest m ∧
      rlistGetListAdd t (some m) s.n.list = (rc, list) ∧
      { s with
        p := s.p.setPhase .succ .idle
        n := { s.n with list := list }
        boot := if rc = -1 then .failed else .fetched } = s' := by
  simp only [mainStep] at hs
  split at hs
  next hb =>
    obtain ⟨p, hp, rfl⟩ := Option.map_eq_some_iff.mp hs
    obtain ⟨hi, rfl⟩ := step_deliver.mp hp
    exact .inr (.inl ⟨hb, hi, rfl⟩)
  next hb =>
    split at hs
    next r m hr =>
      obtain ⟨p, hp, rfl⟩ := Option.map_eq_some_iff.mp hs
      obtain ⟨_, _, _, rfl⟩ := step_take.mp hp
      obtain rfl : r = listRequest := by simpa [hb, hr, Phase.request] using h.succ
      exact .inr (.inr ⟨m, _, _, hb, hr, rfl, rfl⟩)
    next => cases hs
  next =>
    obtain ⟨b, hb, rfl⟩ := Option.map_eq_some_iff.mp hs
    exact .inl ⟨b, hb, rfl⟩

theorem linked_boot {b : Boot} (h : Linked s) (hb : s.boot ≠ .accepting)
    (hs : (s.p.phase .succ).request = if b = .requested then some listRequest else none) :
    Linked { s with boot := b } :=
  { h with
    next := fun hn => absurd (h.next hn).2 hb
    succ := hs }

theorem linked_main (h : Linked s) (hs : mainStep t s = some s') : Linked s' := by
  obtain ⟨b, hb, rfl⟩ | ⟨hb, hi, rfl⟩ | ⟨m, rc, list, hb, hr, -, rfl⟩ := main_cases h hs
  · have hmove : s.boot ≠ .accepting ∧ s.boot ≠ .requested ∧ b ≠ .requested := by
      cases hs : s.boot <;> simp [Boot.next, hs] at hb <;> subst hb <;> decide
    exact linked_boot h hmove.1 (by simpa [hmove.2.1, hmove.2.2] using h.succ)
  · have hwait := setPhase_waiting (s := s.p) (c := .succ) (p := .sent listRequest) (by simp [hi])
      (by simp)
    exact { h with
      pLocks := step_locks h.pLocks (step_deliver (t := t).mpr ⟨hi, rfl⟩)
      next := fun hn => absurd (h.next hn).2 (by simp [hb])
      waits := fun d r hd => h.waits d r ((hwait d r).mp hd)
      link := fun r => (h.link r).trans (exists_congr fun d => (hwait d r).symm)
      succ := by simp [Phase.request] }
  · have hwait := setPhase_waiting (s := s.p) (c := .succ) (p := .idle) (by simp [hr]) (by simp)
    exact { h with
      pLocks := step_locks h.pLocks (step_take (t := t).mpr ⟨_, _, hr, rfl⟩)
      nLocks := ⟨h.nLocks.list, h.nLocks.rls, h.nLocks.writes⟩
      next := fun hn => absurd (h.next hn).2 (by simp [hb])
      waits := fun d r hd => h.waits d r ((hwait d r).mp hd)
      link := fun r => (h.link r).trans (exists_congr fun d => (hwait d r).symm)
      succ := by split <;> simp [Phase.request] }

theorem linked_watch (h : Linked s) {rl : Option Holder} {next : Bool} {w : Watch}
    (hrl : ∀ c, s.p.rlsLock = some (.thread c) ↔ rl = some (.thread c))
    (hr : rl = some .watcher ↔ w = .updating) (hn : next = true → w = .done ∧ s.boot = .accepting)
    (hw : s.p.next = true → next = true) :
    Linked { s with p := { s.p with rlsLock := rl, next := next }, watch := w } :=
  { h with
    pLocks := ⟨h.pLocks.list, fun c => (h.pLocks.rls c).trans (hrl c), h.pLocks.writes⟩
    rls := hr
    next := hn
    waits := fun c r hc => hw (h.waits c r hc) }

theorem linked_step {l : Label} (h : Linked s) (hs : step t s l = some s') : Linked s' := by
  cases l with
  | send c r =>
    obtain ⟨p, hp, rfl⟩ := Option.map_eq_some_iff.mp hs
    obtain ⟨hi, rfl⟩ := step_deliver.mp hp
    exact linked_client h hp (by simp [hi]) (by simp)
  | own a =>
    obtain ⟨ha, hs⟩ := Option.ite_none_right_eq_some.mp hs
    obtain ⟨p, hp, rfl⟩ := Option.map_eq_some_iff.mp hs
    exact linked_own h ha hp
  | invoke c =>
    obtain ⟨p, hp, rfl⟩ := Option.map_eq_some_iff.mp hs
    exact linked_invoke h hp
  | answer c =>
    obtain ⟨p, hp, rfl⟩ := Option.map_eq_some_iff.mp hs
    obtain ⟨r, m, hr, rfl⟩ := step_take.mp hp
    exact linked_client h hp (by simp [hr]) (by simp)
  | forward c => exact linked_forward h hs
  | back c => exact linked_back h hs
  | nOwn a =>
    obtain ⟨ha, hs⟩ := Option.ite_none_right_eq_some.mp hs
    obtain ⟨n, hn, rfl⟩ := Option.map_eq_some_iff.mp hs
    exact linked_nOwn h ha hn
  | nInvoke c =>
    obtain ⟨n, hn, rfl⟩ := Option.map_eq_some_iff.mp hs
    exact linked_nInvoke h hn
  | main => exact linked_main h hs
  | notify =>
    obtain ⟨⟨hw, -⟩, hs⟩ := Option.ite_none_right_eq_some.mp hs
    obtain rfl := Option.some.inj hs
    have hr := h.rls
    have hn := h.next
    rw [hw] at hr hn
    exact linked_watch h (fun _ => Iff.rfl) (by simpa using hr) (by simpa using hn) id
  | watchUpdate =>
    obtain ⟨⟨hw, hl⟩, hs⟩ := Option.ite_none_right_eq_some.mp hs
    obtain rfl := Option.some.inj hs
    have hn := h.next
    rw [hw] at hn
    exact linked_watch h (by simp [hl]) (by simp) (by simpa using hn) id
  | watchReady =>
    obtain ⟨⟨hw, hb⟩, hs⟩ := Option.ite_none_right_eq_some.mp hs
    obtain rfl := Option.some.inj hs
    have hl := h.rls.mpr hw
    exact linked_watch h (by simp [hl]) (by simp) (fun _ => ⟨rfl, hb⟩) (fun _ => rfl)
  | watchLost =>
    obtain ⟨⟨hw, -⟩, hs⟩ := Option.ite_none_right_eq_some.mp hs
    obtain rfl := Option.some.inj hs
    have hl := h.rls.mpr hw
    have hn := h.next
    rw [hw] at hn
    exact linked_watch h (by simp [hl]) (by simp) (fun hp => absurd (hn hp).1 (by simp)) id

end ListServer.Joining
