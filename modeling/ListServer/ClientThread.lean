import ListServer.Skeleton

namespace ListServer.ClientThread

open CarList Message Skeleton

/-- A request in flight. Its number tells requests apart in histories; no step
looks at it. -/
structure Request where
  id : Nat
  msg : MessageT
deriving DecidableEq, Repr

/-- The connections of a server: from its predecessor, from a server that
joins behind it, from clients. -/
inductive Conn
  | pred
  | succ
  | client (c : Nat)
deriving DecidableEq, Repr

/-- Where the request of a connection stands: the frame on its way, then the
places of `client_thread`, then the reply on its way. -/
inductive Phase
  | idle
  | sent (r : Request)
  | received (r : Request)
  | locked (r : Request)
  | linked (r : Request)
  | waiting (r : Request)
  | forwarded (r : Request) (rc : Int)
  | invoked (r : Request) (m : MessageT)
  | released (r : Request) (m : MessageT)
  | replied (r : Request) (m : MessageT)
deriving DecidableEq, Repr

inductive Holder
  | thread (c : Conn)
  | watcher
deriving DecidableEq, Repr

/-- The state of one server process. `next` tells whether `rl_next_server` is set. -/
structure Server where
  list : ListT
  lockList : Option Conn
  rlsLock : Option Holder
  next : Bool
  phase : Conn → Phase

def Server.start (list : ListT) (next : Bool) : Server := ⟨list, none, none, next, fun _ => .idle⟩

def Server.setPhase (s : Server) (c : Conn) (p : Phase) : Server :=
  { s with phase := fun d => if d = c then p else s.phase d }

def needsForward (msg : MessageT) : Bool :=
  decide (msg.opcode = opAdd) || decide (msg.opcode = opDel) || decide (msg.opcode = opOrder)

/-- The code returned once it is known whether there is a successor and what
`network_send_receive` gave. -/
def zooForwardToSuccessor (next : Bool) (resp : Option MessageT) : Int :=
  if !next then -2
  else if resp.isSome then 0
  else -1

/-- What `client_thread` does with the request after the forward. -/
def afterForward (t : AnoAtual) (fwdRc : Int) (msg : MessageT) (list : ListT) : MessageT × ListT :=
  if fwdRc = -2 then serve t msg list
  else if fwdRc ≠ 0 then ({ msg with opcode := opError, result := -1 }, list)
  else serve t msg list

/-- The steps of a connection: its two ends and the places where its thread can stop. -/
inductive Act
  | deliver (c : Conn) (r : Request)
  | receive (c : Conn)
  | lock (c : Conn)
  | link (c : Conn)
  | alone (c : Conn)
  | forward (c : Conn)
  | back (c : Conn) (resp : Option MessageT)
  | invoke (c : Conn)
  | release (c : Conn)
  | reply (c : Conn)
  | take (c : Conn)
deriving DecidableEq, Repr

def Server.step (t : AnoAtual) (s : Server) : Act → Option Server
  | .deliver c r => if s.phase c = .idle then some (s.setPhase c (.sent r)) else none
  | .receive c =>
    match s.phase c with
    | .sent r => some (s.setPhase c (.received r))
    | _ => none
  | .lock c =>
    match s.phase c, s.lockList with
    | .received r, none => some { s.setPhase c (.locked r) with lockList := some c }
    | _, _ => none
  | .link c =>
    match s.phase c, s.rlsLock with
    | .locked r, none =>
      if needsForward r.msg then some { s.setPhase c (.linked r) with rlsLock := some (.thread c) }
      else none
    | _, _ => none
  | .alone c =>
    match s.phase c, s.next with
    | .linked r, false =>
      some { s.setPhase c (.forwarded r (zooForwardToSuccessor false none)) with rlsLock := none }
    | _, _ => none
  | .forward c =>
    match s.phase c, s.next with
    | .linked r, true => some (s.setPhase c (.waiting r))
    | _, _ => none
  | .back c resp =>
    match s.phase c with
    | .waiting r =>
      some { s.setPhase c (.forwarded r (zooForwardToSuccessor true resp)) with rlsLock := none }
    | _ => none
  | .invoke c =>
    match s.phase c with
    | .locked r =>
      if needsForward r.msg then none
      else
        let p := serve t r.msg s.list
        some { s.setPhase c (.invoked r p.1) with list := p.2 }
    | .forwarded r rc =>
      let p := afterForward t rc r.msg s.list
      some { s.setPhase c (.invoked r p.1) with list := p.2 }
    | _ => none
  | .release c =>
    match s.phase c with
    | .invoked r m => some { s.setPhase c (.released r m) with lockList := none }
    | _ => none
  | .reply c =>
    match s.phase c with
    | .released r m => some (s.setPhase c (.replied r m))
    | _ => none
  | .take c =>
    match s.phase c with
    | .replied _ _ => some (s.setPhase c .idle)
    | _ => none

def Phase.request : Phase → Option Request
  | .idle => none
  | .sent r | .received r | .locked r | .linked r | .waiting r => some r
  | .forwarded r _ | .invoked r _ | .released r _ | .replied r _ => some r

def Phase.holdsList : Phase → Bool
  | .locked _ | .linked _ | .waiting _ | .forwarded _ _ | .invoked _ _ => true
  | _ => false

def Phase.holdsRls : Phase → Bool
  | .linked _ | .waiting _ => true
  | _ => false

/-- The thread is in `zoo_forward_to_successor` or has just left it. -/
def Phase.forwards : Phase → Option Request
  | .linked r | .waiting r | .forwarded r _ => some r
  | _ => none

def Phase.executed : Phase → Option (Request × MessageT)
  | .invoked r m | .released r m | .replied r m => some (r, m)
  | _ => none

@[simp] theorem setPhase_list (s : Server) (c : Conn) (p : Phase) :
    (s.setPhase c p).list = s.list := rfl
@[simp] theorem setPhase_lockList (s : Server) (c : Conn) (p : Phase) :
    (s.setPhase c p).lockList = s.lockList := rfl
@[simp] theorem setPhase_rlsLock (s : Server) (c : Conn) (p : Phase) :
    (s.setPhase c p).rlsLock = s.rlsLock := rfl
@[simp] theorem setPhase_next (s : Server) (c : Conn) (p : Phase) :
    (s.setPhase c p).next = s.next := rfl

theorem setPhase_phase (s : Server) (c : Conn) (p : Phase) (d : Conn) :
    (s.setPhase c p).phase d = if d = c then p else s.phase d := rfl

@[simp] theorem setPhase_self (s : Server) (c : Conn) (p : Phase) : (s.setPhase c p).phase c = p :=
  if_pos rfl

@[simp] theorem setPhase_ne (s : Server) {c d : Conn} (p : Phase) (h : d ≠ c) :
    (s.setPhase c p).phase d = s.phase d := if_neg h

theorem not_add {msg : MessageT} (h : needsForward msg = false) : msg.opcode ≠ opAdd :=
  fun he => by simp [needsForward, he] at h

theorem not_del {msg : MessageT} (h : needsForward msg = false) : msg.opcode ≠ opDel :=
  fun he => by simp [needsForward, he] at h

theorem cars_after_read {msg : MessageT} (h : needsForward msg = false) (t : AnoAtual)
    (list : ListT) : cars (after t msg list) = cars list := by
  have ha : msg.opcode ≠ opAdd := fun he => by simp [needsForward, he] at h
  have hd : msg.opcode ≠ opDel := fun he => by simp [needsForward, he] at h
  exact cars_after_of_not_write ha hd t list

/-- What the new place of a thread has in common with the old one, the server
keeps at every connection. -/
theorem setPhase_congr {α : Type} (f : Phase → α) {s : Server} {c : Conn} {p : Phase}
    (h : f p = f (s.phase c)) (d : Conn) : f ((s.setPhase c p).phase d) = f (s.phase d) := by
  by_cases hd : d = c
  · subst hd
    simpa using h
  · simp [hd]

theorem setPhase_other {s : Server} {c d : Conn} {p q : Phase} (h : (s.setPhase c p).phase d = q)
    (hp : p ≠ q) : d ≠ c ∧ s.phase d = q := by
  by_cases hd : d = c
  · subst hd
    exact absurd (by simpa using h) hp
  · exact ⟨hd, by simpa [hd] using h⟩

theorem setPhase_waiting {s : Server} {c : Conn} {p : Phase} (hold : ∀ r, s.phase c ≠ .waiting r)
    (hnew : ∀ r, p ≠ .waiting r) (d : Conn) (r : Request) :
    (s.setPhase c p).phase d = .waiting r ↔ s.phase d = .waiting r := by
  by_cases hd : d = c
  · subst hd
    simp [hold r, hnew r]
  · simp [hd]

theorem invoke_place {p : Phase} {r : Request} {rc : Int} {a : Prop}
    (h : (p = .locked r ∧ a) ∨ p = .forwarded r rc) :
    p.request = some r ∧ ∀ q, p ≠ .waiting q := by
  obtain ⟨h, -⟩ | h := h <;> simp [h, Phase.request]

@[simp] theorem afterForward_zero (t : AnoAtual) (msg : MessageT) (list : ListT) :
    afterForward t 0 msg list = serve t msg list := rfl

@[simp] theorem afterForward_alone (t : AnoAtual) (msg : MessageT) (list : ListT) :
    afterForward t (-2) msg list = serve t msg list := rfl

theorem executed_request {p : Phase} {r : Request} {m : MessageT} (h : p.executed = some (r, m)) :
    p.request = some r := by
  cases p <;> simp_all [Phase.executed, Phase.request]

theorem forwards_request {p : Phase} {r : Request} (h : p.forwards = some r) :
    p.request = some r := by
  cases p <;> simp_all [Phase.forwards, Phase.request]

theorem holdsList_of_forwards {p : Phase} {r : Request} (h : p.forwards = some r) :
    p.holdsList = true := by
  cases p <;> simp_all [Phase.forwards, Phase.holdsList]

section Inversion

variable {t : AnoAtual} {s s' : Server} {c : Conn}

theorem step_deliver {r : Request} : s.step t (.deliver c r) = some s' ↔
    s.phase c = .idle ∧ s.setPhase c (.sent r) = s' := by
  simp [Server.step]

theorem step_receive : s.step t (.receive c) = some s' ↔
    ∃ r, s.phase c = .sent r ∧ s.setPhase c (.received r) = s' := by
  cases h : s.phase c <;> simp [Server.step, h]

theorem step_lock : s.step t (.lock c) = some s' ↔
    ∃ r, s.phase c = .received r ∧ s.lockList = none ∧
      { s.setPhase c (.locked r) with lockList := some c } = s' := by
  cases h : s.phase c <;> cases hl : s.lockList <;> simp [Server.step, h, hl]

theorem step_link : s.step t (.link c) = some s' ↔
    ∃ r, s.phase c = .locked r ∧ needsForward r.msg = true ∧ s.rlsLock = none ∧
      { s.setPhase c (.linked r) with rlsLock := some (.thread c) } = s' := by
  cases h : s.phase c <;> cases hl : s.rlsLock <;> simp [Server.step, h, hl]

theorem step_alone : s.step t (.alone c) = some s' ↔
    ∃ r, s.phase c = .linked r ∧ s.next = false ∧
      { s.setPhase c (.forwarded r (-2)) with rlsLock := none } = s' := by
  cases h : s.phase c <;> cases hl : s.next <;> simp [Server.step, h, hl, zooForwardToSuccessor]

theorem step_forward : s.step t (.forward c) = some s' ↔
    ∃ r, s.phase c = .linked r ∧ s.next = true ∧ s.setPhase c (.waiting r) = s' := by
  cases h : s.phase c <;> cases hl : s.next <;> simp [Server.step, h, hl]

theorem step_back {resp : Option MessageT} : s.step t (.back c resp) = some s' ↔
    ∃ r, s.phase c = .waiting r ∧
      { s.setPhase c (.forwarded r (zooForwardToSuccessor true resp)) with
        rlsLock := none } = s' := by
  cases h : s.phase c <;> simp [Server.step, h]

/-- The request is executed under `lock_list`: a read at once, which is what
follows a forward that returned 0, and a write after the forward. -/
theorem step_invoke : s.step t (.invoke c) = some s' ↔
    ∃ r rc, ((s.phase c = .locked r ∧ needsForward r.msg = false ∧ rc = 0) ∨
        s.phase c = .forwarded r rc) ∧
      { s.setPhase c (.invoked r (afterForward t rc r.msg s.list).1) with
        list := (afterForward t rc r.msg s.list).2 } = s' := by
  cases h : s.phase c with
  | locked r => cases hn : needsForward r.msg <;> simp [Server.step, h, hn]
  | forwarded r rc => simp [Server.step, h]
  | _ => simp [Server.step, h]

theorem step_release : s.step t (.release c) = some s' ↔
    ∃ r m, s.phase c = .invoked r m ∧
      { s.setPhase c (.released r m) with lockList := none } = s' := by
  cases h : s.phase c <;> simp [Server.step, h]

theorem step_reply : s.step t (.reply c) = some s' ↔
    ∃ r m, s.phase c = .released r m ∧ s.setPhase c (.replied r m) = s' := by
  cases h : s.phase c <;> simp [Server.step, h]

theorem step_take : s.step t (.take c) = some s' ↔
    ∃ r m, s.phase c = .replied r m ∧ s.setPhase c .idle = s' := by
  cases h : s.phase c <;> simp [Server.step, h]

end Inversion

/-- Each lock has the owner that the places of the threads say, and only
writes are forwarded. -/
structure Server.Locks (s : Server) : Prop where
  list : ∀ c, (s.phase c).holdsList = true ↔ s.lockList = some c
  rls : ∀ c, (s.phase c).holdsRls = true ↔ s.rlsLock = some (.thread c)
  writes : ∀ c r, (s.phase c).forwards = some r → needsForward r.msg = true

theorem locks_start (list : ListT) (next : Bool) : (Server.start list next).Locks :=
  ⟨by simp [Server.start, Phase.holdsList], by simp [Server.start, Phase.holdsRls],
    by simp [Server.start, Phase.forwards]⟩

/-- A step that moves one thread and passes on the locks as its old and new
places ask keeps the invariant. -/
theorem locks_setPhase {s : Server} (h : s.Locks) {c : Conn} {p : Phase} {ll : Option Conn}
    {rl : Option Holder} {list : ListT} {next : Bool}
    (hl : if p.holdsList then ll = some c ∧ (s.lockList = none ∨ (s.phase c).holdsList = true)
      else if (s.phase c).holdsList then ll = none else ll = s.lockList)
    (hr : if p.holdsRls
      then rl = some (.thread c) ∧ (s.rlsLock = none ∨ (s.phase c).holdsRls = true)
      else if (s.phase c).holdsRls then rl = none else rl = s.rlsLock)
    (hw : ∀ r, p.forwards = some r → needsForward r.msg = true) :
    Server.Locks ⟨list, ll, rl, next, (s.setPhase c p).phase⟩ := by
  refine ⟨fun d => ?_, fun d => ?_, fun d r => ?_⟩
  · have hc := h.list c
    have hd := h.list d
    by_cases hdc : d = c
    · subst hdc
      by_cases hp : p.holdsList <;> by_cases hq : (s.phase d).holdsList <;> simp_all
    · have hcd : c ≠ d := fun he => hdc he.symm
      by_cases hp : p.holdsList <;> by_cases hq : (s.phase c).holdsList <;> simp_all
  · have hc := h.rls c
    have hd := h.rls d
    by_cases hdc : d = c
    · subst hdc
      by_cases hp : p.holdsRls <;> by_cases hq : (s.phase d).holdsRls <;> simp_all
    · have hcd : c ≠ d := fun he => hdc he.symm
      by_cases hp : p.holdsRls <;> by_cases hq : (s.phase c).holdsRls <;> simp_all
  · by_cases hdc : d = c
    · subst hdc
      simpa using hw r
    · simpa [hdc] using h.writes d r

theorem step_locks {t : AnoAtual} {s s' : Server} {a : Act} (h : s.Locks)
    (hs : s.step t a = some s') : s'.Locks := by
  cases a with
  | deliver c r =>
    obtain ⟨hp, rfl⟩ := step_deliver.mp hs
    exact locks_setPhase h (by simp [hp, Phase.holdsList]) (by simp [hp, Phase.holdsRls])
      (by simp [Phase.forwards])
  | receive c =>
    obtain ⟨r, hp, rfl⟩ := step_receive.mp hs
    exact locks_setPhase h (by simp [hp, Phase.holdsList]) (by simp [hp, Phase.holdsRls])
      (by simp [Phase.forwards])
  | lock c =>
    obtain ⟨r, hp, hl, rfl⟩ := step_lock.mp hs
    exact locks_setPhase h (by simp [hl, Phase.holdsList]) (by simp [hp, Phase.holdsRls])
      (by simp [Phase.forwards])
  | link c =>
    obtain ⟨r, hp, hn, hl, rfl⟩ := step_link.mp hs
    have hlock := (h.list c).mp (by simp [hp, Phase.holdsList])
    exact locks_setPhase h (by simp [hp, hlock, Phase.holdsList]) (by simp [hl, Phase.holdsRls])
      (by simpa [Phase.forwards] using hn)
  | alone c =>
    obtain ⟨r, hp, -, rfl⟩ := step_alone.mp hs
    have hlock := (h.list c).mp (by simp [hp, Phase.holdsList])
    exact locks_setPhase h (by simp [hp, hlock, Phase.holdsList]) (by simp [hp, Phase.holdsRls])
      (by simpa [Phase.forwards, hp] using h.writes c r)
  | forward c =>
    obtain ⟨r, hp, -, rfl⟩ := step_forward.mp hs
    have hlock := (h.list c).mp (by simp [hp, Phase.holdsList])
    have hrls := (h.rls c).mp (by simp [hp, Phase.holdsRls])
    exact locks_setPhase h (by simp [hp, hlock, Phase.holdsList])
      (by simp [hp, hrls, Phase.holdsRls]) (by simpa [Phase.forwards, hp] using h.writes c r)
  | back c resp =>
    obtain ⟨r, hp, rfl⟩ := step_back.mp hs
    have hlock := (h.list c).mp (by simp [hp, Phase.holdsList])
    exact locks_setPhase h (by simp [hp, hlock, Phase.holdsList]) (by simp [hp, Phase.holdsRls])
      (by simpa [Phase.forwards, hp] using h.writes c r)
  | invoke c =>
    obtain ⟨r, rc, hp | hp, rfl⟩ := step_invoke.mp hs
    · have hlock := (h.list c).mp (by simp [hp, Phase.holdsList])
      exact locks_setPhase h (by simp [hp, hlock, Phase.holdsList]) (by simp [hp, Phase.holdsRls])
        (by simp [Phase.forwards])
    · have hlock := (h.list c).mp (by simp [hp, Phase.holdsList])
      exact locks_setPhase h (by simp [hp, hlock, Phase.holdsList]) (by simp [hp, Phase.holdsRls])
        (by simp [Phase.forwards])
  | release c =>
    obtain ⟨r, m, hp, rfl⟩ := step_release.mp hs
    exact locks_setPhase h (by simp [hp, Phase.holdsList]) (by simp [hp, Phase.holdsRls])
      (by simp [Phase.forwards])
  | reply c =>
    obtain ⟨r, m, hp, rfl⟩ := step_reply.mp hs
    exact locks_setPhase h (by simp [hp, Phase.holdsList]) (by simp [hp, Phase.holdsRls])
      (by simp [Phase.forwards])
  | take c =>
    obtain ⟨r, m, hp, rfl⟩ := step_take.mp hs
    exact locks_setPhase h (by simp [hp, Phase.holdsList]) (by simp [hp, Phase.holdsRls])
      (by simp [Phase.forwards])

theorem step_watcher {t : AnoAtual} {s s' : Server} {a : Act} (h : s.Locks)
    (hs : s.step t a = some s') : s'.rlsLock = some .watcher ↔ s.rlsLock = some .watcher := by
  cases a with
  | deliver c r =>
    obtain ⟨-, rfl⟩ := step_deliver.mp hs
    rfl
  | receive c =>
    obtain ⟨r, -, rfl⟩ := step_receive.mp hs
    rfl
  | lock c =>
    obtain ⟨r, -, -, rfl⟩ := step_lock.mp hs
    rfl
  | link c =>
    obtain ⟨r, -, -, hr, rfl⟩ := step_link.mp hs
    simp [hr]
  | alone c =>
    obtain ⟨r, hp, -, rfl⟩ := step_alone.mp hs
    have hr := (h.rls c).mp (by simp [hp, Phase.holdsRls])
    simp [hr]
  | forward c =>
    obtain ⟨r, -, -, rfl⟩ := step_forward.mp hs
    rfl
  | back c resp =>
    obtain ⟨r, hp, rfl⟩ := step_back.mp hs
    have hr := (h.rls c).mp (by simp [hp, Phase.holdsRls])
    simp [hr]
  | invoke c =>
    obtain ⟨r, rc, -, rfl⟩ := step_invoke.mp hs
    rfl
  | release c =>
    obtain ⟨r, m, -, rfl⟩ := step_release.mp hs
    rfl
  | reply c =>
    obtain ⟨r, m, -, rfl⟩ := step_reply.mp hs
    rfl
  | take c =>
    obtain ⟨r, m, -, rfl⟩ := step_take.mp hs
    rfl

end ListServer.ClientThread
