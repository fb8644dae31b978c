import ListServer.ClientThread
import ListServer.Lib.Transition

namespace ListServer.Shutdown

open Lib.Transition
open CarList Message Skeleton ClientThread

inductive Place
  | started
  | testing
  | receiving
  | received (msg : MessageT)
  | locked (msg : MessageT)
  | linked (msg : MessageT)
  | forwarded (msg : MessageT) (fwdRc : Int)
  | invoking (msg : MessageT)
  | answered (msg : MessageT)
  | sending (msg : MessageT)
  | leaving
  | ended
deriving DecidableEq, Repr

/-- A client thread with the complete requests in its socket's buffer, and
whether `network_server_close` has shut the socket down. -/
structure Client where
  place : Place
  inbox : List MessageT
  shut : Bool
deriving DecidableEq, Repr

/-- Where the main thread stands: in `network_main_loop`, then in the calls
that follow it in `main`. -/
inductive Main
  | accepting
  | accepted
  | left
  | cleaning
  | cleaned
  | zookeeperClosed
  | destroyed
  | closing
  | joining (c : Nat)
  | closed
deriving DecidableEq, Repr

inductive Holder
  | main
  | client (c : Nat)
deriving DecidableEq, Repr

/-- The state of a server process. There is no list once it has been destroyed.
`next` tells whether `rl_next_server` is set. -/
structure State where
  main : Main
  serverShutdown : Bool
  list : Option ListT
  next : Bool
  lockList : Option Nat
  rlsLock : Option Holder
  clients : List Client
deriving DecidableEq, Repr

def State.start (list : ListT) (next : Bool) : State :=
  ⟨.accepting, false, some list, next, none, none, []⟩

def State.set (s : State) (c : Nat) (client : Client) : State :=
  { s with clients := s.clients.set c client }

def Main.holdsNumClients : Main → Bool
  | .closing | .joining _ => true
  | _ => false

def Main.zookeeperOpen : Main → Bool
  | .accepting | .accepted | .left | .cleaning | .cleaned => true
  | _ => false

/-- The signal, the main thread, the `update` of a watcher, a client's end of
the connection, and the client threads. -/
inductive Act
  | signal
  | accept
  | busy
  | create
  | leave
  | fail
  | lockNext
  | dropNext
  | zookeeperClose
  | listSkelDestroy
  | networkServerClose
  | shutdown (c : Nat)
  | join (c : Nat)
  | close
  | update (found : Bool)
  | send (c : Nat) (msg : MessageT)
  | register (c : Nat)
  | test (c : Nat)
  | receive (c : Nat)
  | hangup (c : Nat)
  | lock (c : Nat)
  | link (c : Nat)
  | alone (c : Nat)
  | forward (c : Nat) (resp : Option MessageT)
  | invoke (c : Nat)
  | refuse (c : Nat)
  | finish (c : Nat)
  | unlock (c : Nat)
  | reply (c : Nat) (sent : Bool)
  | deregister (c : Nat)
deriving DecidableEq, Repr

def Act.client : Act → Option Nat
  | .send c _ | .register c | .test c | .receive c | .hangup c | .lock c | .link c | .alone c
  | .forward c _ | .invoke c | .refuse c | .finish c | .unlock c | .reply c _ | .deregister c =>
    some c
  | _ => none

def State.move (s : State) (old new : Main) : Option State :=
  if s.main = old then some { s with main := new } else none

/-- The steps that are not a client thread's. `network_server_close` goes
through the threads that have an entry; which ones have is left open. The
threads are detached, so `pthread_join` need not wait for their end. -/
def stepMain (s : State) : Act → Option State
  | .signal => some { s with serverShutdown := true }
  | .update found =>
    if s.rlsLock = none ∧ s.main.zookeeperOpen then some { s with next := found } else none
  | .accept =>
    if s.serverShutdown then none else s.move .accepting .accepted
  | .busy => s.move .accepted .accepting
  | .create =>
    (s.move .accepted .accepting).map fun s =>
      { s with clients := s.clients ++ [⟨.started, [], false⟩] }
  | .leave => if s.serverShutdown then s.move .accepting .left else none
  | .fail => s.move .accepting .left
  | .lockNext =>
    if s.rlsLock = none then
      (s.move .left .cleaning).map fun s => { s with rlsLock := some .main }
    else none
  | .dropNext =>
    (s.move .cleaning .cleaned).map fun s => { s with next := false, rlsLock := none }
  | .zookeeperClose => s.move .cleaned .zookeeperClosed
  | .listSkelDestroy =>
    (s.move .zookeeperClosed .destroyed).map fun s => { s with list := none }
  | .networkServerClose => s.move .destroyed .closing
  | .shutdown c =>
    match s.clients[c]? with
    | some client =>
      if client.place = .started ∨ client.place = .ended then none
      else (s.move .closing (.joining c)).map fun s => s.set c { client with shut := true }
    | none => none
  | .join c => s.move (.joining c) .closing
  | .close => s.move .closing .closed
  | _ => none

/-- A step of the client thread `c`, from its place and the rest of the state. -/
def stepClient (t : AnoAtual) (s : State) (c : Nat) (client : Client) : Act → Option State
  | .send _ msg =>
    if client.shut then none else some (s.set c { client with inbox := client.inbox ++ [msg] })
  | .register _ =>
    if client.place = .started ∧ s.main.holdsNumClients = false then
      some (s.set c { client with place := .testing })
    else none
  | .test _ =>
    if client.place = .testing then
      some (s.set c { client with place := if s.serverShutdown then .leaving else .receiving })
    else none
  | .receive _ =>
    match client.place, client.inbox with
    | .receiving, msg :: rest => some (s.set c { client with place := .received msg, inbox := rest })
    | _, _ => none
  | .hangup _ =>
    if client.place = .receiving then some (s.set c { client with place := .leaving }) else none
  | .lock _ =>
    match client.place, s.lockList with
    | .received msg, none =>
      some { s.set c { client with place := .locked msg } with lockList := some c }
    | _, _ => none
  | .link _ =>
    match client.place, s.rlsLock with
    | .locked msg, none =>
      if needsForward msg then
        some { s.set c { client with place := .linked msg } with rlsLock := some (.client c) }
      else none
    | _, _ => none
  | .alone _ =>
    match client.place, s.next with
    | .linked msg, false =>
      some { s.set c { client with place := .forwarded msg (zooForwardToSuccessor false none) } with
        rlsLock := none }
    | _, _ => none
  | .forward _ resp =>
    match client.place, s.next with
    | .linked msg, true =>
      some { s.set c { client with place := .forwarded msg (zooForwardToSuccessor true resp) } with
        rlsLock := none }
    | _, _ => none
  | .invoke _ =>
    match client.place with
    | .locked msg =>
      if needsForward msg then none else some (s.set c { client with place := .invoking msg })
    | .forwarded msg fwdRc =>
      if fwdRc = -2 ∨ fwdRc = 0 then some (s.set c { client with place := .invoking msg })
      else none
    | _ => none
  | .refuse _ =>
    match client.place with
    | .forwarded msg fwdRc =>
      if fwdRc = -2 ∨ fwdRc = 0 then none
      else some (s.set c
        { client with place := .answered { msg with opcode := opError, result := -1 } })
    | _ => none
  | .finish _ =>
    match client.place, s.list with
    | .invoking msg, some list =>
      some { s.set c { client with place := .answered (reply t msg list) } with
        list := some (after t msg list) }
    | _, _ => none
  | .unlock _ =>
    match client.place with
    | .answered msg => some { s.set c { client with place := .sending msg } with lockList := none }
    | _ => none
  | .reply _ sent =>
    match client.place with
    | .sending _ => some (s.set c { client with place := if sent then .testing else .leaving })
    | _ => none
  | .deregister _ =>
    if client.place = .leaving ∧ s.main.holdsNumClients = false then
      some (s.set c { client with place := .ended })
    else none
  | _ => none

def step (t : AnoAtual) (s : State) (a : Act) : Option State :=
  match a.client with
  | some c =>
    match s.clients[c]? with
    | some client => stepClient t s c client a
    | none => none
  | none => stepMain s a

/-- Nothing but an answer of the successor can keep the thread from executing
its request. -/
def Place.executes : Place → Bool
  | .received msg | .locked msg => !needsForward msg
  | .forwarded _ fwdRc => decide (fwdRc = -2 ∨ fwdRc = 0)
  | .invoking _ => true
  | _ => false

/-- No client thread is in `invoke` without a list. -/
def NoUseAfterDestroy (s : State) : Prop :=
  s.list = none → ∀ client ∈ s.clients, ∀ msg, client.place ≠ .invoking msg

/-- What is asked of the steps: the list is destroyed while no client thread is
about to execute a request, and after that no read is received and every write
that is forwarded goes to a successor and gets no reply. -/
def Drained (s : State) : Act → Prop
  | .listSkelDestroy => ∀ client ∈ s.clients, client.place.executes = false
  | .receive c => s.list = none →
      ∀ client ∈ s.clients[c]?, ∀ msg ∈ client.inbox.head?, needsForward msg = true
  | .alone _ => s.list ≠ none
  | .forward _ resp => s.list = none → resp = none
  | _ => True

instance (s : State) (a : Act) : Decidable (Drained s a) := by
  cases a <;> unfold Drained <;> infer_instance

def Quiet (s : State) : Prop := s.list = none → ∀ client ∈ s.clients, client.place.executes = false

section Preservation

variable {t : AnoAtual} {s s' : State} {a : Act} {c : Nat} {client : Client}

theorem quiet_congr (h : Quiet s) (hlist : s'.list = s.list) (hclients : s'.clients = s.clients) :
    Quiet s' := by
  unfold Quiet
  rw [hlist, hclients]
  exact h

theorem quiet_set (h : Quiet s) {client' : Client} (hlist : s'.list = none → s.list = none)
    (hclients : s'.clients = s.clients.set c client')
    (hplace : s.list = none → client'.place.executes = false) : Quiet s' := by
  intro hl d hd
  rw [hclients] at hd
  obtain hd | rfl := List.mem_or_eq_of_mem_set hd
  · exact h (hlist hl) d hd
  · exact hplace (hlist hl)

theorem move_eq_some {old new : Main} : s.move old new = some s' ↔
    s.main = old ∧ { s with main := new } = s' := by
  simp [State.move]

theorem stepMain_quiet (h : Quiet s) (hg : Drained s a) (hs : stepMain s a = some s') :
    Quiet s' := by
  cases a with
  | signal =>
    obtain rfl := Option.some.inj hs
    exact quiet_congr h rfl rfl
  | update found =>
    obtain ⟨-, hs⟩ := Option.ite_none_right_eq_some.mp hs
    obtain rfl := Option.some.inj hs
    exact quiet_congr h rfl rfl
  | accept =>
    obtain ⟨-, hs⟩ := Option.ite_none_left_eq_some.mp hs
    obtain ⟨-, rfl⟩ := move_eq_some.mp hs
    exact quiet_congr h rfl rfl
  | leave =>
    obtain ⟨-, hs⟩ := Option.ite_none_right_eq_some.mp hs
    obtain ⟨-, rfl⟩ := move_eq_some.mp hs
    exact quiet_congr h rfl rfl
  | busy | fail | zookeeperClose | networkServerClose | join | close =>
    obtain ⟨-, rfl⟩ := move_eq_some.mp hs
    exact quiet_congr h rfl rfl
  | create =>
    obtain ⟨u, hu, rfl⟩ := Option.map_eq_some_iff.mp hs
    obtain ⟨-, rfl⟩ := move_eq_some.mp hu
    intro hl d hd
    obtain hd | hd := List.mem_append.mp hd
    · exact h hl d hd
    · rw [List.mem_singleton.mp hd]
      rfl
  | lockNext =>
    obtain ⟨-, hs⟩ := Option.ite_none_right_eq_some.mp hs
    obtain ⟨u, hu, rfl⟩ := Option.map_eq_some_iff.mp hs
    obtain ⟨-, rfl⟩ := move_eq_some.mp hu
    exact quiet_congr h rfl rfl
  | dropNext =>
    obtain ⟨u, hu, rfl⟩ := Option.map_eq_some_iff.mp hs
    obtain ⟨-, rfl⟩ := move_eq_some.mp hu
    exact quiet_congr h rfl rfl
  | listSkelDestroy =>
    obtain ⟨u, hu, rfl⟩ := Option.map_eq_some_iff.mp hs
    obtain ⟨-, rfl⟩ := move_eq_some.mp hu
    exact fun _ => hg
  | shutdown c =>
    simp only [stepMain] at hs
    split at hs
    next client hc =>
      obtain ⟨-, hs⟩ := Option.ite_none_left_eq_some.mp hs
      obtain ⟨u, hu, rfl⟩ := Option.map_eq_some_iff.mp hs
      obtain ⟨-, rfl⟩ := move_eq_some.mp hu
      exact quiet_set h id rfl fun hl => h hl client (List.mem_of_getElem? hc)
    next => cases hs
  | _ => cases hs

theorem stepClient_quiet (h : Quiet s) (ha : a.client = some c) (hc : s.clients[c]? = some client)
    (hg : Drained s a) (hs : stepClient t s c client a = some s') : Quiet s' := by
  have hold : s.list = none → client.place.executes = false := fun hl =>
    h hl client (List.mem_of_getElem? hc)
  cases a with
  | send d msg =>
    obtain ⟨-, hs⟩ := Option.ite_none_left_eq_some.mp hs
    obtain rfl := Option.some.inj hs
    exact quiet_set h id rfl hold
  | register d | hangup d | deregister d =>
    obtain ⟨-, hs⟩ := Option.ite_none_right_eq_some.mp hs
    obtain rfl := Option.some.inj hs
    exact quiet_set h id rfl fun _ => rfl
  | test d =>
    obtain ⟨-, hs⟩ := Option.ite_none_right_eq_some.mp hs
    obtain rfl := Option.some.inj hs
    refine quiet_set h id rfl fun _ => ?_
    dsimp only
    split <;> rfl
  | receive d =>
    obtain rfl := Option.some.inj ha
    simp only [stepClient] at hs
    split at hs
    next msg rest _ hinbox =>
      obtain rfl := Option.some.inj hs
      refine quiet_set h id rfl fun hl => ?_
      have hmsg := hg hl client hc msg (by rw [hinbox]; rfl)
      simp [Place.executes, hmsg]
    next => cases hs
  | lock d =>
    simp only [stepClient] at hs
    split at hs
    next msg hplace _ =>
      obtain rfl := Option.some.inj hs
      rw [hplace] at hold
      exact quiet_set h id rfl hold
    next => cases hs
  | link d =>
    simp only [stepClient] at hs
    split at hs
    next =>
      obtain ⟨-, hs⟩ := Option.ite_none_right_eq_some.mp hs
      obtain rfl := Option.some.inj hs
      exact quiet_set h id rfl fun _ => rfl
    next => cases hs
  | alone d =>
    simp only [stepClient] at hs
    split at hs
    next =>
      obtain rfl := Option.some.inj hs
      exact quiet_set h id rfl fun hl => absurd hl hg
    next => cases hs
  | forward d resp =>
    simp only [stepClient] at hs
    split at hs
    next =>
      obtain rfl := Option.some.inj hs
      refine quiet_set h id rfl fun hl => ?_
      obtain rfl := hg hl
      rfl
    next => cases hs
  | invoke d =>
    simp only [stepClient] at hs
    split at hs
    next msg hplace =>
      obtain ⟨hread, hs⟩ := Option.ite_none_left_eq_some.mp hs
      obtain rfl := Option.some.inj hs
      refine quiet_set h id rfl fun hl => ?_
      have hex := hold hl
      simp [hplace, Place.executes, hread] at hex
    next msg fwdRc hplace =>
      obtain ⟨hrc, hs⟩ := Option.ite_none_right_eq_some.mp hs
      obtain rfl := Option.some.inj hs
      refine quiet_set h id rfl fun hl => ?_
      have hex := hold hl
      simp [hplace, Place.executes, hrc] at hex
    next => cases hs
  | refuse d =>
    simp only [stepClient] at hs
    split at hs
    next =>
      obtain ⟨-, hs⟩ := Option.ite_none_left_eq_some.mp hs
      obtain rfl := Option.some.inj hs
      exact quiet_set h id rfl fun _ => rfl
    next => cases hs
  | finish d =>
    simp only [stepClient] at hs
    split at hs
    next =>
      obtain rfl := Option.some.inj hs
      exact quiet_set h nofun rfl fun _ => rfl
    next => cases hs
  | unlock d =>
    simp only [stepClient] at hs
    split at hs
    next =>
      obtain rfl := Option.some.inj hs
      exact quiet_set h id rfl fun _ => rfl
    next => cases hs
  | reply d sent =>
    simp only [stepClient] at hs
    split at hs
    next =>
      obtain rfl := Option.some.inj hs
      refine quiet_set h id rfl fun _ => ?_
      cases sent <;> rfl
    next => cases hs
  | _ => cases ha

theorem quiet_step (h : Quiet s) (hg : Drained s a) (hs : step t s a = some s') : Quiet s' := by
  simp only [step] at hs
  split at hs
  next c ha =>
    split at hs
    next client hc => exact stepClient_quiet h ha hc hg hs
    next => cases hs
  next => exact stepMain_quiet h hg hs

end Preservation

theorem quiet_start (list : ListT) (next : Bool) : Quiet (.start list next) := nofun

theorem noUse_of_quiet {s : State} (h : Quiet s) : NoUseAfterDestroy s := by
  intro hl client hclient msg hplace
  have hex := h hl client hclient
  rw [hplace] at hex
  cases hex

/-- In a run whose steps are all drained, no thread is in `invoke` once the
list is destroyed. -/
theorem no_use_after_destroy (t : AnoAtual) (list : ListT) (next : Bool) (as : List Act)
    (h : Meets (step t) Drained (.start list next) as) : ∀ ks ms s, as = ks ++ ms →
      run (step t) (.start list next) ks = some s → NoUseAfterDestroy s := by
  intro ks ms s he hrun
  have hquiet := reached_invariant (step t) (fun _ _ _ => quiet_step) (quiet_start list next) h
  exact noUse_of_quiet (hquiet ks ms s he hrun)

def sizeRequest : MessageT := { MessageT.init with opcode := opSize, cType := ctNone }

/-- A client is served, the server is told to stop, and the client hangs up
before the list is destroyed. -/
def drainedShutdown : List Act :=
  [.accept, .create, .register 0, .test 0, .send 0 sizeRequest, .receive 0, .lock 0, .invoke 0,
    .finish 0, .unlock 0, .reply 0 true, .test 0, .signal, .hangup 0, .deregister 0, .leave,
    .lockNext, .dropNext, .zookeeperClose, .listSkelDestroy]

theorem no_use_after_destroy_drained :
    ∃ s, run (step (.same 2026)) (.start listCreate false) drainedShutdown = some s ∧
      s.main = .destroyed ∧ NoUseAfterDestroy s :=
  ⟨_, rfl, rfl, no_use_after_destroy (.same 2026) listCreate false drainedShutdown (by decide)
    drainedShutdown [] _ (List.append_nil _).symm rfl⟩

/-- A client thread has tested the flag before the signal and receives a
request after the list is destroyed. -/
def lateRequest : List Act :=
  [.accept, .create, .register 0, .test 0, .signal, .leave, .lockNext, .dropNext, .zookeeperClose,
    .listSkelDestroy, .send 0 sizeRequest, .receive 0, .lock 0, .invoke 0]

theorem use_after_destroy : ¬ ∀ ks ms s, lateRequest = ks ++ ms →
    run (step (.same 2026)) (.start listCreate false) ks = some s → NoUseAfterDestroy s := by
  intro h
  exact h lateRequest [] _ (List.append_nil _).symm rfl rfl _ List.mem_cons_self sizeRequest rfl

end ListServer.Shutdown
