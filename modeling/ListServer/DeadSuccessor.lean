import ListServer.LastServer

namespace ListServer.DeadSuccessor

open Lib.CTypes Lib.Transition
open CarList Message Skeleton ClientThread ChainServer
open LastServer (Children)

/-- Where the watcher thread stands: called for an event, with the children it
has read, in `update` under `rls_lock` before `zoo_get`, and in `rlist_connect`. -/
inductive Watcher
  | idle
  | notified
  | listed (children : Children)
  | updating (children : Children)
  | connecting (node : CString)

/-- A server with its watcher thread. `node` is what `rl_next_server` is connected
to, `inbox` what has come back for the request that is being forwarded, and
`silent` tells that the dead server has stopped answering. -/
structure State where
  server : Server
  node : Option CString
  inbox : Option (Option MessageT)
  watcher : Watcher
  children : Children
  watch : Bool
  pending : Bool
  silent : Bool

/-- The server accepts connections and is connected to the successor that its
children list gives. -/
def State.start (list : ListT) (lower : Int) (children : Children) : State :=
  let node := updateNext lower children.names
  ⟨.start list node.isSome, node, none, .idle, children, true, false, false⟩

/-- `update` has come to an end with this successor. -/
def State.unlock (s : State) (node : Option CString) : State :=
  { s with
    server := { s.server with rlsLock := none, next := node.isSome }
    node := node
    watcher := .idle }

/-- The steps that put a request on the connection to the successor or take a
reply from it. -/
def exchanges : Act → Bool
  | .forward _ | .back _ _ => true
  | _ => false

/-- The steps of the client threads with their clients, of the successor that
answers, of the children of `/chain` and of the watcher. -/
inductive Label
  | own (a : Act)
  | forward (c : Conn)
  | answer (resp : Option MessageT)
  | back (c : Conn)
  | die
  | change (children : Children)
  | event
  | list
  | update
  | get (found : Bool)
  | ready (connected : Bool)

variable (t : AnoAtual) (lower : Int) (dead : CString)

def step (s : State) : Label → Option State
  | .own a =>
    if exchanges a then none else (s.server.step t a).map fun u => { s with server := u }
  | .forward c => (s.server.step t (.forward c)).map fun u => { s with server := u }
  | .answer resp =>
    match s.server.rlsLock with
    | some (.thread c) =>
      match s.server.phase c with
      | .waiting _ =>
        if s.inbox = none ∧ (s.node = some dead → s.silent = false) then
          some { s with inbox := some resp }
        else none
      | _ => none
    | _ => none
  | .back c =>
    match s.inbox with
    | some resp =>
      (s.server.step t (.back c resp)).map fun u => { s with server := u, inbox := none }
    | none => none
  | .die => some { s with silent := true }
  | .change children =>
    some { s with children := children, watch := false, pending := s.pending || s.watch }
  | .event =>
    match s.watcher with
    | .idle => if s.pending then some { s with watcher := .notified, pending := false } else none
    | _ => none
  | .list =>
    match s.watcher with
    | .notified => some { s with watcher := .listed s.children, watch := true }
    | _ => none
  | .update =>
    match s.watcher, s.server.rlsLock with
    | .listed children, none =>
      some { s with
        server := { s.server with rlsLock := some .watcher, next := false }
        node := none
        watcher := .updating children }
    | _, _ => none
  | .get found =>
    match s.watcher with
    | .updating children =>
      match updateNext lower children.names, found with
      | some node, true =>
        if node ∈ s.children.names then some { s with watcher := .connecting node } else none
      | _, _ => some (s.unlock none)
    | _ => none
  | .ready connected =>
    match s.watcher with
    | .connecting node =>
      if node = dead ∧ s.silent then none
      else some (s.unlock (if connected then some node else none))
    | _ => none

/-- The watcher has handled every event and the dead server is not the successor. -/
def Dropped (s : State) : Prop :=
  s.watcher = .idle ∧ s.pending = false ∧ s.node ≠ some dead

def Label.continues : Label → Prop
  | .die | .change _ => False
  | _ => True

/-- A client thread holds `rls_lock` with the dead server as successor and no
reply of it has come, or the watcher waits for its READY. -/
def Frozen (s : State) : Prop :=
  (s.node = some dead ∧ s.inbox = none ∧ ∃ c, s.server.rlsLock = some (.thread c)) ∨
    s.watcher = .connecting dead

def Watcher.holds : Watcher → Bool
  | .updating _ | .connecting _ => true
  | _ => false

/-- The locks have the owners that the threads say, and as long as the watch is
set, the watcher works with the children there are. -/
structure Inv (s : State) : Prop where
  locks : s.server.Locks
  next : s.server.next = s.node.isSome
  watcher : s.server.rlsLock = some .watcher ↔ s.watcher.holds = true
  waits : ∀ c r, s.server.phase c = .waiting r → s.server.next = true
  inbox : s.inbox ≠ none → ∃ c r, s.server.phase c = .waiting r
  watching : s.watch = true → s.pending = false ∧ s.watcher ≠ .notified
  unwatched : s.watch = false → s.pending = true ∨ s.watcher = .notified
  notified : s.watcher = .notified → s.pending = false
  connecting : s.watch = true → ∀ x, s.watcher = .connecting x → x ∈ s.children.names
  idle : s.watch = true → s.watcher = .idle → ∀ x, s.node = some x → x ∈ s.children.names

section Inversion

variable {t} {lower} {dead} {s s' : State} {c : Conn}

theorem own_eq_some {a : Act} : step t lower dead s (.own a) = some s' ↔
    exchanges a = false ∧ ∃ u, s.server.step t a = some u ∧ { s with server := u } = s' := by
  simp [step]

theorem forward_eq_some : step t lower dead s (.forward c) = some s' ↔
    ∃ u, s.server.step t (.forward c) = some u ∧ { s with server := u } = s' :=
  Option.map_eq_some_iff

theorem answer_eq_some {resp : Option MessageT} : step t lower dead s (.answer resp) = some s' ↔
    ∃ c r, s.server.rlsLock = some (.thread c) ∧ s.server.phase c = .waiting r ∧
      s.inbox = none ∧ (s.node = some dead → s.silent = false) ∧
      { s with inbox := some resp } = s' := by
  simp only [step]
  constructor
  · intro hs
    split at hs
    next c hr =>
      split at hs
      next r hp =>
        obtain ⟨⟨hi, hnode⟩, hs⟩ := Option.ite_none_right_eq_some.mp hs
        exact ⟨c, r, hr, hp, hi, hnode, Option.some.inj hs⟩
      next => cases hs
    next => cases hs
  · rintro ⟨c, r, hr, hp, hi, hnode, rfl⟩
    simp only [hr, hp]
    exact if_pos ⟨hi, hnode⟩

theorem back_eq_some : step t lower dead s (.back c) = some s' ↔
    ∃ resp u, s.inbox = some resp ∧ s.server.step t (.back c resp) = some u ∧
      { s with server := u, inbox := none } = s' := by
  cases hi : s.inbox <;> simp [step, hi]

theorem event_eq_some : step t lower dead s .event = some s' ↔
    s.watcher = .idle ∧ s.pending = true ∧
      { s with watcher := .notified, pending := false } = s' := by
  cases hw : s.watcher <;> simp [step, hw]

theorem list_eq_some : step t lower dead s .list = some s' ↔
    s.watcher = .notified ∧ { s with watcher := .listed s.children, watch := true } = s' := by
  cases hw : s.watcher <;> simp [step, hw]

theorem update_eq_some : step t lower dead s .update = some s' ↔
    ∃ children, s.watcher = .listed children ∧ s.server.rlsLock = none ∧
      { s with
        server := { s.server with rlsLock := some .watcher, next := false }
        node := none
        watcher := .updating children } = s' := by
  cases hw : s.watcher <;> cases hr : s.server.rlsLock <;> simp [step, hw, hr]

theorem get_eq_some {found : Bool} : step t lower dead s (.get found) = some s' ↔
    ∃ children, s.watcher = .updating children ∧
      ((∃ node, updateNext lower children.names = some node ∧ found = true ∧
          node ∈ s.children.names ∧ { s with watcher := .connecting node } = s') ∨
        ((updateNext lower children.names = none ∨ found = false) ∧ s.unlock none = s')) := by
  cases hw : s.watcher with
  | updating children =>
    cases hn : updateNext lower children.names <;> cases found <;> simp [step, hw, hn]
  | _ => simp [step, hw]

theorem ready_eq_some {connected : Bool} : step t lower dead s (.ready connected) = some s' ↔
    ∃ node, s.watcher = .connecting node ∧ ¬ (node = dead ∧ s.silent = true) ∧
      s.unlock (if connected then some node else none) = s' := by
  cases hw : s.watcher with
  | connecting node =>
    simp only [step, hw, Option.ite_none_left_eq_some]
    simp
  | _ => simp [step, hw]

end Inversion

section Preservation

variable {t} {lower} {dead} {s s' : State} {l : Label}

/-- A thread that exchanges nothing leaves the waits alone, and `rls_lock` too
while there is a successor. -/
structure Apart (u v : Server) : Prop where
  next : v.next = u.next
  waiting : ∀ c r, v.phase c = .waiting r ↔ u.phase c = .waiting r
  rls : u.next = true → ∀ h, u.rlsLock = some h → v.rlsLock = some h

theorem apart_setPhase {u : Server} {c : Conn} {p : Phase} {list : ListT} {ll : Option Conn}
    (hold : ∀ r, u.phase c ≠ .waiting r) (hnew : ∀ r, p ≠ .waiting r) :
    Apart u { u.setPhase c p with list := list, lockList := ll } :=
  ⟨rfl, setPhase_waiting hold hnew, fun _ _ h => h⟩

theorem own_apart {u v : Server} {a : Act} (ha : exchanges a = false)
    (hs : u.step t a = some v) : Apart u v := by
  cases a with
  | forward | back => cases ha
  | deliver c r =>
    obtain ⟨hp, rfl⟩ := step_deliver.mp hs
    exact apart_setPhase (by simp [hp]) (by simp)
  | receive c =>
    obtain ⟨r, hp, rfl⟩ := step_receive.mp hs
    exact apart_setPhase (by simp [hp]) (by simp)
  | lock c =>
    obtain ⟨r, hp, -, rfl⟩ := step_lock.mp hs
    exact apart_setPhase (by simp [hp]) (by simp)
  | link c =>
    obtain ⟨r, hp, -, hfree, rfl⟩ := step_link.mp hs
    refine ⟨rfl, setPhase_waiting (by simp [hp]) (by simp), fun _ h hh => ?_⟩
    cases hfree.symm.trans hh
  | alone c =>
    obtain ⟨r, hp, hnext, rfl⟩ := step_alone.mp hs
    refine ⟨rfl, setPhase_waiting (by simp [hp]) (by simp), fun hn => ?_⟩
    cases hnext.symm.trans hn
  | invoke c =>
    obtain ⟨r, rc, hp, rfl⟩ := step_invoke.mp hs
    exact apart_setPhase (invoke_place hp).2 (by simp)
  | release c =>
    obtain ⟨r, m, hp, rfl⟩ := step_release.mp hs
    exact apart_setPhase (by simp [hp]) (by simp)
  | reply c =>
    obtain ⟨r, m, hp, rfl⟩ := step_reply.mp hs
    exact apart_setPhase (by simp [hp]) (by simp)
  | take c =>
    obtain ⟨r, m, hp, rfl⟩ := step_take.mp hs
    exact apart_setPhase (by simp [hp]) (by simp)

theorem inv_start (list : ListT) (lower : Int) (children : Children) :
    Inv (.start list lower children) where
  locks := locks_start list _
  next := rfl
  watcher := iff_of_false nofun nofun
  waits c r hc := by cases hc
  inbox hi := absurd rfl hi
  watching _ := ⟨rfl, nofun⟩
  unwatched hw := by cases hw
  notified _ := rfl
  connecting _ x hx := by cases hx
  idle _ _ x hx := by
    obtain ⟨n, hbest⟩ := (LastServer.updateNext_eq_some.mp hx).2
    exact hbest.mem

/-- A thread that holds `rls_lock` is not the watcher. -/
theorem Inv.no_waiting (h : Inv s) {owner : Option Holder} (ho : s.server.rlsLock = owner)
    (hne : ∀ c, owner ≠ some (.thread c)) (c : Conn) (r : Request) :
    s.server.phase c ≠ .waiting r := fun hc => by
  have hr := (h.locks.rls c).mp (by rw [hc]; rfl)
  exact hne c (ho.symm.trans hr)

theorem inv_own (h : Inv s) {u : Server} {a : Act} (ha : exchanges a = false)
    (hs : s.server.step t a = some u) : Inv { s with server := u } := by
  have hap := own_apart ha hs
  exact { h with
    locks := step_locks h.locks hs
    next := hap.next.trans h.next
    watcher := (step_watcher h.locks hs).trans h.watcher
    waits := fun c r hc => hap.next.trans (h.waits c r ((hap.waiting c r).mp hc))
    inbox := fun hi => by
      obtain ⟨c, r, hc⟩ := h.inbox hi
      exact ⟨c, r, (hap.waiting c r).mpr hc⟩ }

theorem inv_forward (h : Inv s) {u : Server} {c : Conn}
    (hs : s.server.step t (.forward c) = some u) : Inv { s with server := u } := by
  obtain ⟨r, hp, hnext, rfl⟩ := step_forward.mp hs
  exact { h with
    locks := step_locks h.locks hs
    watcher := (step_watcher h.locks hs).trans h.watcher
    waits := fun _ _ _ => hnext
    inbox := fun hi => by
      obtain ⟨d, q, hd⟩ := h.inbox hi
      have hdc : d ≠ c := fun he => by
        rw [he, hp] at hd
        cases hd
      exact ⟨d, q, (setPhase_ne _ _ hdc).trans hd⟩ }

theorem inv_back (h : Inv s) {u : Server} {c : Conn} {resp : Option MessageT}
    (hs : s.server.step t (.back c resp) = some u) :
    Inv { s with server := u, inbox := none } := by
  obtain ⟨r, hp, rfl⟩ := step_back.mp hs
  exact { h with
    locks := step_locks h.locks hs
    watcher := (step_watcher h.locks hs).trans h.watcher
    waits := fun d q hd => by
      by_cases hdc : d = c
      · rw [hdc] at hd
        cases (setPhase_self s.server c _).symm.trans hd
      · exact h.waits d q ((setPhase_ne _ _ hdc).symm.trans hd)
    inbox := fun hi => absurd rfl hi }

/-- The watcher takes `rls_lock` or gives it away. -/
theorem inv_watcher (h : Inv s) {owner : Option Holder} {node : Option CString} {w : Watcher}
    (hold : ∀ c, s.server.rlsLock ≠ some (.thread c)) (hnew : ∀ c, owner ≠ some (.thread c))
    (hw : owner = some .watcher ↔ w.holds = true) (hn : w ≠ .notified)
    (hs : s.watcher ≠ .notified)
    (hconnecting : s.watch = true → ∀ x, w = .connecting x → x ∈ s.children.names)
    (hidle : s.watch = true → w = .idle → ∀ x, node = some x → x ∈ s.children.names) :
    Inv { s with
      server := { s.server with rlsLock := owner, next := node.isSome }
      node := node
      watcher := w } := by
  have hnone : ∀ c r, s.server.phase c ≠ .waiting r := h.no_waiting rfl hold
  exact {
    locks := ⟨h.locks.list,
      fun c => ((h.locks.rls c).trans (iff_of_false (hold c) (hnew c))), h.locks.writes⟩
    next := rfl
    watcher := hw
    waits := fun c r hc => absurd hc (hnone c r)
    inbox := fun hi => by
      obtain ⟨c, r, hc⟩ := h.inbox hi
      exact absurd hc (hnone c r)
    watching := fun hw => ⟨(h.watching hw).1, hn⟩
    unwatched := fun hw => .inl ((h.unwatched hw).resolve_right hs)
    notified := fun he => absurd he hn
    connecting := hconnecting
    idle := hidle }

theorem inv_unlock (h : Inv s) {node : Option CString} (hw : s.watcher.holds = true)
    (hnode : s.watch = true → ∀ x, node = some x → x ∈ s.children.names) :
    Inv (s.unlock node) := by
  have hrls := h.watcher.mpr hw
  refine inv_watcher h (fun c hc => ?_) nofun (iff_of_false nofun nofun) nofun (fun hn => ?_)
    (fun _ x hx => ?_) fun hwatch _ => hnode hwatch
  · cases hrls.symm.trans hc
  · rw [hn] at hw
    cases hw
  · cases hx

theorem inv_step (h : Inv s) (hs : step t lower dead s l = some s') : Inv s' := by
  cases l with
  | own a =>
    obtain ⟨ha, u, hu, rfl⟩ := own_eq_some.mp hs
    exact inv_own h ha hu
  | forward c =>
    obtain ⟨u, hu, rfl⟩ := forward_eq_some.mp hs
    exact inv_forward h hu
  | answer resp =>
    obtain ⟨c, r, -, hp, -, -, rfl⟩ := answer_eq_some.mp hs
    exact { h with inbox := fun _ => ⟨c, r, hp⟩ }
  | back c =>
    obtain ⟨resp, u, -, hu, rfl⟩ := back_eq_some.mp hs
    exact inv_back h hu
  | die =>
    obtain rfl := Option.some.inj hs
    exact { h with }
  | change children =>
    obtain rfl := Option.some.inj hs
    exact { h with
      watching := nofun
      unwatched := fun _ => by
        cases hw : s.watch with
        | true => exact .inl (by simp)
        | false => exact (h.unwatched hw).imp_left fun hp => by simp [hp]
      notified := fun hn => by
        have hp := h.notified hn
        cases hw : s.watch with
        | true => exact absurd hn (h.watching hw).2
        | false => simp [hp]
      connecting := nofun
      idle := nofun }
  | event =>
    obtain ⟨hidle, hp, rfl⟩ := event_eq_some.mp hs
    have hwatch : s.watch ≠ true := fun hw => by
      cases hp.symm.trans (h.watching hw).1
    exact { h with
      watcher := h.watcher.trans (by rw [hidle]; rfl)
      watching := fun hw => absurd hw hwatch
      unwatched := fun _ => .inr rfl
      notified := fun _ => rfl
      connecting := fun hw => absurd hw hwatch
      idle := fun hw => absurd hw hwatch }
  | list =>
    obtain ⟨hn, rfl⟩ := list_eq_some.mp hs
    exact { h with
      watcher := h.watcher.trans (by rw [hn]; rfl)
      watching := fun _ => ⟨h.notified hn, nofun⟩
      unwatched := nofun
      notified := nofun
      connecting := fun _ _ he => by cases he
      idle := fun _ he => by cases he }
  | update =>
    obtain ⟨children, hlisted, hfree, rfl⟩ := update_eq_some.mp hs
    refine @inv_watcher s h _ none _ (fun c hc => ?_) nofun (iff_of_true rfl rfl) nofun
      (fun hn => ?_) nofun nofun
    · cases hfree.symm.trans hc
    · cases hlisted.symm.trans hn
  | get found =>
    obtain ⟨children, hup, ⟨node, -, -, hmem, rfl⟩ | ⟨-, rfl⟩⟩ := get_eq_some.mp hs
    · exact { h with
        watcher := h.watcher.trans (by rw [hup]; rfl)
        watching := fun hw => ⟨(h.watching hw).1, nofun⟩
        unwatched := fun hw => .inl ((h.unwatched hw).resolve_right (by rw [hup]; exact nofun))
        notified := nofun
        connecting := fun _ x hx => Watcher.connecting.inj hx ▸ hmem
        idle := fun _ he => by cases he }
    · exact inv_unlock h (by rw [hup]; rfl) fun _ x hx => by cases hx
  | ready connected =>
    obtain ⟨node, hcon, -, rfl⟩ := ready_eq_some.mp hs
    refine inv_unlock h (by rw [hcon]; rfl) fun hw x hx => ?_
    cases connected with
    | false => cases hx
    | true =>
      obtain rfl := Option.some.inj hx
      exact h.connecting hw node hcon

/-- Of the steps that remain, none ends the wait for the dead server. -/
theorem frozen_step (h : Inv s) (hf : Frozen dead s) (hdead : s.silent = true)
    (hl : l.continues) (hs : step t lower dead s l = some s') :
    Frozen dead s' ∧ s'.silent = true := by
  have hrls : ∀ c, (s.node = some dead ∧ s.inbox = none ∧
      s.server.rlsLock = some (.thread c)) → s.server.next = true ∧ s.watcher.holds ≠ true :=
    fun c ⟨hn, _, hr⟩ => ⟨by rw [h.next, hn]; rfl, fun hw => by
      cases hr.symm.trans (h.watcher.mpr hw)⟩
  cases l with
  | die | change children => cases hl
  | own a =>
    obtain ⟨ha, u, hu, rfl⟩ := own_eq_some.mp hs
    have hap := own_apart ha hu
    refine ⟨hf.imp_left fun ⟨hn, hi, c, hr⟩ => ⟨hn, hi, c, ?_⟩, hdead⟩
    exact hap.rls (hrls c ⟨hn, hi, hr⟩).1 _ hr
  | forward c =>
    obtain ⟨u, hu, rfl⟩ := forward_eq_some.mp hs
    obtain ⟨r, -, -, rfl⟩ := step_forward.mp hu
    exact ⟨hf, hdead⟩
  | answer resp =>
    obtain ⟨-, -, -, -, -, hnode, rfl⟩ := answer_eq_some.mp hs
    refine ⟨hf.imp_left fun ⟨hn, _⟩ => ?_, hdead⟩
    cases hdead.symm.trans (hnode hn)
  | back c =>
    obtain ⟨resp, u, hi, -, rfl⟩ := back_eq_some.mp hs
    refine ⟨hf.imp_left fun ⟨_, hnone, _⟩ => ?_, hdead⟩
    cases hnone.symm.trans hi
  | event =>
    obtain ⟨hidle, -, rfl⟩ := event_eq_some.mp hs
    exact ⟨.inl (hf.resolve_right (by rw [hidle]; exact nofun)), hdead⟩
  | list =>
    obtain ⟨hn, rfl⟩ := list_eq_some.mp hs
    exact ⟨.inl (hf.resolve_right (by rw [hn]; exact nofun)), hdead⟩
  | update =>
    obtain ⟨children, hlisted, hfree, -⟩ := update_eq_some.mp hs
    obtain ⟨-, -, c, hr⟩ := hf.resolve_right (by rw [hlisted]; exact nofun)
    cases hfree.symm.trans hr
  | get found =>
    obtain ⟨children, hup, -⟩ := get_eq_some.mp hs
    obtain ⟨hn, hi, c, hr⟩ := hf.resolve_right (by rw [hup]; exact nofun)
    exact absurd (by rw [hup]; rfl) (hrls c ⟨hn, hi, hr⟩).2
  | ready connected =>
    obtain ⟨node, hcon, hne, -⟩ := ready_eq_some.mp hs
    obtain ⟨hn, hi, c, hr⟩ | hw := hf
    · exact absurd (by rw [hcon]; rfl) (hrls c ⟨hn, hi, hr⟩).2
    · obtain rfl := Watcher.connecting.inj (hcon.symm.trans hw)
      exact absurd ⟨rfl, hdead⟩ hne

theorem not_reaches_of_frozen (h : Inv s) (hf : Frozen dead s) (hdead : s.silent = true) :
    ¬ ∃ u, Reaches (step t lower dead) Label.continues s u ∧ Dropped dead u := by
  rintro ⟨u, hr, hidle, -, hnode⟩
  have hstep : ∀ s l s', (Inv s ∧ Frozen dead s ∧ s.silent = true) → Label.continues l →
      step t lower dead s l = some s' → Inv s' ∧ Frozen dead s' ∧ s'.silent = true :=
    fun _ _ _ hw hl hs => ⟨inv_step hw.1 hs, frozen_step hw.1 hw.2.1 hw.2.2 hl hs⟩
  obtain ⟨-, hfu, -⟩ := hr.invariant hstep ⟨h, hf, hdead⟩
  obtain ⟨hn, -⟩ | hw := hfu
  · exact hnode hn
  · cases hidle.symm.trans hw

/-- What a way to the end of an `update` leaves as it is. -/
structure Settled (s u : State) : Prop where
  children : u.children = s.children
  watch : u.watch = s.watch
  pending : u.pending = s.pending
  free : u.server.rlsLock = none

theorem inv_reaches (h : Inv s) (hr : Reaches (step t lower dead) Label.continues s s') :
    Inv s' := by
  have hstep : ∀ s l s', Inv s → Label.continues l → step t lower dead s l = some s' → Inv s' :=
    fun _ _ _ h _ hs => inv_step h hs
  exact hr.invariant hstep h

section Settling

variable (t) (lower)

theorem connecting_settles {x : CString} (hcon : s.watcher = .connecting x) (hx : x ≠ dead) :
    ∃ u, Reaches (step t lower dead) Label.continues s u ∧ Settled s u ∧ u.watcher = .idle := by
  have hs : step t lower dead s (.ready true) = some (s.unlock (some x)) :=
    ready_eq_some.mpr ⟨x, hcon, fun he => hx he.1, rfl⟩
  exact ⟨s.unlock (some x), .single hs trivial, ⟨rfl, rfl, rfl, rfl⟩, rfl⟩

/-- An `update` that has the lock comes to its end. -/
theorem updating_settles {children : Children} (hup : s.watcher = .updating children)
    (hgone : dead ∉ s.children.names) :
    ∃ u, Reaches (step t lower dead) Label.continues s u ∧ Settled s u ∧ u.watcher = .idle := by
  by_cases hfound : ∃ x, updateNext lower children.names = some x ∧ x ∈ s.children.names
  · obtain ⟨x, hx, hmem⟩ := hfound
    have hs : step t lower dead s (.get true) = some { s with watcher := .connecting x } :=
      get_eq_some.mpr ⟨children, hup, .inl ⟨x, hx, rfl, hmem, rfl⟩⟩
    have hne : x ≠ dead := fun he => hgone (he ▸ hmem)
    obtain ⟨u, hr, hset, hidle⟩ :=
      connecting_settles (s := { s with watcher := .connecting x }) t lower rfl hne
    exact ⟨u, .head hs trivial hr,
      ⟨hset.children, hset.watch, hset.pending, hset.free⟩, hidle⟩
  · have hs : step t lower dead s (.get false) = some (s.unlock none) :=
      get_eq_some.mpr ⟨children, hup, .inr ⟨.inr rfl, rfl⟩⟩
    exact ⟨s.unlock none, .single hs trivial, ⟨rfl, rfl, rfl, rfl⟩, rfl⟩

theorem waiting_settles {c : Conn} {r : Request} (h : Inv s) (hp : s.server.phase c = .waiting r)
    (hnode : s.inbox = none → s.node ≠ some dead) :
    ∃ u, Reaches (step t lower dead) Label.continues s u ∧ Settled s u ∧
      u.watcher = s.watcher := by
  have hback : ∀ (u : State) resp, u.server = s.server → u.inbox = some resp →
      ∃ v, step t lower dead u (.back c) = some v ∧ v.children = u.children ∧
        v.watch = u.watch ∧ v.pending = u.pending ∧ v.server.rlsLock = none ∧
        v.watcher = u.watcher := fun u resp hu hi => by
    have hs := (@step_back t u.server _ c resp).mpr ⟨r, hu ▸ hp, rfl⟩
    exact ⟨_, back_eq_some.mpr ⟨resp, _, hi, hs, rfl⟩, rfl, rfl, rfl, rfl, rfl⟩
  cases hi : s.inbox with
  | some resp =>
    obtain ⟨v, hs, hc, hw, hpd, hf, hwr⟩ := hback s resp rfl hi
    exact ⟨v, .single hs trivial, ⟨hc, hw, hpd, hf⟩, hwr⟩
  | none =>
    have hr := (h.locks.rls c).mp (by rw [hp]; rfl)
    have hs : step t lower dead s (.answer none) = some { s with inbox := some none } :=
      answer_eq_some.mpr ⟨c, r, hr, hp, hi, fun hn => absurd hn (hnode hi), rfl⟩
    obtain ⟨v, hs', hc, hw, hpd, hf, hwr⟩ := hback { s with inbox := some none } none rfl rfl
    exact ⟨v, .head hs trivial (.single hs' trivial), ⟨hc, hw, hpd, hf⟩, hwr⟩

/-- Where nothing is frozen, `rls_lock` comes free. -/
theorem rls_settles (h : Inv s) (hf : ¬ Frozen dead s) (hgone : dead ∉ s.children.names) :
    ∃ u, Reaches (step t lower dead) Label.continues s u ∧ Settled s u := by
  cases hr : s.server.rlsLock with
  | none => exact ⟨s, .refl s, rfl, rfl, rfl, hr⟩
  | some owner =>
    cases owner with
    | watcher =>
      have hholds := h.watcher.mp hr
      cases hw : s.watcher with
      | updating children =>
        obtain ⟨u, hu, hset, -⟩ := updating_settles t lower hw hgone
        exact ⟨u, hu, hset⟩
      | connecting x =>
        have hx : x ≠ dead := fun he => hf (.inr (he ▸ hw))
        obtain ⟨u, hu, hset, -⟩ := connecting_settles t lower hw hx
        exact ⟨u, hu, hset⟩
      | idle | notified | listed =>
        rw [hw] at hholds
        cases hholds
    | thread c =>
      have hnode : s.inbox = none → s.node ≠ some dead := fun hi hn => hf (.inl ⟨hn, hi, c, hr⟩)
      have hholds := (h.locks.rls c).mpr hr
      cases hp : s.server.phase c with
      | waiting r =>
        obtain ⟨u, hu, hset, -⟩ := waiting_settles t lower h hp hnode
        exact ⟨u, hu, hset⟩
      | linked r =>
        cases hn : s.server.next with
        | false =>
          have hu := step_alone (t := t).mpr ⟨r, hp, hn, rfl⟩
          have hs : step t lower dead s (.own (.alone c)) = some { s with
              server := { s.server.setPhase c (.forwarded r (-2)) with rlsLock := none } } :=
            own_eq_some.mpr ⟨rfl, _, hu, rfl⟩
          exact ⟨_, .single hs trivial, rfl, rfl, rfl, rfl⟩
        | true =>
          have hu := step_forward (t := t).mpr ⟨r, hp, hn, rfl⟩
          have hs : step t lower dead s (.forward c) =
              some { s with server := s.server.setPhase c (.waiting r) } :=
            forward_eq_some.mpr ⟨_, hu, rfl⟩
          obtain ⟨u, hr, hset, -⟩ := waiting_settles t lower (inv_step h hs)
            (setPhase_self s.server c (.waiting r)) hnode
          exact ⟨u, .head hs trivial hr, hset.children, hset.watch, hset.pending, hset.free⟩
      | _ =>
        rw [hp] at hholds
        cases hholds

/-- An `update` with the lock free comes to its end. -/
theorem listed_settles {children : Children} (hw : s.watcher = .listed children)
    (hfree : s.server.rlsLock = none) (hgone : dead ∉ s.children.names) :
    ∃ u, Reaches (step t lower dead) Label.continues s u ∧ Settled s u ∧ u.watcher = .idle := by
  have hs : step t lower dead s .update = some { s with
      server := { s.server with rlsLock := some .watcher, next := false }
      node := none
      watcher := .updating children } := update_eq_some.mpr ⟨children, hw, hfree, rfl⟩
  obtain ⟨u, hr, hset, hidle⟩ := updating_settles t lower
    (s := { s with
      server := { s.server with rlsLock := some .watcher, next := false }
      node := none
      watcher := .updating children }) rfl hgone
  exact ⟨u, .head hs trivial hr,
    ⟨hset.children, hset.watch, hset.pending, hset.free⟩, hidle⟩

theorem notified_settles (hw : s.watcher = .notified) (hfree : s.server.rlsLock = none)
    (hgone : dead ∉ s.children.names) :
    ∃ u, Reaches (step t lower dead) Label.continues s u ∧ Settled { s with watch := true } u ∧
      u.watcher = .idle := by
  have hs : step t lower dead s .list =
      some { s with watcher := .listed s.children, watch := true } :=
    list_eq_some.mpr ⟨hw, rfl⟩
  obtain ⟨u, hr, hset, hidle⟩ := listed_settles t lower
    (s := { s with watcher := .listed s.children, watch := true }) rfl hfree hgone
  exact ⟨u, .head hs trivial hr,
    ⟨hset.children, hset.watch, hset.pending, hset.free⟩, hidle⟩

theorem idle_settles (hfree : s.server.rlsLock = none) (h : Inv s)
    (hgone : dead ∉ s.children.names) :
    ∃ u, Reaches (step t lower dead) Label.continues s u ∧ u.children = s.children ∧
      u.server.rlsLock = none ∧ u.watcher = .idle := by
  have hholds : s.watcher.holds ≠ true := fun hw => by
    cases hfree.symm.trans (h.watcher.mpr hw)
  cases hw : s.watcher with
  | idle => exact ⟨s, .refl s, rfl, hfree, hw⟩
  | notified =>
    obtain ⟨u, hr, hset, hidle⟩ := notified_settles t lower hw hfree hgone
    exact ⟨u, hr, hset.children, hset.free, hidle⟩
  | listed children =>
    obtain ⟨u, hr, hset, hidle⟩ := listed_settles t lower hw hfree hgone
    exact ⟨u, hr, hset.children, hset.free, hidle⟩
  | updating | connecting =>
    rw [hw] at hholds
    exact absurd rfl hholds

theorem dropped_of_idle (h : Inv s) (hw : s.watcher = .idle) (hp : s.pending = false)
    (hgone : dead ∉ s.children.names) : Dropped dead s := by
  have hwatch : s.watch = true := by
    by_contra hwatch
    obtain hp' | hn := h.unwatched (Bool.not_eq_true _ ▸ hwatch)
    · cases hp.symm.trans hp'
    · cases hw.symm.trans hn
  exact ⟨hw, hp, fun hn => hgone (h.idle hwatch hw dead hn)⟩

theorem reaches_dropped (h : Inv s) (hf : ¬ Frozen dead s) (hgone : dead ∉ s.children.names) :
    ∃ u, Reaches (step t lower dead) Label.continues s u ∧ Dropped dead u := by
  obtain ⟨u, hsu, hset⟩ := rls_settles t lower h hf hgone
  have hu := inv_reaches h hsu
  have hgu : dead ∉ u.children.names := hset.children ▸ hgone
  obtain ⟨v, huv, hcv, hfree, hidle⟩ := idle_settles t lower hset.free hu hgu
  have hv := inv_reaches hu huv
  have hgv : dead ∉ v.children.names := hcv ▸ hgu
  cases hp : v.pending with
  | false => exact ⟨v, hsu.trans huv, dropped_of_idle hv hidle hp hgv⟩
  | true =>
    have hs : step t lower dead v .event =
        some { v with watcher := .notified, pending := false } :=
      event_eq_some.mpr ⟨hidle, hp, rfl⟩
    obtain ⟨w, hvw, hsetw, hidlew⟩ := notified_settles t lower
      (s := { v with watcher := .notified, pending := false }) rfl hfree hgv
    have hvw' := Reaches.head hs trivial hvw
    have hgw : dead ∉ w.children.names := hsetw.children ▸ hgv
    exact ⟨w, hsu.trans (huv.trans hvw'),
      dropped_of_idle (inv_reaches hv hvw') hidlew hsetw.pending hgw⟩

end Settling

end Preservation

theorem inv_run {t : AnoAtual} {list : ListT} {lower : Int} {children : Children}
    {dead : CString} {ls : List Label} {s : State}
    (h : run (step t lower dead) (.start list lower children) ls = some s) : Inv s :=
  run_invariant_of_step (step t lower dead) (fun _ _ _ => inv_step)
    (inv_start list lower children) h

/-- In a reached state in which the dead server is gone from the children, the
watcher and the client threads can still come to drop it exactly if none of them
waits for it with `rls_lock`. -/
theorem recovers_iff (t : AnoAtual) (list : ListT) (lower : Int) (children : Children)
    (dead : CString) (ls : List Label) (s : State)
    (h : run (step t lower dead) (.start list lower children) ls = some s)
    (hdead : s.silent = true) (hgone : dead ∉ s.children.names) :
    (∃ u, Reaches (step t lower dead) Label.continues s u ∧ Dropped dead u) ↔
      ¬ Frozen dead s :=
  ⟨fun hr hf => not_reaches_of_frozen (inv_run h) hf hdead hr,
    fun hf => reaches_dropped t lower (inv_run h) hf hgone⟩

def ownNode : CString := ofBytes (nodeLiteral ++ [49])

def nextNode : CString := ofBytes (nodeLiteral ++ [50])

def both : Children := ⟨[ownNode, nextNode], by simp⟩

def alone : Children := ⟨[ownNode], by simp⟩

def quietDeath : List Label := [.die, .change alone]

theorem recovers_quietDeath : ∃ s,
    run (step (.same 2026) 1 nextNode) (.start listCreate 1 both) quietDeath = some s ∧
      ∃ u, Reaches (step (.same 2026) 1 nextNode) Label.continues s u ∧ Dropped nextNode u := by
  refine ⟨_, rfl, (recovers_iff (.same 2026) listCreate 1 both nextNode quietDeath _ rfl rfl
    (by decide)).mpr ?_⟩
  rintro (⟨-, -, c, hc⟩ | hw)
  · cases hc
  · cases hw

def addRequest : Request := ⟨0, { MessageT.init with opcode := opAdd }⟩

def deathInWrite : List Label :=
  [.own (.deliver (.client 0) addRequest), .own (.receive (.client 0)), .own (.lock (.client 0)),
    .own (.link (.client 0)), .forward (.client 0), .die, .change alone]

theorem never_recovers : ¬ ∀ ls s,
    run (step (.same 2026) 1 nextNode) (.start listCreate 1 both) ls = some s →
      s.silent = true → nextNode ∉ s.children.names →
        ∃ u, Reaches (step (.same 2026) 1 nextNode) Label.continues s u ∧ Dropped nextNode u := by
  intro h
  obtain ⟨s, hs, hnode, hinbox, hrls, hdead, hgone⟩ : ∃ s,
      run (step (.same 2026) 1 nextNode) (.start listCreate 1 both) deathInWrite = some s ∧
        s.node = some nextNode ∧ s.inbox = none ∧
        s.server.rlsLock = some (.thread (.client 0)) ∧ s.silent = true ∧
        nextNode ∉ s.children.names :=
    ⟨_, rfl, by decide, rfl, rfl, rfl, by decide⟩
  have hf : Frozen nextNode s := .inl ⟨hnode, hinbox, _, hrls⟩
  exact not_reaches_of_frozen (inv_run hs) hf hdead (h deathInWrite s hs hdead hgone)

end ListServer.DeadSuccessor
