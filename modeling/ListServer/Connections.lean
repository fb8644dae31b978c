import ListServer.ClientWatch
import ListServer.Message
import ListServer.ServerAddress
import ListServer.Lib.Ownership

namespace ListServer.Connections

open Lib.CTypes Lib.Pointer Lib.Memory Lib.Footprint Lib.Ownership Lib.Transition Message
open ClientWatch (Half)

/-- A `struct rlist_t` in memory. A socket of -1 is `none`. -/
structure RList where
  serverAddress : Option Nat
  serverPort : Int
  sockfd : Option Nat
deriving DecidableEq

/-- The strings and structures of `rlist_connect`, and the open sockets. -/
structure Mem where
  strings : Heap CString
  rlists : Heap RList
  sockets : Heap Unit

def Mem.empty : Mem := ⟨fun _ => none, fun _ => none, fun _ => none⟩

/-- What comes of the greeting: nothing, a length of 0, no memory for it, less
than its length, bytes that are no message, or a message. -/
inductive Greeting
  | noLength
  | emptyLength
  | noBuffer
  | short
  | undecodable
  | reply (opcode : Int)
deriving DecidableEq

/-- The greetings after which `network_connect` fails with its socket open. -/
def Greeting.breaksOff : Greeting → Bool
  | .noLength | .emptyLength | .short | .undecodable => true
  | .noBuffer => false
  | .reply opcode => decide (opcode ≠ opBusy) && decide (opcode ≠ opReady)

/-- What one `rlist_connect` meets: the places that `strdup`, `malloc` and
`socket` find, and how the calls of `network_connect` end. -/
structure Visit where
  copy : Option Nat
  rlist : Option Nat
  address : Option Nat
  socket : Option Nat
  inetPton : Bool
  connect : Bool
  greeting : Greeting
deriving DecidableEq

def close (sockets : Heap Unit) (fd : Option Nat) : Int × Heap Unit :=
  match fd with
  | none => (-1, sockets)
  | some fd =>
    if (sockets fd).isSome then (0, Function.update sockets fd none) else (-1, sockets)

def networkConnect (v : Visit) (mem : Mem) (rlist : Option Nat) : Except Fault (Int × Mem) :=
  match rlist with
  | none => .ok (-1, mem)
  | some p =>
    match malloc mem.sockets v.socket with
    | none => .ok (-1, mem)
    | some sock => do
      let mem := { mem with sockets := store mem.sockets sock () }
      let rlist ← load mem.rlists (some p)
      let _ ← load mem.strings rlist.serverAddress
      if !v.inetPton then return (-1, { mem with sockets := (close mem.sockets (some sock)).2 })
      if !v.connect then return (-1, { mem with sockets := (close mem.sockets (some sock)).2 })
      let mem := { mem with rlists := store mem.rlists p { rlist with sockfd := some sock } }
      match v.greeting with
      | .noLength | .emptyLength => return (-1, mem)
      -- the greeting stays unread here
      | .noBuffer => return (0, mem)
      | .short | .undecodable => return (-1, mem)
      | .reply opcode =>
        if opcode = opBusy then
          return (-1, { mem with
            rlists := store mem.rlists p { rlist with sockfd := none }
            sockets := (close mem.sockets (some sock)).2 })
        else if opcode = opReady then return (0, mem)
        else return (-1, mem)

def rlistConnect (v : Visit) (mem : Mem) (addressPort : Option CString) :
    Except Fault (Option Nat × Mem) :=
  match addressPort with
  | none => .ok (none, mem)
  | some text =>
    match malloc mem.strings v.copy with
    | none => .ok (none, mem)
    | some copy => do
      let mem := { mem with strings := store mem.strings copy text }
      match ServerAddress.rlistConnect text with
      | none => return (none, { mem with strings := ← free mem.strings (some copy) })
      | some parsed =>
        match malloc mem.rlists v.rlist with
        | none => return (none, { mem with strings := ← free mem.strings (some copy) })
        | some p =>
          let address := malloc mem.strings v.address
          let mem := { mem with
            rlists := store mem.rlists p ⟨address, 0, none⟩
            strings := address.elim mem.strings fun a =>
              store mem.strings a parsed.serverAddress }
          let mem := { mem with strings := ← free mem.strings (some copy) }
          if address = none then return (none, { mem with rlists := ← free mem.rlists (some p) })
          let mem := { mem with
            rlists := store mem.rlists p ⟨address, parsed.serverPort, none⟩ }
          let (yes, mem) ← networkConnect v mem (some p)
          if yes < 0 then
            let rlist ← load mem.rlists (some p)
            let strings ← free mem.strings rlist.serverAddress
            let rlists ← free mem.rlists (some p)
            return (none, { mem with strings := strings, rlists := rlists })
          return (some p, mem)

def rlistDisconnect (mem : Mem) (rlist : Option Nat) : Except Fault (Int × Mem) :=
  match rlist with
  | none => .ok (-1, mem)
  | some p => do
    let rlist ← load mem.rlists (some p)
    let (rc, sockets) := close mem.sockets rlist.sockfd
    let strings ← free mem.strings rlist.serverAddress
    let rlists ← free mem.rlists (some p)
    return (if rc < 0 then -1 else 0, ⟨strings, rlists, sockets⟩)

/-- Whether a failing `rlist_connect` has left its socket open. -/
def leftOpen (v : Visit) (mem : Mem) (r : Option Nat × Mem) : Nat :=
  if r.1 = none ∧ (malloc mem.sockets v.socket).any fun fd => (r.2.sockets fd).isSome then 1 else 0

section Calls

variable {v : Visit} {mem : Mem} {text : Option CString}

theorem undo_store {α : Type} {h : Heap α} {a : Nat} (ha : h a = none) (x : α) :
    Function.update (store h a x) a none = h := by
  rw [store, Function.update_idem, ← ha, Function.update_eq_self]

theorem store_store {α : Type} (h : Heap α) (a : Nat) (x y : α) :
    store (store h a x) a y = store h a y := Function.update_idem ..

theorem free_store {α : Type} (h : Heap α) (a : Nat) (x : α) :
    free (store h a x) (some a) = .ok (Function.update (store h a x) a none) :=
  free_some (store_self h a x)

theorem close_store {sockets : Heap Unit} {fd : Nat} (hfd : sockets fd = none) :
    close (store sockets fd ()) (some fd) = (0, sockets) := by
  rw [close]
  simp [undo_store hfd]

/-- What `network_connect` makes of a structure without a socket. -/
inductive Connected (v : Visit) (mem : Mem) (p a : Nat) (port : Int) : Int × Mem → Prop
  | failed : Connected v mem p a port (-1, mem)
  | left (sock : Nat) (hsock : malloc mem.sockets v.socket = some sock)
    (hgreeting : v.greeting.breaksOff = true) :
    Connected v mem p a port (-1, { mem with
      rlists := store mem.rlists p ⟨some a, port, some sock⟩
      sockets := store mem.sockets sock () })
  | done (sock : Nat) (hsock : malloc mem.sockets v.socket = some sock) :
    Connected v mem p a port (0, { mem with
      rlists := store mem.rlists p ⟨some a, port, some sock⟩
      sockets := store mem.sockets sock () })

theorem networkConnect_spec (v : Visit) (mem : Mem) {p a : Nat} {port : Int} {x : CString}
    (hp : mem.rlists p = some ⟨some a, port, none⟩) (hx : mem.strings a = some x) :
    ∃ r, networkConnect v mem (some p) = .ok r ∧ Connected v mem p a port r := by
  cases hsock : malloc mem.sockets v.socket with
  | none => exact ⟨_, by simp [networkConnect, hsock], .failed⟩
  | some sock =>
    have hfree := malloc_eq_some hsock
    have hback : store (store mem.rlists p ⟨some a, port, some sock⟩) p ⟨some a, port, none⟩ =
        mem.rlists := by
      rw [store, store, Function.update_idem]
      exact (congrArg _ hp.symm).trans (Function.update_eq_self p mem.rlists)
    simp only [networkConnect, hsock, load_some hp, load_some hx, bind, Except.bind,
      close_store hfree, hback]
    cases v.inetPton with
    | false => exact ⟨_, rfl, .failed⟩
    | true =>
      cases v.connect with
      | false => exact ⟨_, rfl, .failed⟩
      | true =>
        cases hgreeting : v.greeting with
        | noLength | emptyLength | short | undecodable =>
          exact ⟨_, rfl, .left sock hsock (by rw [hgreeting]; rfl)⟩
        | noBuffer => exact ⟨_, rfl, .done sock hsock⟩
        | reply opcode =>
          by_cases hbusy : opcode = opBusy
          · exact ⟨_, by simp [hbusy]; rfl, .failed⟩
          · by_cases hready : opcode = opReady
            · exact ⟨_, by simp [hready]; rfl, .done sock hsock⟩
            · exact ⟨_, by simp [hbusy, hready]; rfl,
                .left sock hsock (by simp [hgreeting, Greeting.breaksOff, hbusy, hready])⟩

/-- What `rlist_connect` leaves: nothing, a connection that nobody closes any
more, or a new structure with its own string and its own connection. -/
inductive Opened (v : Visit) (mem : Mem) : Option Nat × Mem → Prop
  | failed : Opened v mem (none, mem)
  | left (sock : Nat) (hsock : malloc mem.sockets v.socket = some sock)
    (hgreeting : v.greeting.breaksOff = true) :
    Opened v mem (none, { mem with sockets := store mem.sockets sock () })
  | done (p a sock : Nat) (host : CString) (port : Int) (hp : mem.rlists p = none)
    (ha : mem.strings a = none) (hsock : malloc mem.sockets v.socket = some sock) :
    Opened v mem (some p, ⟨store mem.strings a host,
      store mem.rlists p ⟨some a, port, some sock⟩, store mem.sockets sock ()⟩)

theorem undo_under {α : Type} {h : Heap α} {a b : Nat} (hab : a ≠ b) (hb : h b = none) (x y : α) :
    Function.update (store (store h b x) a y) b none = store h a y := by
  rw [store, Function.update_comm hab, undo_store hb, store]

theorem rlistConnect_spec (v : Visit) (mem : Mem) (text : Option CString) :
    ∃ r, rlistConnect v mem text = .ok r ∧ Opened v mem r := by
  cases text with
  | none => exact ⟨_, rfl, .failed⟩
  | some text =>
    simp only [rlistConnect]
    cases hcopy : malloc mem.strings v.copy with
    | none => exact ⟨_, rfl, .failed⟩
    | some copy =>
      have hc := malloc_eq_some hcopy
      cases ServerAddress.rlistConnect text with
      | none =>
        simp only [free_store, undo_store hc, bind, Except.bind]
        exact ⟨_, rfl, .failed⟩
      | some parsed =>
        cases hplace : malloc mem.rlists v.rlist with
        | none =>
          simp only [free_store, undo_store hc, bind, Except.bind]
          exact ⟨_, rfl, .failed⟩
        | some p =>
          have hp := malloc_eq_some hplace
          cases haddress : malloc (store mem.strings copy text) v.address with
          | none =>
            simp only [haddress, free_store, undo_store hc, undo_store hp, bind, Except.bind,
              Option.elim_none, if_true]
            exact ⟨_, rfl, .failed⟩
          | some a =>
            have hfresh := malloc_eq_some haddress
            have hac : a ≠ copy := fun he => by
              rw [he, store_self] at hfresh
              cases hfresh
            have ha : mem.strings a = none := by rwa [store_of_ne hac] at hfresh
            have hcopied : store (store mem.strings copy text) a parsed.serverAddress copy =
                some text := by
              rw [store_of_ne (Ne.symm hac), store_self]
            obtain ⟨r, hr, hconnected⟩ := networkConnect_spec v
              ⟨store mem.strings a parsed.serverAddress,
                store mem.rlists p ⟨some a, parsed.serverPort, none⟩, mem.sockets⟩
              (store_self _ p _) (store_self _ a _)
            simp only [haddress, free_some hcopied, undo_under hac hc, store_store, bind,
              Except.bind, Option.elim_some, hr, reduceCtorEq, if_false]
            cases hconnected with
            | failed =>
              refine ⟨_, ?_, .failed⟩
              simp [load_some (store_self _ p _), free_store, undo_store ha, undo_store hp]
              rfl
            | left sock hsock hgreeting =>
              refine ⟨_, ?_, .left sock hsock hgreeting⟩
              simp [load_some (store_self _ p _), free_store, undo_store ha, undo_store hp,
                store_store]
              rfl
            | done sock hsock =>
              exact ⟨_, by simp [store_store]; rfl, .done p a sock parsed.serverAddress
                parsed.serverPort hp ha hsock⟩

theorem rlistDisconnect_eq {p a fd : Nat} {port : Int} {x : CString}
    (hp : mem.rlists p = some ⟨some a, port, some fd⟩) (ha : mem.strings a = some x)
    (hfd : mem.sockets fd = some ()) : rlistDisconnect mem (some p) =
      .ok (0, ⟨Function.update mem.strings a none, Function.update mem.rlists p none,
        Function.update mem.sockets fd none⟩) := by
  have hclose : close mem.sockets (some fd) = (0, Function.update mem.sockets fd none) := by
    simp [close, hfd]
  simp only [rlistDisconnect, load_some hp, hclose, free_some ha, free_some hp, bind, Except.bind]
  rfl

end Calls

section Owners

variable {κ : Type} {mem : Mem} {handles : κ → Option Nat} {lost : Nat} {k : κ} {p : Nat}

def Works (mem : Mem) (p a fd : Nat) : Prop :=
  ∃ port, mem.rlists p = some ⟨some a, port, some fd⟩

theorem Works.sockfd {a b fd fd' : Nat} (h : Works mem p a fd) (h' : Works mem p b fd') :
    fd = fd' := by
  obtain ⟨port, hp⟩ := h
  obtain ⟨port', hp'⟩ := h'
  simpa using congrArg RList.sockfd (Option.some.inj (hp.symm.trans hp'))

/-- Each handle has a structure, a string and a socket of its own, and nothing
else is in memory but the sockets that have been left open. -/
structure Sound (mem : Mem) (handles : κ → Option Nat) (lost : Nat) : Prop where
  rlists : Owned mem.rlists handles 0
  parts : ∃ strings sockets : κ → Option Nat,
    Owned mem.strings strings 0 ∧ Owned mem.sockets sockets lost ∧
      ∀ k, (handles k = none ∧ strings k = none ∧ sockets k = none) ∨
        ∃ p a fd, handles k = some p ∧ strings k = some a ∧ sockets k = some fd ∧ Works mem p a fd

theorem sound_empty : Sound Mem.empty (fun _ : κ => none) 0 :=
  ⟨owned_empty, _, _, owned_empty, owned_empty, fun _ => .inl ⟨rfl, rfl, rfl⟩⟩

theorem Sound.load (h : Sound mem handles lost) (hk : handles k = some p) :
    ∃ rlist, load mem.rlists (some p) = .ok rlist := by
  obtain ⟨rlist, hp⟩ := h.rlists.ne_none hk
  exact ⟨rlist, load_some hp⟩

variable [DecidableEq κ]

theorem Sound.disconnect (h : Sound mem handles lost) (hk : handles k = some p) :
    ∃ mem', rlistDisconnect mem (some p) = .ok (0, mem') ∧
      Sound mem' (Function.update handles k none) lost := by
  obtain ⟨hrlists, strings, sockets, hstrings, hsockets, hparts⟩ := h
  obtain ⟨hnone, -⟩ | ⟨q, a, fd, hq, ha, hfd, port, hp⟩ := hparts k
  · cases hnone.symm.trans hk
  · obtain rfl := Option.some.inj (hq.symm.trans hk)
    obtain ⟨x, hx⟩ := hstrings.ne_none ha
    obtain ⟨⟨⟩, hopen⟩ := hsockets.ne_none hfd
    refine ⟨_, rlistDisconnect_eq hp hx hopen, hrlists.release hk, _, _, hstrings.release ha,
      hsockets.release hfd, fun j => ?_⟩
    by_cases hj : j = k
    · subst hj
      exact .inl ⟨Function.update_self .., Function.update_self .., Function.update_self ..⟩
    · rw [Function.update_of_ne hj, Function.update_of_ne hj, Function.update_of_ne hj]
      refine (hparts j).imp_right ?_
      rintro ⟨r, b, fd', hr, hb, hfd', port', hload⟩
      have hrq : r ≠ q := fun he => hj (hrlists.one hr (he ▸ hk))
      exact ⟨r, b, fd', hr, hb, hfd', port', (Function.update_of_ne hrq _ _).trans hload⟩

theorem leftOpen_same (v : Visit) (mem : Mem) : leftOpen v mem (none, mem) = 0 := by
  rw [leftOpen, if_neg]
  rintro ⟨-, hany⟩
  obtain ⟨fd, hfd, hopen⟩ := (Option.any_eq_true _ _).mp hany
  rw [malloc_eq_some hfd] at hopen
  cases hopen

theorem Sound.connect (h : Sound mem handles lost) (hk : handles k = none) (v : Visit)
    (text : Option CString) : ∃ r, rlistConnect v mem text = .ok r ∧
      Sound r.2 (Function.update handles k r.1) (lost + leftOpen v mem r) ∧
        leftOpen v mem r ≤ v.greeting.breaksOff.toNat := by
  have hsame : Function.update handles k none = handles := Function.update_eq_self_iff.mpr hk.symm
  obtain ⟨r, hr, hopened⟩ := rlistConnect_spec v mem text
  refine ⟨r, hr, ?_⟩
  obtain ⟨hrlists, strings, sockets, hstrings, hsockets, hparts⟩ := h
  have hown : strings k = none ∧ sockets k = none := by
    obtain ⟨-, hnone⟩ | ⟨q, a, fd, hq, -⟩ := hparts k
    · exact hnone
    · cases hk.symm.trans hq
  cases hopened with
  | failed =>
    rw [hsame, leftOpen_same]
    exact ⟨⟨hrlists, strings, sockets, hstrings, hsockets, hparts⟩, Nat.zero_le _⟩
  | left sock hsock hgreeting =>
    have hone : leftOpen v mem (none, { mem with sockets := store mem.sockets sock () }) = 1 := by
      rw [leftOpen, if_pos ⟨rfl, by simp [hsock]⟩]
    rw [hsame, hone, hgreeting]
    exact ⟨⟨hrlists, strings, sockets, hstrings, hsockets.lose (malloc_eq_some hsock) (), hparts⟩,
      le_refl 1⟩
  | done p a sock host port hp ha hsock =>
    have hzero : leftOpen v mem (some p, ⟨store mem.strings a host,
        store mem.rlists p ⟨some a, port, some sock⟩, store mem.sockets sock ()⟩) = 0 :=
      if_neg fun hleft => Option.some_ne_none p hleft.1
    rw [hzero]
    refine ⟨⟨hrlists.acquire hp hk _, _, _, hstrings.acquire ha hown.1 host,
      hsockets.acquire (malloc_eq_some hsock) hown.2 (), fun j => ?_⟩, Nat.zero_le _⟩
    by_cases hj : j = k
    · subst hj
      exact .inr ⟨p, a, sock, Function.update_self .., Function.update_self ..,
        Function.update_self .., port, store_self ..⟩
    · rw [Function.update_of_ne hj, Function.update_of_ne hj, Function.update_of_ne hj]
      refine (hparts j).imp_right ?_
      rintro ⟨q, b, fd, hq, hb, hfd, port', hload⟩
      have hqp : q ≠ p := fun he => hrlists.not_owned hp j (he ▸ hq)
      exact ⟨q, b, fd, hq, hb, hfd, port', (store_of_ne hqp _).trans hload⟩

end Owners

/-- Where the main thread stands: in `zoo_init_client`, in the loop over the
commands, at the disconnections after it, before `zoo_clean_client`, or done. -/
inductive Main
  | starting
  | running
  | closing (h : Half)
  | cleaning
  | ended
deriving DecidableEq

/-- Who holds `rls_lock`: a command, or `update_remote_list` in either thread
between its two calls. -/
inductive Holder
  | nobody
  | command
  | replacing (h : Half)
deriving DecidableEq

/-- The connections of a client process. `closed` tells whether the main thread
has disconnected what `remote` points to, `leftOpen` counts the sockets that
failing calls have left open. -/
structure State where
  mem : Mem
  remote : Half → Option Nat
  rlsLock : Holder
  main : Main
  closed : Half → Bool
  leftOpen : Nat

def State.start : State := ⟨Mem.empty, fun _ => none, .nobody, .starting, fun _ => false, 0⟩

inductive Act
  | ready
  | command
  | use (h : Half)
  | done
  | quit
  | close (h : Half)
  | clean
  | disconnect (h : Half)
  | connect (h : Half) (v : Visit) (buffer : CString)
deriving DecidableEq

def disconnect (s : State) (h : Half) : Except Fault Mem :=
  match s.remote h with
  | none => .ok s.mem
  | some p => (rlistDisconnect s.mem (some p)).map Prod.snd

def Main.after : Half → Main
  | .head => .closing .tail
  | .tail => .cleaning

/-- What a step does, if it is its turn. The disconnections at the end are made
without `rls_lock`. -/
def attempt (s : State) : Act → Option (Except Fault State)
  | .ready =>
    if s.main = .starting ∧ (s.remote .head).isSome ∧ (s.remote .tail).isSome then
      some (.ok { s with main := .running })
    else none
  | .command =>
    if s.main = .running ∧ s.rlsLock = .nobody then some (.ok { s with rlsLock := .command })
    else none
  | .use h =>
    if s.rlsLock = .command then
      match s.remote h with
      | none => some (.ok s)
      | some p => some ((load s.mem.rlists (some p)).map fun _ => s)
    else none
  | .done => if s.rlsLock = .command then some (.ok { s with rlsLock := .nobody }) else none
  | .quit =>
    if s.main = .running ∧ s.rlsLock ≠ .command then some (.ok { s with main := .closing .head })
    else none
  | .close h =>
    if s.main = .closing h then some ((disconnect s h).map fun mem =>
      { s with
        mem := mem
        main := .after h
        closed := Function.update s.closed h (s.remote h).isSome })
    else none
  | .clean =>
    if (s.main = .starting ∨ s.main = .cleaning) ∧ s.rlsLock = .nobody then
      some (.ok { s with main := .ended })
    else none
  | .disconnect h =>
    if s.rlsLock = .nobody ∧ s.main ≠ .ended then some ((disconnect s h).map fun mem =>
      { s with mem := mem, rlsLock := .replacing h })
    else none
  | .connect h v buffer =>
    if s.rlsLock = .replacing h then some ((rlistConnect v s.mem (some buffer)).map fun r =>
      { s with
        mem := r.2
        remote := Function.update s.remote h r.1
        rlsLock := .nobody
        closed := Function.update s.closed h false
        leftOpen := s.leftOpen + leftOpen v s.mem r })
    else none

def step (s : State) (a : Act) : Option State := (attempt s a).bind Except.toOption

/-- A thread is about to disconnect what the other one has disconnected already. -/
def Races (s : State) : Act → Prop
  | .disconnect h => s.closed h = true ∧ s.remote h ≠ none
  | .close h => s.rlsLock = .replacing h ∧ s.remote h ≠ none
  | _ => False

def breaksOff : Act → Bool
  | .connect _ v _ => v.greeting.breaksOff
  | _ => false

/-- The pointers that lead to a structure. -/
def live (rlsLock : Holder) (closed : Half → Bool) (remote : Half → Option Nat) (h : Half) :
    Option Nat :=
  if rlsLock = .replacing h ∨ closed h = true then none else remote h

def handles (s : State) : Half → Option Nat := live s.rlsLock s.closed s.remote

def Main.past : Main → Half → Prop
  | .starting, _ | .running, _ => False
  | .closing k, h => k = .tail ∧ h = .head
  | .cleaning, _ | .ended, _ => True

section Live

variable {rlsLock : Holder} {closed : Half → Bool} {remote : Half → Option Nat} {k : Half}

theorem live_close : live rlsLock (Function.update closed k (remote k).isSome) remote =
    Function.update (live rlsLock closed remote) k none := by
  funext j
  rw [live, Function.update_apply, Function.update_apply]
  by_cases hj : j = k
  · subst hj
    cases remote j <;> simp
  · simp [hj, live]

theorem live_disconnect : live (.replacing k) closed remote =
    Function.update (live .nobody closed remote) k none := by
  funext j
  rw [live, Function.update_apply]
  by_cases hj : j = k
  · simp [hj]
  · simp [hj, Ne.symm hj, live]

theorem live_connect (p : Option Nat) :
    live .nobody (Function.update closed k false) (Function.update remote k p) =
      Function.update (live (.replacing k) closed remote) k p := by
  funext j
  rw [live, Function.update_apply, Function.update_apply, Function.update_apply]
  by_cases hj : j = k
  · simp [hj]
  · simp [hj, Ne.symm hj, live]

theorem live_eq (hlock : rlsLock = .replacing k → remote k = none)
    (hclosed : closed k = true → remote k = none) : live rlsLock closed remote k = remote k := by
  rw [live]
  split
  next he => exact (he.elim hlock hclosed).symm
  next => rfl

end Live

section Client

variable {s s' : State} {a : Act}

structure Inv (s : State) : Prop where
  sound : Sound s.mem (handles s) s.leftOpen
  closed : ∀ h, s.closed h = true → s.main.past h
  command : s.rlsLock = .command → s.main = .running

theorem inv_start : Inv State.start where
  sound := sound_empty
  closed _ hc := by cases hc
  command hc := by cases hc

theorem step_eq_some : step s a = some s' ↔ attempt s a = some (.ok s') := by
  rw [step]
  cases attempt s a with
  | none => exact ⟨nofun, nofun⟩
  | some r =>
    cases r with
    | error e => exact ⟨nofun, nofun⟩
    | ok t => exact ⟨fun h => congrArg _ (congrArg _ (Option.some.inj h)),
        fun h => congrArg _ (Except.ok.inj (Option.some.inj h))⟩

theorem Inv.move (h : Inv s) (m : Main) (l : Holder)
    (hlock : ∀ k, l = .replacing k ↔ s.rlsLock = .replacing k)
    (hpast : ∀ k, s.main.past k → m.past k)
    (hcommand : l = .command → m = .running) : Inv { s with main := m, rlsLock := l } := by
  have hsame : handles { s with main := m, rlsLock := l } = handles s := by
    funext k
    exact if_congr (or_congr_left (hlock k)) rfl rfl
  exact ⟨by rw [hsame]; exact h.sound, fun k hk => hpast k (h.closed k hk), hcommand⟩

theorem not_past_closing (h : Half) : ¬ (Main.closing h).past h := by
  rintro ⟨rfl, he⟩
  cases he

theorem past_after {h k : Half} (hk : (Main.closing h).past k) : (Main.after h).past k := by
  obtain ⟨rfl, rfl⟩ := hk
  trivial

theorem after_past (h : Half) : (Main.after h).past h := by
  cases h
  · exact ⟨rfl, rfl⟩
  · trivial

theorem Inv.disconnect (h : Inv s) {k : Half} (hk : handles s k = s.remote k) :
    ∃ mem, disconnect s k = .ok mem ∧
      Sound mem (Function.update (handles s) k none) s.leftOpen := by
  rw [Connections.disconnect]
  cases hp : s.remote k with
  | none =>
    refine ⟨s.mem, rfl, ?_⟩
    rw [Function.update_eq_self_iff.mpr (hk.trans hp).symm]
    exact h.sound
  | some p =>
    obtain ⟨mem, hmem, hsound⟩ := h.sound.disconnect (hk.trans hp)
    exact ⟨mem, congrArg (Except.map Prod.snd) hmem, hsound⟩

/-- A step that no disconnection of the other thread precedes runs into no fault
and keeps everything accounted for. -/
theorem attempt_spec (h : Inv s) (hrace : ¬ Races s a) {r : Except Fault State}
    (hr : attempt s a = some r) :
    ∃ s', r = .ok s' ∧ Inv s' ∧ s'.leftOpen ≤ s.leftOpen + (breaksOff a).toNat := by
  cases a with
  | ready =>
    obtain ⟨⟨hmain, -⟩, hr⟩ := Option.ite_none_right_eq_some.mp hr
    obtain rfl := Option.some.inj hr
    refine ⟨_, rfl, h.move .running s.rlsLock (fun _ => Iff.rfl) (fun k hk => ?_) fun _ => rfl,
      le_refl _⟩
    rw [hmain] at hk
    exact hk.elim
  | command =>
    obtain ⟨⟨hmain, hlock⟩, hr⟩ := Option.ite_none_right_eq_some.mp hr
    obtain rfl := Option.some.inj hr
    exact ⟨_, rfl, h.move s.main .command (by simp [hlock]) (fun _ hk => hk) fun _ => hmain,
      le_refl _⟩
  | use k =>
    obtain ⟨hlock, hr⟩ := Option.ite_none_right_eq_some.mp hr
    refine ⟨s, ?_, h, le_refl _⟩
    cases hp : s.remote k with
    | none =>
      simp only [hp] at hr
      exact (Option.some.inj hr).symm
    | some p =>
      have hopen : s.closed k ≠ true := fun hc => by
        have hpast := h.closed k hc
        rw [h.command hlock] at hpast
        exact hpast
      have hlive : handles s k = s.remote k :=
        live_eq (fun he => by cases hlock.symm.trans he) (fun hc => absurd hc hopen)
      obtain ⟨rlist, hload⟩ := h.sound.load (hlive.trans hp)
      simp only [hp, hload] at hr
      exact (Option.some.inj hr).symm
  | done =>
    obtain ⟨hlock, hr⟩ := Option.ite_none_right_eq_some.mp hr
    obtain rfl := Option.some.inj hr
    exact ⟨_, rfl, h.move s.main .nobody (by simp [hlock]) (fun _ hk => hk) nofun, le_refl _⟩
  | quit =>
    obtain ⟨⟨hmain, hlock⟩, hr⟩ := Option.ite_none_right_eq_some.mp hr
    obtain rfl := Option.some.inj hr
    refine ⟨_, rfl, h.move (.closing .head) s.rlsLock (fun _ => Iff.rfl) (fun k hk => ?_)
      fun he => absurd he hlock, le_refl _⟩
    rw [hmain] at hk
    exact hk.elim
  | close k =>
    obtain ⟨hmain, hr⟩ := Option.ite_none_right_eq_some.mp hr
    have hopen : s.closed k ≠ true := fun hc => by
      have hpast := h.closed k hc
      rw [hmain] at hpast
      exact not_past_closing k hpast
    obtain ⟨mem, hmem, hsound⟩ := h.disconnect (k := k)
      (live_eq (fun hlock => by_contra fun hk => hrace ⟨hlock, hk⟩) (fun hc => absurd hc hopen))
    rw [hmem] at hr
    obtain rfl := Option.some.inj hr
    refine ⟨_, rfl, ⟨?_, fun j hj => ?_, fun hc => ?_⟩, le_refl _⟩
    · rw [handles, live_close]
      exact hsound
    · simp only [Function.update_apply] at hj
      split at hj
      next he => exact he ▸ after_past k
      next => exact past_after (hmain ▸ h.closed j hj)
    · cases hmain.symm.trans (h.command hc)
  | clean =>
    obtain ⟨⟨hmain, hlock⟩, hr⟩ := Option.ite_none_right_eq_some.mp hr
    obtain rfl := Option.some.inj hr
    refine ⟨_, rfl, h.move .ended s.rlsLock (fun _ => Iff.rfl) (fun _ _ => trivial) fun hc => ?_,
      le_refl _⟩
    rw [hlock] at hc
    cases hc
  | disconnect k =>
    obtain ⟨⟨hlock, hmain⟩, hr⟩ := Option.ite_none_right_eq_some.mp hr
    obtain ⟨mem, hmem, hsound⟩ := h.disconnect (k := k) (live_eq
      (fun he => by cases hlock.symm.trans he) (fun hc => by_contra fun hk => hrace ⟨hc, hk⟩))
    rw [hmem] at hr
    obtain rfl := Option.some.inj hr
    refine ⟨_, rfl, ⟨?_, h.closed, nofun⟩, le_refl _⟩
    rw [handles, hlock] at hsound
    rw [handles, live_disconnect]
    exact hsound
  | connect k v buffer =>
    obtain ⟨hlock, hr⟩ := Option.ite_none_right_eq_some.mp hr
    have hnone : handles s k = none := if_pos (.inl hlock)
    obtain ⟨p, hp, hsound, hle⟩ := h.sound.connect hnone v (some buffer)
    rw [hp] at hr
    obtain rfl := Option.some.inj hr
    refine ⟨_, rfl, ⟨?_, fun j hj => ?_, nofun⟩, Nat.add_le_add_left hle _⟩
    · rw [handles, hlock] at hsound
      rw [handles, live_connect]
      exact hsound
    · simp only [Function.update_apply] at hj
      split at hj
      next => cases hj
      next => exact h.closed j hj

theorem run_spec {acts : List Act} (hraces : Meets step (fun s a => ¬ Races s a) .start acts)
    (hrun : run step .start acts = some s) : Inv s ∧ s.leftOpen ≤ acts.countP breaksOff := by
  refine run_trace_invariant step (I := fun acts s => Inv s ∧ s.leftOpen ≤ acts.countP breaksOff)
    (fun acts s a s' ⟨h, hle⟩ hrace hs => ?_) [] ⟨inv_start, le_refl 0⟩ hraces hrun
  obtain ⟨t, ht, hinv, hleft⟩ := attempt_spec h hrace (step_eq_some.mp hs)
  obtain rfl := Except.ok.inj ht
  refine ⟨hinv, hleft.trans ?_⟩
  rw [List.countP_append, List.countP_singleton]
  cases hb : breaksOff a <;> simp [hle]

end Client

instance : Fintype Half := ⟨{.head, .tail}, fun h => by cases h <;> simp⟩

/-- What is in memory, and what the next step does not do. -/
structure Accounted (acts : List Act) (s : State) : Prop where
  rlists : Holds s.mem.rlists (held (handles s))
  strings : Holds s.mem.strings (held (handles s))
  sockets : Holds s.mem.sockets (held (handles s) + s.leftOpen)
  leftOpen : s.leftOpen ≤ acts.countP breaksOff
  used : ∀ h p, s.rlsLock = .command → s.remote h = some p → ∃ a fd, Works s.mem p a fd ∧
    s.mem.sockets fd = some ()
  apart : ∀ h k p q a b fd, s.rlsLock = .command → s.remote h = some p → s.remote k = some q →
    Works s.mem p a fd → Works s.mem q b fd → h = k
  noFault : ∀ a e, ¬ Races s a → attempt s a ≠ some (.error e)

/-- Whatever `update_remote_list` meets in both threads: as long as neither the
watcher nor the main thread disconnects what the other one has disconnected, no
step runs into a fault, a command uses an open connection of its own, and the
client has nothing in memory but its connections and the sockets that broken
greetings have left open. -/
theorem connections_accounted (acts : List Act) (s : State)
    (hraces : Meets step (fun s a => ¬ Races s a) .start acts)
    (hrun : run step .start acts = some s) : Accounted acts s := by
  obtain ⟨h, hleft⟩ := run_spec hraces hrun
  have hlive : ∀ k, s.rlsLock = .command → handles s k = s.remote k := fun k hlock => by
    refine live_eq (fun he => by cases hlock.symm.trans he) (fun hc => ?_)
    have hpast := h.closed k hc
    rw [h.command hlock] at hpast
    exact hpast.elim
  obtain ⟨hrlists, strings, sockets, hstrings, hsockets, hparts⟩ := h.sound
  have hcount : held strings = held (handles s) ∧ held sockets = held (handles s) := by
    refine ⟨held_congr fun k => ?_, held_congr fun k => ?_⟩ <;>
      obtain ⟨hp, ha, hfd⟩ | ⟨p, a, fd, hp, ha, hfd, -⟩ := hparts k <;> simp [hp, ha, hfd]
  have hpart : ∀ k p, s.rlsLock = .command → s.remote k = some p →
      ∃ a fd, Works s.mem p a fd ∧ sockets k = some fd := by
    intro k p hlock hp
    have hk := (hlive k hlock).trans hp
    obtain ⟨hnone, -⟩ | ⟨q, a, fd, hq, -, hfd, hworks⟩ := hparts k
    · cases hnone.symm.trans hk
    · obtain rfl := Option.some.inj (hq.symm.trans hk)
      exact ⟨a, fd, hworks, hfd⟩
  refine ⟨?_, ?_, ?_, hleft, fun k p hlock hp => ?_, fun j k p q a b fd hlock hp hq ha hb => ?_,
    fun a e hrace he => ?_⟩
  · simpa using hrlists.holds
  · simpa [hcount.1] using hstrings.holds
  · simpa [hcount.2] using hsockets.holds
  · obtain ⟨a, fd, hworks, hfd⟩ := hpart k p hlock hp
    obtain ⟨⟨⟩, hopen⟩ := hsockets.ne_none hfd
    exact ⟨a, fd, hworks, hopen⟩
  · obtain ⟨a', fd', hp', hj⟩ := hpart j p hlock hp
    obtain ⟨b', gd', hq', hk⟩ := hpart k q hlock hq
    obtain rfl := ha.sockfd hp'
    obtain rfl := hb.sockfd hq'
    exact hsockets.one hj hk
  · obtain ⟨t, ht, -⟩ := attempt_spec h hrace he
    cases ht

instance (s : State) : DecidablePred (Races s)
  | .disconnect h => inferInstanceAs (Decidable (s.closed h = true ∧ s.remote h ≠ none))
  | .close h => inferInstanceAs (Decidable (s.rlsLock = .replacing h ∧ s.remote h ≠ none))
  | .ready | .command | .use _ | .done | .quit | .clean | .connect .. => isFalse id

def buffer : CString := ofBytes [104, 58, 49]

def visit (place : Nat) (greeting : Greeting) : Visit :=
  ⟨some 9, some place, some place, some place, true, true, greeting⟩

/-- The tail breaks off the first greeting and is there at the second one. The
client leaves its loop and disconnects the head. -/
def leavesOne : List Act :=
  [.disconnect .head, .connect .head (visit 1 (.reply opReady)) buffer,
    .disconnect .tail, .connect .tail (visit 2 .noLength) buffer,
    .disconnect .tail, .connect .tail (visit 3 (.reply opReady)) buffer,
    .ready, .command, .use .head, .done, .quit, .close .head]

theorem connections_accounted_leavesOne :
    ∃ s, run step .start leavesOne = some s ∧ s.leftOpen = 1 ∧ Holds s.mem.rlists 1 ∧
      Holds s.mem.sockets 2 ∧ Races s (.disconnect .head) ∧
      (attempt s (.disconnect .head)).map Except.isOk = some false := by
  have hend : (run step .start leavesOne).map (fun s => (s.leftOpen, held (handles s),
      decide (Races s (.disconnect .head)), (attempt s (.disconnect .head)).map Except.isOk)) =
        some (1, 1, true, some false) := by decide
  obtain ⟨s, hs, hp⟩ := Option.map_eq_some_iff.mp hend
  simp only [Prod.mk.injEq, decide_eq_true_eq] at hp
  obtain ⟨hleft, hheld, hrace, hfault⟩ := hp
  have h := connections_accounted leavesOne s (by decide) hs
  have hrlists := h.rlists
  have hsockets := h.sockets
  rw [hheld] at hrlists hsockets
  rw [hleft] at hsockets
  exact ⟨s, hs, hleft, hrlists, hsockets, hrace, hfault⟩

end ListServer.Connections
