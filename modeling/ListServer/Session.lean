import ListServer.PackedSize
import ListServer.ClientThread
import ListServer.Lib.Pieces
import ListServer.Lib.Transition

namespace ListServer.Session

open Lib.Transition Lib.Pieces
open CarList Message Skeleton ClientThread PackedSize

/-- What a server sends on a connection. A reply comes with its request. -/
inductive Frame
  | busy
  | ready
  | reply (r : Request) (m : MessageT)
deriving DecidableEq, Repr

/-- Where a client stands: in `network_connect`, between two requests, in
`network_send_receive`, or through with the connection. -/
inductive Client
  | absent
  | connecting
  | idle
  | waiting
  | done
deriving DecidableEq, Repr

/-- A connection: the requests sent on it, those the server has not read, the
pieces of frames the server has written and the frames the client has read. -/
structure Connection where
  client : Client
  requests : List Request
  toServer : List Request
  stream : List (Piece Frame)
  got : List (Option Frame)
  accepted : Bool
deriving DecidableEq, Repr

def Connection.start : Connection := ⟨.absent, [], [], [], [], false⟩

/-- Each frame that has been read took two pieces. -/
def Connection.unread (c : Connection) : List (Piece Frame) := c.stream.drop (2 * c.got.length)

/-- Where a client thread stands while its socket is open. `sending` is after
the length of the reply. -/
inductive Place
  | receiving
  | received (r : Request)
  | answered (r : Request) (m : MessageT)
  | sending (r : Request) (m : MessageT)
  | closing
deriving DecidableEq, Repr

/-- An open socket of the server with the thread that serves it. -/
structure Socket where
  conn : Nat
  thread : Option Place
deriving DecidableEq, Repr

/-- Where the accept loop stands. `begun` tells whether the length of the BUSY
or READY frame has been written. -/
inductive Main
  | accepting
  | accepted (clientSocket : Nat)
  | busy (begun : Bool) (clientSocket : Nat)
  | closing (clientSocket : Nat)
  | ready (begun : Bool) (clientSocket : Nat)
deriving DecidableEq, Repr

/-- The sockets are given by their descriptors, which are used again after a
socket has been closed. -/
structure State where
  main : Main
  sockets : Nat → Option Socket
  conns : Nat → Connection
  list : ListT

def State.start (list : ListT) : State := ⟨.accepting, fun _ => none, fun _ => .start, list⟩

def State.setConn (s : State) (c : Nat) (conn : Connection) : State :=
  { s with conns := fun d => if d = c then conn else s.conns d }

def State.setSocket (s : State) (clientSocket : Nat) (k : Option Socket) : State :=
  { s with sockets := fun fd => if fd = clientSocket then k else s.sockets fd }

/-- One of the two writes of `network_send`. A closed descriptor takes nothing. -/
def State.write (s : State) (clientSocket : Nat) (p : Piece Frame) : Option State :=
  (s.sockets clientSocket).map fun k =>
    s.setConn k.conn { s.conns k.conn with stream := (s.conns k.conn).stream ++ [p] }

def execute (t : AnoAtual) (next : Bool) (resp : Option MessageT) (msg : MessageT) (list : ListT) :
    MessageT × ListT :=
  if needsForward msg then afterForward t (zooForwardToSuccessor next resp) msg list
  else serve t msg list

def fitsFrame (msg : MessageT) : Bool :=
  decide (0 < messageTGetPackedSize msg ∧ messageTGetPackedSize msg ≤ 0xFFFF)

/-- The steps of a client, of the accept loop and of the thread of a socket. A
client may meet an error instead of a frame, the accept loop may refuse a
connection for want of a slot, memory or a thread, and a write may fail. -/
inductive Act
  | connect (c : Nat)
  | read (c : Nat)
  | fail (c : Nat)
  | request (c : Nat) (msg : MessageT)
  | drop (c : Nat)
  | accept (c : Nat) (clientSocket : Nat)
  | refuse
  | create
  | send (written : Bool)
  | close
  | receive (clientSocket : Nat)
  | hangup (clientSocket : Nat)
  | answer (clientSocket : Nat) (next : Bool) (resp : Option MessageT)
  | reply (clientSocket : Nat) (written : Bool)
  | leave (clientSocket : Nat)
deriving DecidableEq, Repr

def stepClient (c : Connection) : Act → Option Connection
  | .connect _ => if c.client = .absent then some { c with client := .connecting } else none
  | .read _ =>
    match c.client, c.unread with
    | .connecting, p :: q :: _ =>
      some { c with
        got := c.got ++ [decode p q]
        client := if decode p q = some .ready then .idle else .done }
    | .waiting, p :: q :: _ => some { c with got := c.got ++ [decode p q], client := .idle }
    | _, _ => none
  | .fail _ =>
    match c.client with
    | .connecting => some { c with client := .done }
    | .waiting => some { c with client := .idle }
    | _ => none
  | .request _ msg =>
    if c.client = .idle then
      if fitsFrame msg then
        some { c with
          client := .waiting
          requests := c.requests ++ [⟨c.requests.length, msg⟩]
          toServer := c.toServer ++ [⟨c.requests.length, msg⟩] }
      else some c
    else none
  | .drop _ => if c.client = .absent then none else some { c with client := .done }
  | _ => none

def stepMain (s : State) : Act → Option State
  | .accept c clientSocket =>
    if s.main = .accepting ∧ (s.conns c).client ≠ .absent ∧ (s.conns c).accepted = false ∧
        s.sockets clientSocket = none then
      some { (s.setConn c { s.conns c with accepted := true }).setSocket clientSocket
          (some ⟨c, none⟩) with main := .accepted clientSocket }
    else none
  | .refuse =>
    match s.main with
    | .accepted clientSocket => some { s with main := .busy false clientSocket }
    | _ => none
  | .create =>
    match s.main with
    | .accepted clientSocket =>
      (s.sockets clientSocket).map fun k =>
        { s.setSocket clientSocket (some { k with thread := some .receiving }) with
          main := .ready false clientSocket }
    | _ => none
  | .send written =>
    match s.main, written with
    | .busy false clientSocket, true =>
      (s.write clientSocket (.header .busy)).map ({ · with main := .busy true clientSocket })
    | .busy true clientSocket, true =>
      (s.write clientSocket (.body .busy)).map ({ · with main := .closing clientSocket })
    | .busy _ clientSocket, false => some { s with main := .closing clientSocket }
    | .ready false clientSocket, true =>
      (s.write clientSocket (.header .ready)).map ({ · with main := .ready true clientSocket })
    | .ready true clientSocket, true =>
      (s.write clientSocket (.body .ready)).map ({ · with main := .accepting })
    | .ready _ _, false => some { s with main := .accepting }
    | _, _ => none
  | .close =>
    match s.main with
    | .closing clientSocket =>
      some { s.setSocket clientSocket none with main := .accepting }
    | _ => none
  | _ => none

def stepThread (t : AnoAtual) (s : State) (clientSocket c : Nat) (place : Place) :
    Act → Option State
  | .receive _ =>
    match place, (s.conns c).toServer with
    | .receiving, r :: rest =>
      some ((s.setConn c { s.conns c with toServer := rest }).setSocket clientSocket
        (some ⟨c, some (.received r)⟩))
    | _, _ => none
  | .hangup _ =>
    match place with
    | .receiving => some (s.setSocket clientSocket (some ⟨c, some .closing⟩))
    | _ => none
  | .answer _ next resp =>
    match place with
    | .received r =>
      let p := execute t next resp r.msg s.list
      some { s.setSocket clientSocket (some ⟨c, some (.answered r p.1)⟩) with list := p.2 }
    | _ => none
  | .reply _ written =>
    match place, written with
    | .answered r m, true =>
      if fitsFrame m then
        (s.write clientSocket (.header (.reply r m))).map
          (·.setSocket clientSocket (some ⟨c, some (.sending r m)⟩))
      else none
    | .sending r m, true =>
      (s.write clientSocket (.body (.reply r m))).map
        (·.setSocket clientSocket (some ⟨c, some .receiving⟩))
    | .answered _ _, false | .sending _ _, false =>
      some (s.setSocket clientSocket (some ⟨c, some .closing⟩))
    | _, _ => none
  | .leave _ =>
    match place with
    | .closing => some (s.setSocket clientSocket none)
    | _ => none
  | _ => none

def step (t : AnoAtual) (s : State) (a : Act) : Option State :=
  match a with
  | .connect c | .read c | .fail c | .request c _ | .drop c =>
    (stepClient (s.conns c) a).map (s.setConn c)
  | .accept _ _ | .refuse | .create | .send _ | .close => stepMain s a
  | .receive clientSocket | .hangup clientSocket | .answer clientSocket _ _
  | .reply clientSocket _ | .leave clientSocket =>
    match s.sockets clientSocket with
    | some ⟨c, some place⟩ => stepThread t s clientSocket c place a
    | _ => none

/-- The reply is what the execution of the request gave, for some list and some
outcome of the forward. -/
def IsReply (t : AnoAtual) (r : Request) (m : MessageT) : Prop :=
  ∃ next resp list, m = (execute t next resp r.msg list).1

/-- The frame is the reply to the `k`-th request. -/
def AnswersRequest (t : AnoAtual) (requests : List Request) (k : Nat) (f : Frame) : Prop :=
  ∃ r m, f = .reply r m ∧ requests[k]? = some r ∧ r.id = k ∧ IsReply t r m

/-- What the protocol promises a client. -/
structure InSession (t : AnoAtual) (c : Connection) : Prop where
  first : ∀ f, c.got.head? = some f → f = some .ready ∨ f = some .busy
  ordered : ∀ pre p post, c.stream = pre ++ p :: post → (∃ r m, p.frame = .reply r m) →
    .body .ready ∈ pre
  replies : c.got.head? = some (some .ready) → ∀ k f, c.got[k + 1]? = some f →
    ∃ g, f = some g ∧ AnswersRequest t c.requests k g

/-- The frames of a connection, the complete ones and one that has begun: none,
BUSY alone, or READY and the replies. -/
inductive Talk (t : AnoAtual) (requests : List Request) : List Frame → Option Frame → Prop
  | silent : Talk t requests [] none
  | busyBegun : Talk t requests [] (some .busy)
  | busy : Talk t requests [.busy] none
  | readyBegun : Talk t requests [] (some .ready)
  | ready {rs : List Frame} {part : Option Frame}
      (hrs : ∀ k f, rs[k]? = some f → AnswersRequest t requests k f)
      (hpart : ∀ f, part = some f → AnswersRequest t requests rs.length f) :
      Talk t requests (.ready :: rs) part

/-- A client that has sent a request has read READY before. -/
structure Orderly (t : AnoAtual) (c : Connection) (fs : List Frame) (part : Option Frame) :
    Prop where
  stream : c.stream = written fs part
  talk : Talk t c.requests fs part
  got : c.got = (fs.take c.got.length).map some
  length : c.got.length ≤ fs.length
  first : c.client = .absent ∨ c.client = .connecting → c.got = []
  asked : c.requests ≠ [] ∨ c.client = .idle ∨ c.client = .waiting →
    c.got.head? = some (some .ready)
  ids : ∀ k (r : Request), c.requests[k]? = some r → r.id = k
  unsent : c.requests = [] → c.toServer = []

/-- What holds at a place of the thread: the requests before its own have been
answered, those behind it have not been read. -/
def Serving (t : AnoAtual) (c : Connection) (fs : List Frame) (part : Option Frame) : Place → Prop
  | .receiving => c.toServer = c.requests.drop (fs.length - 1) ∧ (fs = [] ∨ part = none)
  | .received r => c.toServer = c.requests.drop fs.length ∧ c.requests[fs.length - 1]? = some r ∧
      part = none
  | .answered r m => c.toServer = c.requests.drop fs.length ∧ c.requests[fs.length - 1]? = some r ∧
      part = none ∧ IsReply t r m
  | .sending r m => c.toServer = c.requests.drop fs.length ∧ c.requests[fs.length - 1]? = some r ∧
      part = some (.reply r m) ∧ IsReply t r m
  | .closing => True

def Main.begun : Main → Option (Nat × List (Piece Frame))
  | .accepted clientSocket | .busy false clientSocket | .ready false clientSocket =>
    some (clientSocket, [])
  | .busy true clientSocket => some (clientSocket, [.header .busy])
  | .ready true clientSocket => some (clientSocket, [.header .ready])
  | .accepting | .closing _ => none

structure Inv (t : AnoAtual) (s : State) : Prop where
  conns : ∀ c, ∃ fs part, Orderly t (s.conns c) fs part ∧
    ∀ fd p, s.sockets fd = some ⟨c, some p⟩ → Serving t (s.conns c) fs part p
  accepted : ∀ fd c p, s.sockets fd = some ⟨c, p⟩ → (s.conns c).accepted = true
  unique : ∀ fd fd' c p p', s.sockets fd = some ⟨c, p⟩ → s.sockets fd' = some ⟨c, p'⟩ → fd = fd'
  fresh : ∀ c, (s.conns c).accepted = false → (s.conns c).stream = []
  main : ∀ fd ps, s.main.begun = some (fd, ps) → ∀ c p, s.sockets fd = some ⟨c, p⟩ →
    (s.conns c).stream = ps

section Connection

variable {t : AnoAtual} {c c' : Connection} {fs : List Frame} {part : Option Frame}

theorem AnswersRequest.append {rs : List Request} {k : Nat} {f : Frame}
    (h : AnswersRequest t rs k f) (ms : List Request) : AnswersRequest t (rs ++ ms) k f := by
  obtain ⟨r, m, rfl, hr, hid, hm⟩ := h
  obtain ⟨hk, -⟩ := List.getElem?_eq_some_iff.mp hr
  exact ⟨r, m, rfl, by rw [List.getElem?_append_left hk, hr], hid, hm⟩

theorem Talk.append {rs : List Request} (h : Talk t rs fs part) (ms : List Request) :
    Talk t (rs ++ ms) fs part := by
  cases h with
  | silent => exact .silent
  | busyBegun => exact .busyBegun
  | busy => exact .busy
  | readyBegun => exact .readyBegun
  | ready hrs hpart =>
    exact .ready (fun k f hf => (hrs k f hf).append ms) fun f hf => (hpart f hf).append ms

theorem Orderly.ready_of_requests (h : Orderly t c fs part) (hr : c.requests ≠ []) :
    ∃ rs, fs = .ready :: rs := by
  have hhead := h.asked (.inl hr)
  cases fs with
  | nil =>
    rw [h.got, List.take_nil] at hhead
    cases hhead
  | cons f rs =>
    refine ⟨rs, ?_⟩
    rw [h.got] at hhead
    cases hn : c.got.length with
    | zero =>
      rw [hn] at hhead
      cases hhead
    | succ n =>
      rw [hn] at hhead
      obtain rfl : f = .ready := Option.some.inj (Option.some.inj hhead)
      rfl

theorem Orderly.ready_of_next (h : Orderly t c fs part) {k : Nat} {r : Request}
    (hr : c.requests[k]? = some r) : ∃ rs, fs = .ready :: rs := by
  refine h.ready_of_requests fun hreq => ?_
  rw [hreq] at hr
  cases hr

/-- No reply is ahead of its request. -/
theorem Orderly.replies_le (h : Orderly t c fs part) : fs.length - 1 ≤ c.requests.length := by
  cases h.talk with
  | silent | busyBegun | busy | readyBegun => exact Nat.zero_le _
  | @ready rs _ hrs _ =>
    cases hl : rs.length with
    | zero => simp [hl]
    | succ n =>
      obtain ⟨f, hf⟩ : ∃ f, rs[n]? = some f := ⟨rs[n], List.getElem?_eq_getElem (by omega)⟩
      obtain ⟨r, m, -, hr, -, -⟩ := hrs n f hf
      obtain ⟨hn, -⟩ := List.getElem?_eq_some_iff.mp hr
      rw [List.length_cons, hl]
      omega

theorem Serving.congr {p : Place} (h : Serving t c fs part p) (hto : c'.toServer = c.toServer)
    (hreq : c'.requests = c.requests) : Serving t c' fs part p := by
  cases p with
  | closing => trivial
  | _ => simpa only [Serving, hto, hreq] using h

theorem Orderly.read (h : Orderly t c fs part) {p q : Piece Frame} {rest : List (Piece Frame)}
    (hu : c.unread = p :: q :: rest) : ∃ f, decode p q = some f ∧
      c.got ++ [some f] = (fs.take (c.got ++ [some f]).length).map some ∧
      (c.got ++ [some f]).length ≤ fs.length := by
  rw [Connection.unread, h.stream] at hu
  obtain ⟨f, hf, hd⟩ := decode_next h.length hu
  obtain ⟨hlt, -⟩ := List.getElem?_eq_some_iff.mp hf
  refine ⟨f, hd, ?_, ?_⟩
  · rw [List.length_append, List.length_singleton, List.take_add_one, hf, List.map_append, ← h.got]
    rfl
  · rw [List.length_append]
    exact hlt

theorem Serving.append {p : Place} (h : Orderly t c fs part) (hp : Serving t c fs part p)
    (r : Request) {client : Client} :
    Serving t { c with client, requests := c.requests ++ [r], toServer := c.toServer ++ [r] }
      fs part p := by
  have hle := h.replies_le
  cases p with
  | closing => trivial
  | receiving =>
    obtain ⟨hto, hpart⟩ := hp
    refine ⟨?_, hpart⟩
    dsimp only
    rw [hto, List.drop_append_of_le_length hle]
  | received q | answered q m | sending q m =>
    obtain ⟨hto, hq, hrest⟩ := hp
    obtain ⟨hlt, -⟩ := List.getElem?_eq_some_iff.mp hq
    refine ⟨?_, ?_, hrest⟩ <;> dsimp only
    · rw [hto, List.drop_append_of_le_length (by omega)]
    · rw [List.getElem?_append_left hlt, hq]

/-- What a step of the client does not change, and what it keeps. -/
structure Kept (t : AnoAtual) (c c' : Connection) : Prop where
  stream : c'.stream = c.stream
  accepted : c'.accepted = c.accepted
  orderly : ∀ {fs part}, Orderly t c fs part → Orderly t c' fs part
  serving : ∀ {fs part p}, Orderly t c fs part → Serving t c fs part p → Serving t c' fs part p

theorem Orderly.move (h : Orderly t c fs part) {client : Client}
    (hclient : client = .done ∨ (client = .connecting ∧ c.client = .absent) ∨
      (client = .idle ∧ c.client = .waiting)) : Orderly t { c with client } fs part where
  stream := h.stream
  talk := h.talk
  got := h.got
  length := h.length
  first hc := by
    obtain rfl | ⟨rfl, hold⟩ | ⟨rfl, -⟩ := hclient
    · obtain hc | hc := hc <;> cases hc
    · exact h.first (.inl hold)
    · obtain hc | hc := hc <;> cases hc
  asked hc := by
    obtain rfl | ⟨rfl, -⟩ | ⟨rfl, hold⟩ := hclient
    · obtain hc | hc | hc := hc
      · exact h.asked (.inl hc)
      · cases hc
      · cases hc
    · obtain hc | hc | hc := hc
      · exact h.asked (.inl hc)
      · cases hc
      · cases hc
    · exact h.asked (.inr (.inr hold))
  ids := h.ids
  unsent := h.unsent

theorem kept_of_move {client : Client}
    (hclient : client = .done ∨ (client = .connecting ∧ c.client = .absent) ∨
      (client = .idle ∧ c.client = .waiting)) : Kept t c { c with client } :=
  ⟨rfl, rfl, fun h => h.move hclient, fun _ hp => hp.congr rfl rfl⟩

/-- The frame is read in `network_connect`. -/
theorem Orderly.readFirst (h : Orderly t c fs part) (hc : c.client = .connecting)
    {p q : Piece Frame} {rest : List (Piece Frame)} (hu : c.unread = p :: q :: rest) :
    Orderly t { c with
      got := c.got ++ [decode p q]
      client := if decode p q = some .ready then .idle else .done } fs part := by
  have hgot := h.first (.inr hc)
  obtain ⟨f, hd, htake, hle⟩ := h.read hu
  rw [hd]
  refine ⟨h.stream, h.talk, htake, hle, fun hcl => ?_, fun hcl => ?_, h.ids, h.unsent⟩
  · dsimp only at hcl
    split at hcl <;> obtain hcl | hcl := hcl <;> cases hcl
  · dsimp only at hcl ⊢
    obtain hcl | hcl := hcl
    · have hhead := h.asked (.inl hcl)
      rw [hgot] at hhead
      cases hhead
    · split at hcl
      next hready =>
        rw [hgot, hready]
        rfl
      next => obtain hcl | hcl := hcl <;> cases hcl

/-- The frame is read in `network_send_receive`. -/
theorem Orderly.readNext (h : Orderly t c fs part) (hc : c.client = .waiting)
    {p q : Piece Frame} {rest : List (Piece Frame)} (hu : c.unread = p :: q :: rest) :
    Orderly t { c with got := c.got ++ [decode p q], client := .idle } fs part := by
  have hhead := h.asked (.inr (.inr hc))
  obtain ⟨f, hd, htake, hle⟩ := h.read hu
  rw [hd]
  refine ⟨h.stream, h.talk, htake, hle, fun hcl => ?_, fun _ => ?_, h.ids, h.unsent⟩
  · obtain hcl | hcl := hcl <;> cases hcl
  · dsimp only
    rw [List.head?_append, hhead]
    rfl

theorem Orderly.request (h : Orderly t c fs part) (hc : c.client = .idle) (msg : MessageT) :
    Orderly t { c with
      client := .waiting
      requests := c.requests ++ [⟨c.requests.length, msg⟩]
      toServer := c.toServer ++ [⟨c.requests.length, msg⟩] } fs part where
  stream := h.stream
  talk := h.talk.append _
  got := h.got
  length := h.length
  first hcl := by
    obtain hcl | hcl := hcl <;> cases hcl
  asked _ := h.asked (.inr (.inl hc))
  ids k r hr := by
    rw [List.getElem?_append] at hr
    split at hr
    next => exact h.ids k r hr
    next hk =>
      obtain ⟨hlt, hr⟩ := List.getElem?_eq_some_iff.mp hr
      have hzero : k - c.requests.length = 0 := by simpa using hlt
      rw [← hr]
      simp only [hzero, List.getElem_cons_zero]
      omega
  unsent hreq := by
    simp at hreq

theorem kept_step {a : Act} (hs : stepClient c a = some c') : Kept t c c' := by
  cases a with
  | connect d =>
    obtain ⟨hc, hs⟩ := Option.ite_none_right_eq_some.mp hs
    obtain rfl := Option.some.inj hs
    exact kept_of_move (.inr (.inl ⟨rfl, hc⟩))
  | read d =>
    simp only [stepClient] at hs
    split at hs
    next hc hu =>
      obtain rfl := Option.some.inj hs
      exact ⟨rfl, rfl, fun h => h.readFirst hc hu, fun _ hp => hp.congr rfl rfl⟩
    next hc hu =>
      obtain rfl := Option.some.inj hs
      exact ⟨rfl, rfl, fun h => h.readNext hc hu, fun _ hp => hp.congr rfl rfl⟩
    next => cases hs
  | fail d =>
    simp only [stepClient] at hs
    split at hs
    next =>
      obtain rfl := Option.some.inj hs
      exact kept_of_move (.inl rfl)
    next hc =>
      obtain rfl := Option.some.inj hs
      exact kept_of_move (.inr (.inr ⟨rfl, hc⟩))
    next => cases hs
  | request d msg =>
    obtain ⟨hc, hs⟩ := Option.ite_none_right_eq_some.mp hs
    split at hs
    · obtain rfl := Option.some.inj hs
      exact ⟨rfl, rfl, fun h => h.request hc msg, fun h hp => hp.append h _⟩
    · obtain rfl := Option.some.inj hs
      exact ⟨rfl, rfl, id, fun _ => id⟩
  | drop d =>
    obtain ⟨-, hs⟩ := Option.ite_none_left_eq_some.mp hs
    obtain rfl := Option.some.inj hs
    exact kept_of_move (.inl rfl)
  | _ => cases hs

theorem Orderly.begin {f : Frame} (h : Orderly t c fs none) (ht : Talk t c.requests fs (some f)) :
    Orderly t { c with stream := c.stream ++ [.header f] } fs (some f) where
  stream := by
    rw [h.stream, written_begin]
  talk := ht
  got := h.got
  length := h.length
  first := h.first
  asked := h.asked
  ids := h.ids
  unsent := h.unsent

theorem Orderly.finish {f : Frame} (h : Orderly t c fs (some f))
    (ht : Talk t c.requests (fs ++ [f]) none) :
    Orderly t { c with stream := c.stream ++ [.body f] } (fs ++ [f]) none where
  stream := by
    rw [h.stream, written_end]
  talk := ht
  got := by
    rw [List.take_append_of_le_length h.length]
    exact h.got
  length := by
    rw [List.length_append]
    exact Nat.le_succ_of_le h.length
  first := h.first
  asked := h.asked
  ids := h.ids
  unsent := h.unsent

theorem Serving.receive (h : Orderly t c fs part) (hp : Serving t c fs part .receiving)
    {r : Request} {rest : List Request} (hto : c.toServer = r :: rest) :
    Orderly t { c with toServer := rest } fs part ∧
      Serving t { c with toServer := rest } fs part (.received r) := by
  obtain ⟨hdrop, hpart⟩ := hp
  have hne : c.requests ≠ [] := fun hreq => by
    have hnil := h.unsent hreq
    rw [hto] at hnil
    cases hnil
  obtain ⟨rs, rfl⟩ := h.ready_of_requests hne
  rw [hto, List.length_cons, Nat.add_sub_cancel] at hdrop
  have hnext : c.requests[rs.length]? = some r := by
    rw [← List.head?_drop, ← hdrop]
    rfl
  have hrest : rest = c.requests.drop (rs.length + 1) := by
    rw [← List.tail_drop, ← hdrop]
    rfl
  exact ⟨⟨h.stream, h.talk, h.got, h.length, h.first, h.asked, h.ids, fun hreq => absurd hreq hne⟩,
    hrest, hnext, hpart.resolve_left (List.cons_ne_nil _ _)⟩

theorem Serving.begin {r : Request} {m : MessageT} (h : Orderly t c fs part)
    (hp : Serving t c fs part (.answered r m)) :
    Orderly t { c with stream := c.stream ++ [.header (.reply r m)] } fs (some (.reply r m)) ∧
      Serving t { c with stream := c.stream ++ [.header (.reply r m)] } fs (some (.reply r m))
        (.sending r m) := by
  obtain ⟨hto, hr, rfl, hm⟩ := hp
  obtain ⟨rs, rfl⟩ := h.ready_of_next hr
  refine ⟨h.begin ?_, hto, hr, rfl, hm⟩
  cases h.talk with
  | ready hrs _ =>
    refine .ready hrs fun f hf => ?_
    obtain rfl := Option.some.inj hf
    exact ⟨r, m, rfl, hr, h.ids _ r hr, hm⟩

theorem Serving.finish {r : Request} {m : MessageT} (h : Orderly t c fs part)
    (hp : Serving t c fs part (.sending r m)) :
    Orderly t { c with stream := c.stream ++ [.body (.reply r m)] } (fs ++ [.reply r m]) none ∧
      Serving t { c with stream := c.stream ++ [.body (.reply r m)] } (fs ++ [.reply r m]) none
        .receiving := by
  obtain ⟨hto, hr, rfl, hm⟩ := hp
  obtain ⟨rs, rfl⟩ := h.ready_of_next hr
  refine ⟨h.finish ?_, ?_, .inr rfl⟩
  · cases h.talk with
    | ready hrs hpart =>
      rw [List.cons_append]
      refine .ready (fun k f hf => ?_) fun f hf => by cases hf
      rw [List.getElem?_append] at hf
      split at hf
      next => exact hrs k f hf
      next hk =>
        obtain ⟨hlt, rfl⟩ := List.getElem?_eq_some_iff.mp hf
        have hkeq : k = rs.length := by
          rw [List.length_singleton] at hlt
          omega
        simp only [hkeq, Nat.sub_self, List.getElem_cons_zero]
        exact hpart _ rfl
  · rw [List.length_append, List.length_singleton, Nat.add_sub_cancel]
    exact hto

theorem Orderly.requests_nil (h : Orderly t c [] part) : c.requests = [] := by
  by_contra hne
  obtain ⟨rs, hrs⟩ := h.ready_of_requests hne
  cases hrs

theorem Orderly.opening {g : Frame} (hg : g = .busy ∨ g = .ready) (h : Orderly t c fs part)
    (hc : c.stream = []) : fs = [] ∧ ∃ gs part',
      Orderly t { c with stream := c.stream ++ [.header g] } gs part' ∧ (gs = [] ∨ part' = none) := by
  obtain ⟨rfl, rfl⟩ := written_eq_nil (h.stream.symm.trans hc)
  refine ⟨rfl, [], some g, h.begin ?_, .inl rfl⟩
  obtain rfl | rfl := hg
  · exact .busyBegun
  · exact .readyBegun

theorem Orderly.opened {g : Frame} (hg : g = .busy ∨ g = .ready) (h : Orderly t c fs part)
    (hc : c.stream = [.header g]) : fs = [] ∧ ∃ gs part',
      Orderly t { c with stream := c.stream ++ [.body g] } gs part' ∧ (gs = [] ∨ part' = none) := by
  obtain ⟨rfl, rfl⟩ := written_eq_header (h.stream.symm.trans hc)
  refine ⟨rfl, [g], none, h.finish ?_, .inr rfl⟩
  obtain rfl | rfl := hg
  · exact .busy
  · exact .ready (fun _ _ hf => by cases hf) fun _ hf => by cases hf

theorem Serving.opening {p : Place} (h : Orderly t c [] part) (hp : Serving t c [] part p)
    {stream : List (Piece Frame)} {gs : List Frame} {part' : Option Frame}
    (hgs : gs = [] ∨ part' = none) : Serving t { c with stream } gs part' p := by
  cases p with
  | closing => trivial
  | receiving =>
    have hreq := h.requests_nil
    refine ⟨?_, hgs⟩
    dsimp only
    rw [h.unsent hreq, hreq, List.drop_nil]
  | received | answered | sending =>
    obtain ⟨rs, hrs⟩ := h.ready_of_next hp.2.1
    cases hrs

end Connection

section Steps

variable {t : AnoAtual} {s s' : State} {a : Act} {c fd : Nat}

theorem orderly_start : Orderly t .start [] none where
  stream := rfl
  talk := .silent
  got := rfl
  length := Nat.le_refl 0
  first _ := rfl
  asked h := by
    obtain h | h | h := h
    · exact absurd rfl h
    · cases h
    · cases h
  ids _ _ h := by cases h
  unsent _ := rfl

theorem inv_start (list : ListT) : Inv t (.start list) where
  conns _ := ⟨[], none, orderly_start, fun _ _ h => by cases h⟩
  accepted _ _ _ h := by cases h
  unique _ _ _ _ _ h := by cases h
  fresh _ _ := rfl
  main _ _ h := by cases h

@[simp] theorem setConn_self (s : State) (c : Nat) (conn : Connection) :
    (s.setConn c conn).conns c = conn := if_pos rfl

@[simp] theorem setConn_ne (s : State) {c d : Nat} (conn : Connection) (h : d ≠ c) :
    (s.setConn c conn).conns d = s.conns d := if_neg h

@[simp] theorem setSocket_self (s : State) (fd : Nat) (k : Option Socket) :
    (s.setSocket fd k).sockets fd = k := if_pos rfl

@[simp] theorem setSocket_ne (s : State) {fd f : Nat} (k : Option Socket) (h : f ≠ fd) :
    (s.setSocket fd k).sockets f = s.sockets f := if_neg h

theorem write_eq_some {p : Piece Frame} : s.write fd p = some s' ↔
    ∃ k, s.sockets fd = some k ∧
      s.setConn k.conn { s.conns k.conn with stream := (s.conns k.conn).stream ++ [p] } = s' := by
  simp [State.write]

theorem inv_client (h : Inv t s) {conn : Connection} (hk : Kept t (s.conns c) conn) :
    Inv t (s.setConn c conn) := by
  have hstream : ∀ d, ((s.setConn c conn).conns d).stream = (s.conns d).stream := fun d => by
    by_cases hd : d = c
    · rw [hd, setConn_self, hk.stream]
    · rw [setConn_ne s conn hd]
  have haccepted : ∀ d, ((s.setConn c conn).conns d).accepted = (s.conns d).accepted := fun d => by
    by_cases hd : d = c
    · rw [hd, setConn_self, hk.accepted]
    · rw [setConn_ne s conn hd]
  refine ⟨fun d => ?_, fun f d p hf => ?_, h.unique, fun d hd => ?_, fun f ps hm d p hf => ?_⟩
  · obtain ⟨fs, part, horder, hserving⟩ := h.conns d
    by_cases hd : d = c
    · subst hd
      rw [setConn_self]
      exact ⟨fs, part, hk.orderly horder, fun f p hf => hk.serving horder (hserving f p hf)⟩
    · rw [setConn_ne s conn hd]
      exact ⟨fs, part, horder, hserving⟩
  · rw [haccepted]
    exact h.accepted f d p hf
  · rw [hstream]
    rw [haccepted] at hd
    exact h.fresh d hd
  · rw [hstream]
    exact h.main f ps hm d p hf

/-- A step that changes one connection and its socket keeps the invariant if it
does there. -/
theorem inv_update (h : Inv t s) {fs : List Frame} {part : Option Frame}
    (hconns : ∀ d, d ≠ c → s'.conns d = s.conns d)
    (hsockets : ∀ f, f ≠ fd → s'.sockets f = s.sockets f)
    (hown : ∀ f p, s.sockets f = some ⟨c, p⟩ → f = fd)
    (hsocket : ∀ d p, s'.sockets fd = some ⟨d, p⟩ → d = c ∧ (s'.conns c).accepted = true)
    (horder : Orderly t (s'.conns c) fs part)
    (hserving : ∀ p, s'.sockets fd = some ⟨c, some p⟩ → Serving t (s'.conns c) fs part p)
    (hfresh : (s'.conns c).accepted = false → (s'.conns c).stream = [])
    (hmain : ∀ f ps, s'.main.begun = some (f, ps) → ∀ d p, s'.sockets f = some ⟨d, p⟩ →
      (s'.conns d).stream = ps) : Inv t s' := by
  have hother : ∀ f d p, f ≠ fd → s'.sockets f = some ⟨d, p⟩ →
      d ≠ c ∧ s.sockets f = some ⟨d, p⟩ := fun f d p hf hd => by
    rw [hsockets f hf] at hd
    refine ⟨fun he => ?_, hd⟩
    rw [he] at hd
    exact hf (hown f p hd)
  refine ⟨fun d => ?_, fun f d p hf => ?_, fun f f' d p p' hf hf' => ?_, fun d hd => ?_, hmain⟩
  · by_cases hd : d = c
    · subst hd
      refine ⟨fs, part, horder, fun f p hf => ?_⟩
      by_cases hfd : f = fd
      · rw [hfd] at hf
        exact hserving p hf
      · exact absurd rfl (hother f d p hfd hf).1
    · obtain ⟨fs, part, horder, hserving⟩ := h.conns d
      rw [hconns d hd]
      refine ⟨fs, part, horder, fun f p hf => ?_⟩
      by_cases hfd : f = fd
      · rw [hfd] at hf
        exact absurd (hsocket d p hf).1 hd
      · exact hserving f p (hother f d p hfd hf).2
  · by_cases hfd : f = fd
    · rw [hfd] at hf
      obtain ⟨rfl, hacc⟩ := hsocket d p hf
      exact hacc
    · obtain ⟨hd, hold⟩ := hother f d p hfd hf
      rw [hconns d hd]
      exact h.accepted f d p hold
  · by_cases hfd : f = fd <;> by_cases hfd' : f' = fd
    · rw [hfd, hfd']
    · rw [hfd] at hf
      exact absurd (hsocket d p hf).1 (hother f' d p' hfd' hf').1
    · rw [hfd'] at hf'
      exact absurd (hsocket d p' hf').1 (hother f d p hfd hf).1
    · exact h.unique f f' d p p' (hother f d p hfd hf).2 (hother f' d p' hfd' hf').2
  · by_cases hdc : d = c
    · rw [hdc] at hd ⊢
      exact hfresh hd
    · rw [hconns d hdc] at hd ⊢
      exact h.fresh d hd

theorem begun_length {m : Main} {ps : List (Piece Frame)} (h : m.begun = some (fd, ps)) :
    ps.length ≤ 1 := by
  unfold Main.begun at h
  split at h <;> cases h <;> decide

/-- A step of the thread of a socket. It writes only where a frame has been
written before. -/
theorem inv_thread (h : Inv t s) {place place' : Place} {fs : List Frame} {part : Option Frame}
    (hk : s.sockets fd = some ⟨c, some place⟩)
    (hconns : ∀ d, d ≠ c → s'.conns d = s.conns d)
    (hsockets : ∀ f, f ≠ fd → s'.sockets f = s.sockets f)
    (hsocket : ∀ k, s'.sockets fd = some k → k = ⟨c, some place'⟩) (hmain : s'.main = s.main)
    (haccepted : (s'.conns c).accepted = (s.conns c).accepted)
    (hstream : (s'.conns c).stream = (s.conns c).stream ∨
      ∃ f gs part, (s.conns c).stream = written (f :: gs) part)
    (horder : Orderly t (s'.conns c) fs part)
    (hserving : Serving t (s'.conns c) fs part place') : Inv t s' := by
  have hacc : (s'.conns c).accepted = true := haccepted.trans (h.accepted fd c _ hk)
  have hown : ∀ f p, s.sockets f = some ⟨c, p⟩ → f = fd := fun f p hf => h.unique f fd c p _ hf hk
  refine inv_update h hconns hsockets hown (fun d p hd => ?_) horder (fun p hp => ?_)
    (fun hf => ?_) (fun f ps hps d p hf => ?_)
  · cases hsocket _ hd
    exact ⟨rfl, hacc⟩
  · cases hsocket _ hp
    exact hserving
  · rw [hacc] at hf
    cases hf
  · rw [hmain] at hps
    by_cases hfd : f = fd
    · rw [hfd] at hf hps
      cases hsocket _ hf
      have hold := h.main fd ps hps c _ hk
      obtain hstream | ⟨g, gs, part', hlong⟩ := hstream
      · rw [hstream, hold]
      · have hle := begun_length hps
        rw [← hold, hlong, written_cons, List.length_cons, List.length_cons] at hle
        omega
    · rw [hsockets f hfd] at hf
      have hd : d ≠ c := fun he => by
        rw [he] at hf
        exact hfd (hown f p hf)
      rw [hconns d hd]
      exact h.main f ps hps d p hf

theorem inv_threadMove (h : Inv t s) {place place' : Place} {list : ListT}
    (hk : s.sockets fd = some ⟨c, some place⟩)
    (hstep : ∀ fs part, Serving t (s.conns c) fs part place → Serving t (s.conns c) fs part place') :
    Inv t { s.setSocket fd (some ⟨c, some place'⟩) with list } := by
  obtain ⟨fs, part, horder, hserving⟩ := h.conns c
  exact inv_thread h hk (fun _ _ => rfl) (fun f hf => setSocket_ne s _ hf)
    (fun k hk => Option.some.inj (hk.symm.trans (setSocket_self s fd _))) rfl rfl (.inl rfl)
    horder (hstep fs part (hserving fd place hk))

theorem inv_close (h : Inv t s) {m : Main} (hm : m.begun = s.main.begun ∨ m.begun = none) :
    Inv t { s.setSocket fd none with main := m } := by
  have hold : ∀ f k, (s.setSocket fd none).sockets f = some k → s.sockets f = some k :=
    fun f k hf => by
      by_cases hfd : f = fd
      · rw [hfd, setSocket_self] at hf
        cases hf
      · rwa [setSocket_ne s _ hfd] at hf
  refine ⟨fun c => ?_, fun f c p hf => h.accepted f c p (hold f _ hf),
    fun f f' c p p' hf hf' => h.unique f f' c p p' (hold f _ hf) (hold f' _ hf'), h.fresh,
    fun f ps hps c p hf => ?_⟩
  · obtain ⟨fs, part, horder, hserving⟩ := h.conns c
    exact ⟨fs, part, horder, fun f p hf => hserving f p (hold f _ hf)⟩
  · obtain hm | hm := hm
    · exact h.main f ps (hm.symm.trans hps) c p (hold f _ hf)
    · cases hm.symm.trans hps

theorem inv_threadConn (h : Inv t s) {place place' : Place} {conn : Connection} {fs : List Frame}
    {part : Option Frame} (hk : s.sockets fd = some ⟨c, some place⟩)
    (haccepted : conn.accepted = (s.conns c).accepted)
    (hstream : conn.stream = (s.conns c).stream ∨
      ∃ f gs part, (s.conns c).stream = written (f :: gs) part)
    (horder : Orderly t conn fs part ∧ Serving t conn fs part place') :
    Inv t ((s.setConn c conn).setSocket fd (some ⟨c, some place'⟩)) := by
  have hself : ((s.setConn c conn).setSocket fd (some ⟨c, some place'⟩)).conns c = conn :=
    setConn_self s c conn
  rw [← hself] at haccepted hstream horder
  exact inv_thread h hk (fun d hd => setConn_ne s _ hd) (fun f hf => setSocket_ne _ _ hf)
    (fun k hk => Option.some.inj (hk.symm.trans (setSocket_self _ fd _))) rfl haccepted hstream
    horder.1 horder.2

theorem stream_of_next {fs : List Frame} {part : Option Frame} {conn : Connection} {r : Request}
    (h : Orderly t conn fs part) (hr : conn.requests[fs.length - 1]? = some r) :
    ∃ f gs part, conn.stream = written (f :: gs) part := by
  obtain ⟨rs, rfl⟩ := h.ready_of_next hr
  exact ⟨.ready, rs, part, h.stream⟩

theorem inv_stepThread (h : Inv t s) {place : Place} (hk : s.sockets fd = some ⟨c, some place⟩)
    (hs : stepThread t s fd c place a = some s') : Inv t s' := by
  obtain ⟨fs, part, horder, hserving⟩ := h.conns c
  have hp := hserving fd place hk
  cases a with
  | receive f =>
    simp only [stepThread] at hs
    split at hs
    next r rest hto =>
      obtain rfl := Option.some.inj hs
      exact inv_threadConn h hk rfl (.inl rfl) (hp.receive horder hto)
    next => cases hs
  | hangup f =>
    simp only [stepThread] at hs
    split at hs
    next =>
      obtain rfl := Option.some.inj hs
      exact inv_threadMove h hk fun _ _ _ => trivial
    next => cases hs
  | answer f next resp =>
    simp only [stepThread] at hs
    split at hs
    next r =>
      obtain rfl := Option.some.inj hs
      refine inv_threadMove h hk fun _ _ hq => ?_
      obtain ⟨hto, hr, hpart⟩ := hq
      exact ⟨hto, hr, hpart, next, resp, s.list, rfl⟩
    next => cases hs
  | reply f written =>
    simp only [stepThread] at hs
    split at hs
    next r m =>
      obtain ⟨-, hs⟩ := Option.ite_none_right_eq_some.mp hs
      obtain ⟨u, hu, rfl⟩ := Option.map_eq_some_iff.mp hs
      obtain ⟨k, hk', rfl⟩ := write_eq_some.mp hu
      obtain rfl := Option.some.inj (hk.symm.trans hk')
      exact inv_threadConn h hk rfl (.inr (stream_of_next horder hp.2.1)) (hp.begin horder)
    next r m =>
      obtain ⟨u, hu, rfl⟩ := Option.map_eq_some_iff.mp hs
      obtain ⟨k, hk', rfl⟩ := write_eq_some.mp hu
      obtain rfl := Option.some.inj (hk.symm.trans hk')
      exact inv_threadConn h hk rfl (.inr (stream_of_next horder hp.2.1)) (hp.finish horder)
    next =>
      obtain rfl := Option.some.inj hs
      exact inv_threadMove h hk fun _ _ _ => trivial
    next =>
      obtain rfl := Option.some.inj hs
      exact inv_threadMove h hk fun _ _ _ => trivial
    next => cases hs
  | leave f =>
    simp only [stepThread] at hs
    split at hs
    next =>
      obtain rfl := Option.some.inj hs
      exact inv_close h (.inl rfl)
    next => cases hs
  | _ => cases hs

theorem inv_move (h : Inv t s) {m : Main} (hm : m.begun = s.main.begun ∨ m.begun = none) :
    Inv t { s with main := m } := by
  refine ⟨h.conns, h.accepted, h.unique, h.fresh, fun f ps hps => ?_⟩
  obtain hm | hm := hm
  · exact h.main f ps (hm.symm.trans hps)
  · cases hm.symm.trans hps

theorem inv_write (h : Inv t s) {ps : List (Piece Frame)} {p : Piece Frame} {m : Main}
    (hbegun : s.main.begun = some (fd, ps)) (hw : s.write fd p = some s')
    (hm : m.begun = some (fd, ps ++ [p]) ∨ m.begun = none)
    (hp : ∀ c fs part, Orderly t c fs part → c.stream = ps → fs = [] ∧ ∃ gs part',
      Orderly t { c with stream := c.stream ++ [p] } gs part' ∧ (gs = [] ∨ part' = none)) :
    Inv t { s' with main := m } := by
  obtain ⟨⟨c, thread⟩, hk, rfl⟩ := write_eq_some.mp hw
  have hps := h.main fd ps hbegun c thread hk
  obtain ⟨fs, part, horder, hserving⟩ := h.conns c
  obtain ⟨rfl, gs, part', horder', hgs⟩ := hp _ fs part horder hps
  have hacc := h.accepted fd c thread hk
  have hown : ∀ f q, s.sockets f = some ⟨c, q⟩ → f = fd := fun f q hf => h.unique f fd c q thread hf hk
  have hself := setConn_self s c { s.conns c with stream := (s.conns c).stream ++ [p] }
  refine inv_update h (fun d hd => setConn_ne s _ hd) (fun _ _ => rfl) hown (fun d q hd => ?_)
    (hself.symm ▸ horder') (fun q hq => ?_) (fun hf => ?_) (fun f qs hqs d q hd => ?_)
  · cases Option.some.inj (hk.symm.trans hd)
    exact ⟨rfl, (congrArg Connection.accepted hself).trans hacc⟩
  · exact hself.symm ▸ (hserving fd q hq).opening horder hgs
  · cases (hf.symm.trans (congrArg Connection.accepted hself)).trans hacc
  · obtain hm | hm := hm
    · obtain ⟨rfl, rfl⟩ := Prod.mk.inj (Option.some.inj (hm.symm.trans hqs))
      cases Option.some.inj (hk.symm.trans hd)
      exact (congrArg Connection.stream hself).trans (congrArg (· ++ [p]) hps)
    · cases hm.symm.trans hqs

theorem inv_accept (h : Inv t s) (hnew : (s.conns c).accepted = false) :
    Inv t { (s.setConn c { s.conns c with accepted := true }).setSocket fd (some ⟨c, none⟩) with
      main := .accepted fd } := by
  obtain ⟨fs, part, horder, -⟩ := h.conns c
  have hself := setConn_self s c { s.conns c with accepted := true }
  have hsock := setSocket_self (s.setConn c { s.conns c with accepted := true }) fd (some ⟨c, none⟩)
  have horder' : Orderly t { s.conns c with accepted := true } fs part := { horder with }
  refine inv_update h (fun d hd => setConn_ne s _ hd) (fun f hf => setSocket_ne _ _ hf)
    (fun f q hf => ?_) (fun d q hd => ?_) (hself.symm ▸ horder') (fun q hq => ?_)
    (fun hf => ?_) (fun f qs hqs d q hd => ?_)
  · cases hnew.symm.trans (h.accepted f c q hf)
  · cases Option.some.inj (hsock.symm.trans hd)
    exact ⟨rfl, congrArg Connection.accepted hself⟩
  · cases Option.some.inj (hsock.symm.trans hq)
  · cases hf.symm.trans (congrArg Connection.accepted hself)
  · obtain ⟨rfl, rfl⟩ := Prod.mk.inj (Option.some.inj hqs)
    cases Option.some.inj (hsock.symm.trans hd)
    exact (congrArg Connection.stream hself).trans (h.fresh c hnew)

theorem inv_create (h : Inv t s) {k : Socket} (hm : s.main = .accepted fd)
    (hk : s.sockets fd = some k) :
    Inv t { s.setSocket fd (some { k with thread := some .receiving }) with
      main := .ready false fd } := by
  obtain ⟨c, thread⟩ := k
  have hbegun : s.main.begun = some (fd, []) := by
    rw [hm]
    rfl
  have hstream := h.main fd [] hbegun c thread hk
  have hacc := h.accepted fd c thread hk
  obtain ⟨fs, part, horder, -⟩ := h.conns c
  obtain ⟨rfl, rfl⟩ := written_eq_nil (horder.stream.symm.trans hstream)
  have hreq := horder.requests_nil
  have hto : (s.conns c).toServer = (s.conns c).requests.drop 0 := by
    rw [horder.unsent hreq, hreq, List.drop_nil]
  have hsock := setSocket_self s fd (some ⟨c, some .receiving⟩)
  refine inv_update h (fun _ _ => rfl) (fun f hf => setSocket_ne s _ hf)
    (fun f q hf => h.unique f fd c q thread hf hk) (fun d q hd => ?_) horder (fun q hq => ?_)
    (fun hf => ?_) (fun f qs hqs d q hd => ?_)
  · cases Option.some.inj (hsock.symm.trans hd)
    exact ⟨rfl, hacc⟩
  · cases Option.some.inj (hsock.symm.trans hq)
    exact ⟨hto, .inl rfl⟩
  · cases hf.symm.trans hacc
  · obtain ⟨rfl, rfl⟩ := Prod.mk.inj (Option.some.inj hqs)
    cases Option.some.inj (hsock.symm.trans hd)
    exact hstream

theorem inv_stepMain (h : Inv t s) (hs : stepMain s a = some s') : Inv t s' := by
  cases a with
  | accept c f =>
    obtain ⟨⟨-, -, hnew, -⟩, hs⟩ := Option.ite_none_right_eq_some.mp hs
    obtain rfl := Option.some.inj hs
    exact inv_accept h hnew
  | refuse =>
    simp only [stepMain] at hs
    split at hs
    next f hm =>
      obtain rfl := Option.some.inj hs
      exact inv_move h (.inl (by rw [hm]; rfl))
    next => cases hs
  | create =>
    simp only [stepMain] at hs
    split at hs
    next f hm =>
      obtain ⟨k, hk, rfl⟩ := Option.map_eq_some_iff.mp hs
      exact inv_create h hm hk
    next => cases hs
  | send written =>
    have hbegun : ∀ {m : Main}, s.main = m → s.main.begun = m.begun := fun hm => by rw [hm]
    simp only [stepMain] at hs
    split at hs
    next f hm =>
      obtain ⟨u, hu, rfl⟩ := Option.map_eq_some_iff.mp hs
      exact inv_write h (hbegun hm) hu (.inl rfl) fun _ _ _ h hc => h.opening (.inl rfl) hc
    next f hm =>
      obtain ⟨u, hu, rfl⟩ := Option.map_eq_some_iff.mp hs
      exact inv_write h (hbegun hm) hu (.inr rfl) fun _ _ _ h hc => h.opened (.inl rfl) hc
    next =>
      obtain rfl := Option.some.inj hs
      exact inv_move h (.inr rfl)
    next f hm =>
      obtain ⟨u, hu, rfl⟩ := Option.map_eq_some_iff.mp hs
      exact inv_write h (hbegun hm) hu (.inl rfl) fun _ _ _ h hc => h.opening (.inr rfl) hc
    next f hm =>
      obtain ⟨u, hu, rfl⟩ := Option.map_eq_some_iff.mp hs
      exact inv_write h (hbegun hm) hu (.inr rfl) fun _ _ _ h hc => h.opened (.inr rfl) hc
    next =>
      obtain rfl := Option.some.inj hs
      exact inv_move h (.inr rfl)
    next => cases hs
  | close =>
    simp only [stepMain] at hs
    split at hs
    next f hm =>
      obtain rfl := Option.some.inj hs
      exact inv_close h (.inr rfl)
    next => cases hs
  | _ => cases hs

theorem inv_step (h : Inv t s) (hs : step t s a = some s') : Inv t s' := by
  cases a with
  | connect c | read c | fail c | request c msg | drop c =>
    obtain ⟨conn, hc, rfl⟩ := Option.map_eq_some_iff.mp hs
    exact inv_client h (kept_step hc)
  | accept c f | refuse | create | send written | close =>
    simp only [step] at hs
    exact inv_stepMain h hs
  | receive f | hangup f | answer f next resp | reply f written | leave f =>
    simp only [step] at hs
    split at hs
    next c place hk => exact inv_stepThread h hk hs
    next => cases hs

end Steps

/-- What the invariant says about a connection is what the protocol promises. -/
theorem Orderly.inSession {t : AnoAtual} {c : Connection} {fs : List Frame} {part : Option Frame}
    (h : Orderly t c fs part) : InSession t c := by
  have hgot : ∀ k f, c.got[k]? = some f → ∃ g, f = some g ∧ fs[k]? = some g := fun k f hf => by
    rw [h.got, List.getElem?_map] at hf
    obtain ⟨g, hg, rfl⟩ := Option.map_eq_some_iff.mp hf
    refine ⟨g, rfl, ?_⟩
    rw [List.getElem?_take] at hg
    exact (Option.ite_none_right_eq_some.mp hg).2
  refine ⟨fun f hf => ?_, fun pre p post hstream hp => ?_, fun hfirst k f hf => ?_⟩
  · obtain ⟨g, rfl, hg⟩ := hgot 0 f (List.head?_eq_getElem? ▸ hf)
    cases h.talk with
    | silent | busyBegun | readyBegun => cases hg
    | busy => exact .inr (congrArg some (Option.some.inj hg.symm))
    | ready => exact .inl (congrArg some (Option.some.inj hg.symm))
  · obtain ⟨r, m, hp⟩ := hp
    rw [h.stream] at hstream
    have hmem : p ∈ written fs part := by
      rw [hstream]
      exact List.mem_append_right pre List.mem_cons_self
    have hframe := frame_mem_of_written hmem
    rw [hp] at hframe
    cases h.talk with
    | silent | busyBegun | busy | readyBegun => simp at hframe
    | ready => exact body_mem_of_written hstream (by rw [hp]; exact nofun)
  · obtain ⟨g, rfl, hg⟩ := hgot (k + 1) f hf
    obtain ⟨f₀, hf₀, hg₀⟩ := hgot 0 _ (List.head?_eq_getElem? ▸ hfirst)
    obtain rfl := Option.some.inj hf₀
    refine ⟨g, rfl, ?_⟩
    cases h.talk with
    | silent | busyBegun | readyBegun => cases hg
    | busy => cases hg
    | ready hrs _ => exact hrs k g hg

/-- In every state that a run reaches, every connection is in session. -/
theorem in_session (t : AnoAtual) (list : ListT) (as : List Act) (s : State)
    (h : run (step t) (.start list) as = some s) (c : Nat) : InSession t (s.conns c) := by
  have hinv : Inv t s := run_invariant_of_step (step t) (fun _ _ _ => inv_step) (inv_start list) h
  obtain ⟨fs, part, horder, -⟩ := hinv.conns c
  exact horder.inSession

def sizeSession : List Act :=
  [.connect 0, .accept 0 4, .create, .send true, .send true, .read 0,
    .request 0 { MessageT.init with opcode := opSize, cType := ctNone }, .receive 4,
    .answer 4 false none, .reply 4 true, .reply 4 true, .read 0]

theorem in_session_size : ∃ s, run (step (.same 2026)) (.start listCreate) sizeSession = some s ∧
    (s.conns 0).got.length = 2 ∧ InSession (.same 2026) (s.conns 0) :=
  ⟨_, rfl, rfl, in_session (.same 2026) listCreate sizeSession _ rfl 0⟩

end ListServer.Session
