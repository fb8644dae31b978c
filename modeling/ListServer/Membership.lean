import ListServer.ChainOrder
import ListServer.Forwarding
import ListServer.Lib.Refinement
import ListServer.OrderIndependence
import ListServer.StateTransfer

namespace ListServer.Membership

open Lib.CTypes Lib.Refinement CarData CarList Message Skeleton ClientThread
open ChainServer ListServer.Topology ChainOrder ListTransfer StateTransfer OrderIndependence
open PackedSize (networkSend)

/-- A server between two requests: the name of its child of `/chain`, what it has
registered there, the address that `rl_next_server` is connected to, and its list. -/
structure Server where
  name : CString
  data : CString
  next : Option CString
  list : ListT
deriving DecidableEq

def Server.addr (s : Server) : CString := address s.data

/-- The children that read as `node-%d` are those of the servers, in any order. -/
def Shows (children : List CString) (servers : List Server) : Prop :=
  (parsed children).Perm (servers.map Server.name)

instance (children : List CString) (servers : List Server) : Decidable (Shows children servers) :=
  inferInstanceAs (Decidable (List.Perm _ _))

def named (servers : List Server) (name : CString) : Option Server :=
  servers.find? fun s => decide (s.name = name)

def serverAt (servers : List Server) (addr : CString) : Option Server :=
  servers.find? fun s => decide (s.addr = addr)

def zooGet (servers : List Server) (path : CString) : Option CString :=
  (servers.find? fun s => decide (nodePath s.name = path)).map Server.data

def setList (servers : List Server) (name : CString) (list : ListT) : List Server :=
  servers.map fun s => if s.name = name then { s with list := list } else s

/-- What an `update` finds: the children that it is called with, and whether its
`zoo_get` and its `rlist_connect` succeed. -/
structure Watched where
  children : List CString
  zooGet : Bool
  rlistConnect : Bool
deriving DecidableEq

def Watched.Works (w : Watched) : Prop := w.zooGet = true ∧ w.rlistConnect = true

instance : DecidablePred Watched.Works := fun w =>
  inferInstanceAs (Decidable (w.zooGet = true ∧ w.rlistConnect = true))

/-- The child watcher of every server has called `update`. -/
def refresh (views : CString → Watched) (servers : List Server) : List Server :=
  servers.map fun s => { s with
    next := update (ownNumber 0 (nodePath s.name)) (views s.name).children
      (fun path => if (views s.name).zooGet then zooGet servers path else none)
      (fun _ => (views s.name).rlistConnect) s.next }

/-- What the other end gets of a message that `network_send` is to send. -/
def sent (msg : MessageT) : Option MessageT := if networkSend msg = 0 then some msg else none

/-- A request that is forwarded, at the given server; `links` says what becomes
of the exchange of a server with the next one. The result is the reply before it
is sent; `none` if the chain is longer than the given bound. -/
def clientThread (t : AnoAtual) (links : CString → Forwarding.Exchange) (msg : MessageT)
    (servers : List Server) : Nat → Server → Option (MessageT × List Server)
  | 0, _ => none
  | k + 1, s =>
    let finish (fwdRc : Int) (servers : List Server) : MessageT × List Server :=
      let (reply, list) := afterForward t fwdRc msg s.list
      (reply, setList servers s.name list)
    match s.next with
    | none => some (finish (zooForwardToSuccessor false none) servers)
    | some addr =>
      match serverAt servers addr, links s.name with
      | none, _ | some _, .lost => some (finish (zooForwardToSuccessor true none) servers)
      | some u, .ok => (clientThread t links msg servers k u).map fun p =>
        finish (zooForwardToSuccessor true (sent p.1)) p.2
      | some u, .replyLost => (clientThread t links msg servers k u).map fun p =>
        finish (zooForwardToSuccessor true none) p.2

/-- `init_list` of a new server: its return code, the new list, and the servers
with the list of the predecessor as the request has left it. -/
def initialise (t : AnoAtual) (calls : Calls) (name : CString) (children : List CString)
    (servers : List Server) : Int × ListT × List Server :=
  let maximum := ownNumber 0 (nodePath name)
  match (initListPrev maximum children).bind (named servers) with
  | none => ((initList t calls maximum children listCreate listCreate).1,
      (initList t calls maximum children listCreate listCreate).2.1, servers)
  | some pred => ((initList t calls maximum children pred.list listCreate).1,
      (initList t calls maximum children pred.list listCreate).2.1,
      setList servers pred.name (initList t calls maximum children pred.list listCreate).2.2)

/-- The name that ZooKeeper gives to a new child has a higher number than all
others, and nobody else has registered its address. -/
def Fresh (servers : List Server) (name data : CString) : Prop :=
  (nodeNumber name).isSome = true ∧ 0 ≤ number name ∧ number name < 2147483647 ∧
    ∀ s ∈ servers, number s.name < number name ∧ s.addr ≠ address data

instance (servers : List Server) (name data : CString) : Decidable (Fresh servers name data) :=
  inferInstanceAs (Decidable (_ ∧ _ ∧ _ ∧ _))

/-- Events that come one after the other: a server starts, a server crashes, a
client that knows the children sends a request. The message is the one that the
server unpacks. -/
inductive Event
  | join (name data : CString) (views : CString → Watched) (calls : Calls)
  | crash (name : CString) (views : CString → Watched)
  | request (msg : MessageT) (children : List CString) (links : CString → Forwarding.Exchange)

def settled (views : CString → Watched) (servers : List Server) : Option (List Server) :=
  if ∀ s ∈ servers, Shows (views s.name).children servers then some (refresh views servers)
  else none

/-- A server that cannot fetch the list exits. A crash leaves somebody. A reply
that `network_send` refuses is none. -/
def step (t : AnoAtual) (servers : List Server) :
    Event → Option (List Server × Option (MessageT × MessageT))
  | .join name data views calls =>
    if Fresh servers name data ∧
        Shows (views name).children (servers ++ [⟨name, data, none, listCreate⟩]) then
      let (rc, list, old) := initialise t calls name (views name).children servers
      let servers := if rc < 0 then old else old ++ [⟨name, data, none, list⟩]
      (settled views servers).map fun s => (s, none)
    else none
  | .crash name views =>
    let rest := servers.filter fun s => decide (s.name ≠ name)
    if rest = [] then none else (settled views rest).map fun s => (s, none)
  | .request msg children links =>
    if Shows children servers then
      if needsForward msg then
        ((clientHead children).bind (named servers)).bind fun s =>
          (clientThread t links msg servers servers.length s).map fun p =>
            (p.2, (sent p.1).map fun m => (msg, m))
      else
        ((clientTail children).bind (named servers)).map fun s =>
          let (reply, list) := serve t msg s.list
          (setList servers s.name list, (sent reply).map fun m => (msg, m))
    else none

/-- The updates reach ZooKeeper and the server they pick, a new server may fail to
start but does not take an empty list for a full one, no exchange fails, and
the replies to a request fit a frame. -/
def Works (t : AnoAtual) (servers : List Server) : Event → Prop
  | .join name _ views calls =>
    (views name).Works ∧ calls.allocation.converted = true ∧ ∀ s ∈ servers,
      (views s.name).Works ∧ ∀ i < s.list.head.length, calls.allocation.modelo i = true
  | .crash _ views => ∀ s ∈ servers, (views s.name).Works
  | .request msg _ links => ∀ s ∈ servers,
    links s.name = .ok ∧ networkSend (reply t msg s.list) = 0

instance (t : AnoAtual) (servers : List Server) : DecidablePred (Works t servers)
  | .join name _ views calls => inferInstanceAs (Decidable ((views name).Works ∧
      calls.allocation.converted = true ∧ ∀ s ∈ servers,
        (views s.name).Works ∧ ∀ i < s.list.head.length, calls.allocation.modelo i = true))
  | .crash _ views => inferInstanceAs (Decidable (∀ s ∈ servers, (views s.name).Works))
  | .request msg _ links => inferInstanceAs (Decidable (∀ s ∈ servers,
      links s.name = .ok ∧ networkSend (reply t msg s.list) = 0))

def Server.entry (s : Server) : CString × CString := (s.name, s.data)

/-- The children of `/chain` in the order of their numbers, with distinct addresses. -/
structure Placed (entries : List (CString × CString)) : Prop where
  sorted : entries.Pairwise fun e f => number e.1 < number f.1
  numbered : ∀ e ∈ entries,
    (nodeNumber e.1).isSome = true ∧ 0 ≤ number e.1 ∧ number e.1 < 2147483647
  addrs : (entries.map fun e => address e.2).Nodup

def Linked : List Server → Prop
  | [] => True
  | s :: rest => s.next = rest.head?.map Server.addr ∧ Linked rest

/-- The servers stand for one list. -/
structure Line (ano : Int) (servers : List Server) (list : ListT) : Prop where
  placed : Placed (servers.map Server.entry)
  linked : Linked servers
  lists : ∀ s ∈ servers, WellFormed ano s.list ∧ SameModels s.list list
  first : servers = [] → list = listCreate

variable {ano : Int} {servers front rest : List Server} {list : ListT} {s u : Server}

section Lookup

theorem find_of_nodup {f : Server → CString} (hnodup : (servers.map f).Nodup) (hs : s ∈ servers) :
    servers.find? (fun u => decide (f u = f s)) = some s := by
  induction servers with
  | nil => exact absurd hs List.not_mem_nil
  | cons u rest ih =>
    rw [List.map_cons, List.nodup_cons] at hnodup
    obtain rfl | hs := List.mem_cons.mp hs
    · exact List.find?_cons_of_pos (decide_eq_true rfl)
    · have hne : f u ≠ f s := fun he => hnodup.1 (he ▸ List.mem_map_of_mem hs)
      rw [List.find?_cons_of_neg (by simpa using hne)]
      exact ih hnodup.2 hs

theorem nodePath_injective : Function.Injective nodePath := by
  intro name name' h
  have hbytes := List.append_cancel_left (congrArg CString.bytes h)
  exact CString.ext hbytes

theorem Placed.numbers (h : Placed (servers.map Server.entry)) :
    servers.Pairwise fun s u => number s.name < number u.name := by
  have hsorted := h.sorted
  rwa [List.pairwise_map] at hsorted

theorem Placed.names (h : Placed (servers.map Server.entry)) : (servers.map Server.name).Nodup := by
  refine List.pairwise_map.mpr (h.numbers.imp fun hlt he => ?_)
  rw [he] at hlt
  exact lt_irrefl _ hlt

theorem Placed.addresses (h : Placed (servers.map Server.entry)) :
    (servers.map Server.addr).Nodup := by
  have haddrs := h.addrs
  rwa [List.map_map] at haddrs

theorem Placed.named (h : Placed (servers.map Server.entry)) (hs : s ∈ servers) :
    named servers s.name = some s := find_of_nodup h.names hs

theorem Placed.serverAt (h : Placed (servers.map Server.entry)) (hs : s ∈ servers) :
    serverAt servers s.addr = some s := find_of_nodup h.addresses hs

theorem Placed.zooGet (h : Placed (servers.map Server.entry)) (hs : s ∈ servers) :
    zooGet servers (nodePath s.name) = some s.data := by
  have hnodup : (servers.map fun s => nodePath s.name).Nodup := by
    have hpaths := h.names.map nodePath_injective
    rwa [List.map_map] at hpaths
  rw [Membership.zooGet, find_of_nodup (f := fun s => nodePath s.name) hnodup hs]
  rfl

end Lookup

section Refresh

variable {children : List CString}

theorem numbered_of_shows (h : Placed (servers.map Server.entry)) (hshows : Shows children servers)
    (hne : servers ≠ []) : Numbered children := by
  have hmem : ∀ name ∈ parsed children, ∃ s ∈ servers, s.name = name := fun name hname =>
    List.mem_map.mp (hshows.mem_iff.mp hname)
  refine ⟨?_, fun name hname => ?_, fun hnil => ?_⟩
  · have hnumbers : ((servers.map Server.name).map number).Nodup := by
      rw [List.map_map]
      exact List.pairwise_map.mpr (h.numbers.imp fun hlt => hlt.ne)
    exact (hshows.map number).nodup_iff.mpr hnumbers
  · obtain ⟨s, hs, rfl⟩ := hmem name hname
    exact (h.numbered s.entry (List.mem_map_of_mem hs)).2
  · have hlen := hshows.length_eq
    rw [hnil, List.length_map] at hlen
    exact hne (List.length_eq_zero_iff.mp hlen.symm)

theorem ordered_of_shows (h : Placed (servers.map Server.entry)) (hshows : Shows children servers) :
    Ordered children (servers.map Server.name) :=
  ⟨hshows.symm, List.pairwise_map.mpr h.numbers⟩

theorem update_eq {w : Watched} (h : Placed ((front ++ s :: rest).map Server.entry))
    (hshows : Shows w.children (front ++ s :: rest)) (hworks : w.Works) (next : Option CString) :
    update (ownNumber 0 (nodePath s.name)) w.children
      (fun path => if w.zooGet then zooGet (front ++ s :: rest) path else none)
      (fun _ => w.rlistConnect) next = rest.head?.map Server.addr := by
  obtain ⟨children, found, connected⟩ := w
  obtain rfl : found = true := hworks.1
  obtain rfl : connected = true := hworks.2
  simp only [if_true]
  have hpos : children.length ≠ 0 := fun hlen => by
    have hnil := List.length_eq_zero_iff.mp hlen
    have hlen' := hshows.length_eq
    rw [hnil] at hlen'
    simp [parsed] at hlen'
  have hordered := ordered_of_shows h hshows
  rw [List.map_append, List.map_cons] at hordered
  have hnext : updateNext (ownNumber 0 (nodePath s.name)) children =
      (rest.map Server.name).head? :=
    succ_ordered (numbered_of_shows h hshows (by simp)) hordered
  rw [update, if_neg hpos, hnext]
  cases rest with
  | nil => rfl
  | cons u rest =>
    rw [List.map_cons, List.head?_cons]
    dsimp only
    rw [h.zooGet (s := u) (by simp)]
    rfl

theorem linked_of_forall (h : ∀ front s rest, servers = front ++ s :: rest →
    s.next = rest.head?.map Server.addr) : Linked servers := by
  induction servers with
  | nil => trivial
  | cons s servers ih =>
    exact ⟨h [] s servers rfl, ih fun front u rest he => h (s :: front) u rest (by rw [he]; rfl)⟩

theorem refresh_entry (views : CString → Watched) (servers : List Server) :
    (refresh views servers).map Server.entry = servers.map Server.entry := List.map_map ..

theorem refresh_linked {views : CString → Watched} (h : Placed (servers.map Server.entry))
    (hshows : ∀ s ∈ servers, Shows (views s.name).children servers)
    (hworks : ∀ s ∈ servers, (views s.name).Works) : Linked (refresh views servers) := by
  refine linked_of_forall fun front s rest he => ?_
  obtain ⟨front', back, rfl, rfl, hback⟩ := List.map_eq_append_iff.mp he
  obtain ⟨u, rest', rfl, rfl, rfl⟩ := List.map_eq_cons_iff.mp hback
  dsimp only
  rw [update_eq h (hshows u (by simp)) (hworks u (by simp))]
  cases rest' <;> rfl

end Refresh

section Request

variable {t : AnoAtual} {msg : MessageT} {children : List CString}
  {links : CString → Forwarding.Exchange}

def execute (t : AnoAtual) (msg : MessageT) (s : Server) : Server :=
  { s with list := after t msg s.list }

theorem setList_eq (h : ((front ++ s :: rest).map Server.name).Nodup) (list : ListT) :
    setList (front ++ s :: rest) s.name list = front ++ { s with list := list } :: rest := by
  rw [List.map_append, List.map_cons, List.nodup_append] at h
  obtain ⟨-, hs, hdisjoint⟩ := h
  have hkeep : ∀ l : List Server, (∀ u ∈ l, u.name ≠ s.name) →
      (l.map fun u => if u.name = s.name then { u with list := list } else u) = l := fun l hl => by
    rw [List.map_congr_left fun u hu => if_neg (hl u hu), List.map_id']
  rw [setList, List.map_append, List.map_cons, if_pos rfl,
    hkeep front fun u hu => hdisjoint u.name (List.mem_map_of_mem hu) s.name List.mem_cons_self,
    hkeep rest fun u hu he => (List.nodup_cons.mp hs).1 (he ▸ List.mem_map_of_mem hu)]

theorem setList_entry (servers : List Server) (name : CString) (list : ListT) :
    (setList servers name list).map Server.entry = servers.map Server.entry := by
  rw [setList, List.map_map]
  refine List.map_congr_left fun s _ => ?_
  rw [Function.comp_apply]
  split <;> rfl

theorem linked_map {f : Server → Server} (hf : ∀ s, (f s).next = s.next ∧ (f s).addr = s.addr)
    (h : Linked servers) : Linked (servers.map f) := by
  induction servers with
  | nil => trivial
  | cons s rest ih =>
    refine ⟨?_, ih h.2⟩
    rw [(hf s).1, h.1]
    cases rest with
    | nil => rfl
    | cons u rest => exact congrArg some (hf u).2.symm

theorem sent_eq {m : MessageT} (h : networkSend m = 0) : sent m = some m := if_pos h

/-- A request is executed by all servers from the one on that gets it. -/
theorem clientThread_eq {links : CString → Forwarding.Exchange} {k : Nat}
    (h : Placed ((front ++ s :: rest).map Server.entry)) (hlinked : Linked (s :: rest))
    (hworks : ∀ v ∈ s :: rest, links v.name = .ok ∧ networkSend (reply t msg v.list) = 0)
    (hk : rest.length < k) :
    clientThread t links msg (front ++ s :: rest) k s =
      some (reply t msg s.list, front ++ (s :: rest).map (execute t msg)) := by
  induction rest generalizing front s k with
  | nil =>
    obtain ⟨k, rfl⟩ := Nat.exists_eq_succ_of_ne_zero (by omega : k ≠ 0)
    have hnext : s.next = none := hlinked.1
    rw [clientThread, hnext]
    exact congrArg (fun l => some (reply t msg s.list, l)) (setList_eq h.names _)
  | cons u rest ih =>
    obtain ⟨k, rfl⟩ := Nat.exists_eq_succ_of_ne_zero (by omega : k ≠ 0)
    have hnext : s.next = some u.addr := hlinked.1
    have happ : front ++ s :: u :: rest = (front ++ [s]) ++ u :: rest := by simp
    have hrest : clientThread t links msg ((front ++ [s]) ++ u :: rest) k u =
        some (reply t msg u.list, (front ++ [s]) ++ (u :: rest).map (execute t msg)) :=
      ih (by rwa [← happ]) hlinked.2 (fun v hv => hworks v (List.mem_cons_of_mem s hv))
        (Nat.lt_of_succ_lt_succ hk)
    rw [← happ] at hrest
    have hnames : ((front ++ s :: (u :: rest).map (execute t msg)).map Server.name).Nodup := by
      have hnames := h.names
      rw [List.map_append, List.map_cons] at hnames ⊢
      rw [List.map_map]
      exact hnames
    have hlink : links s.name = .ok := (hworks s List.mem_cons_self).1
    have hsent := sent_eq (hworks u (by simp)).2
    rw [clientThread, hnext]
    simp only [h.serverAt (s := u) (by simp), hlink, hrest, Option.map_some, hsent]
    rw [List.append_assoc, List.singleton_append, setList_eq hnames]
    rfl

/-- A request to the first server leaves a line that stands for what it makes of
the list. -/
theorem line_write (h : Line ano servers list) (hne : servers ≠ [])
    (hshows : Shows children servers) (hwrite : needsForward msg = true)
    (hworks : Works (.same ano) servers (.request msg children links)) :
    ∃ m, step (.same ano) servers (.request msg children links) =
        some (servers.map (execute (.same ano) msg), some (msg, m)) ∧
      Agree ⟨.same ano, msg⟩ m (reply (.same ano) msg list) ∧
      Line ano (servers.map (execute (.same ano) msg)) (after (.same ano) msg list) := by
  have hnumbered := numbered_of_shows h.placed hshows hne
  have hordered := ordered_of_shows h.placed hshows
  obtain ⟨s, rest, rfl⟩ := List.exists_cons_of_ne_nil hne
  have hthread : clientThread (.same ano) links msg ([] ++ s :: rest) (rest.length + 1) s =
      some (reply (.same ano) msg s.list, [] ++ (s :: rest).map (execute (.same ano) msg)) :=
    clientThread_eq h.placed h.linked hworks (Nat.lt_succ_self rest.length)
  have hsent := sent_eq (hworks s List.mem_cons_self).2
  have hs := h.lists s List.mem_cons_self
  refine ⟨reply (.same ano) msg s.list, ?_, agree_reply ⟨.same ano, msg⟩ hs.2, ?_, ?_, ?_, ?_⟩
  · rw [step, if_pos hshows, if_pos hwrite, clientHead_ordered hnumbered hordered, Option.bind_some,
      h.placed.named List.mem_cons_self, Option.bind_some]
    refine (congrArg (Option.map _) hthread).trans ?_
    rw [Option.map_some, hsent]
    rfl
  · rw [List.map_map]
    exact h.placed
  · exact linked_map (fun _ => ⟨rfl, rfl⟩) h.linked
  · intro u hu
    obtain ⟨v, hv, rfl⟩ := List.mem_map.mp hu
    have hlists := h.lists v hv
    exact ⟨wellFormed_after hlists.1 msg, sameModels_after (.same ano) msg hlists.2⟩
  · exact fun hnil => absurd hnil (by simp)

theorem line_read (h : Line ano servers list) (hne : servers ≠ [])
    (hshows : Shows children servers) (hread : needsForward msg = false)
    (hworks : Works (.same ano) servers (.request msg children links)) :
    ∃ m servers',
      step (.same ano) servers (.request msg children links) = some (servers', some (msg, m)) ∧
      Agree ⟨.same ano, msg⟩ m (reply (.same ano) msg list) ∧
      Line ano servers' (after (.same ano) msg list) := by
  have hnumbered := numbered_of_shows h.placed hshows hne
  have hordered := ordered_of_shows h.placed hshows
  obtain ⟨front, s, rfl⟩ := (List.eq_nil_or_concat' servers).resolve_left hne
  rw [List.map_append] at hordered
  have hs := h.lists s (by simp)
  refine ⟨reply (.same ano) msg s.list,
    setList (front ++ [s]) s.name (after (.same ano) msg s.list), ?_,
    agree_reply ⟨.same ano, msg⟩ hs.2, ?_, ?_, ?_, ?_⟩
  · rw [step, if_pos hshows, if_neg (by simp [hread]), clientTail_ordered hnumbered hordered,
      Option.bind_some, h.placed.named (s := s) (by simp), Option.map_some]
    refine congrArg (fun m => some (_, m)) ?_
    exact congrArg (Option.map _) (sent_eq (hworks s (by simp)).2)
  · rw [setList_entry]
    exact h.placed
  · refine linked_map (fun u => ?_) h.linked
    split <;> exact ⟨rfl, rfl⟩
  · rw [setList_eq h.placed.names]
    intro u hu
    obtain hu | hu := List.mem_append.mp hu
    · have hlists := h.lists u (by simp [hu])
      have hread := sameModels_read (not_add hread) (not_del hread) (.same ano) list
      exact ⟨hlists.1, SameModels.trans hlists.2 (SameModels.symm hread)⟩
    · rw [List.mem_singleton.mp hu]
      exact ⟨wellFormed_after hs.1 msg, sameModels_after (.same ano) msg hs.2⟩
  · rw [setList_eq h.placed.names]
    exact fun hnil => absurd hnil (by simp)

end Request

section Change

variable {views : CString → Watched} {servers' : List Server}

theorem line_settled (hplaced : Placed (servers.map Server.entry))
    (hlists : ∀ s ∈ servers, WellFormed ano s.list ∧ SameModels s.list list)
    (hworks : ∀ s ∈ servers, (views s.name).Works)
    (hfirst : servers = [] → list = listCreate) (h : settled views servers = some servers') :
    Line ano servers' list := by
  obtain ⟨hshows, hsome⟩ := Option.ite_none_right_eq_some.mp h
  obtain rfl := Option.some.inj hsome
  refine ⟨?_, refresh_linked hplaced hshows hworks, fun s hs => ?_, fun hnil => ?_⟩
  · rw [refresh_entry]
    exact hplaced
  · obtain ⟨u, hu, rfl⟩ := List.mem_map.mp hs
    exact hlists u hu
  · exact hfirst (List.map_eq_nil_iff.mp hnil)

theorem line_crash (h : Line ano servers list) {name : CString} {out : Option (MessageT × MessageT)}
    (hworks : Works (.same ano) servers (.crash name views))
    (hs : step (.same ano) servers (.crash name views) = some (servers', out)) :
    out = none ∧ Line ano servers' list := by
  obtain ⟨hne, hs⟩ := Option.ite_none_left_eq_some.mp hs
  obtain ⟨s, hsettled, hpair⟩ := Option.map_eq_some_iff.mp hs
  obtain ⟨rfl, rfl⟩ := Prod.mk.inj hpair
  have hsub := (List.filter_sublist (p := fun s : Server => decide (s.name ≠ name))
    (l := servers)).map Server.entry
  refine ⟨rfl, line_settled ⟨h.placed.sorted.sublist hsub,
    fun e he => h.placed.numbered e (hsub.subset he), h.placed.addrs.sublist (hsub.map _)⟩
    (fun s hs => h.lists s (List.mem_of_mem_filter hs))
    (fun s hs => hworks s (List.mem_of_mem_filter hs)) (fun hnil => absurd hnil hne) hsettled⟩

theorem placed_fresh (h : Placed (servers.map Server.entry)) {name data : CString}
    (hfresh : Fresh servers name data) (next : Option CString) (l : ListT) :
    Placed ((servers ++ [Server.mk name data next l]).map Server.entry) := by
  obtain ⟨hnumber, hmin, hmax, hless⟩ := hfresh
  rw [List.map_append]
  refine ⟨?_, fun e he => ?_, ?_⟩
  · rw [List.pairwise_append]
    refine ⟨h.sorted, List.pairwise_singleton _ _, fun e he f hf => ?_⟩
    obtain ⟨s, hs, rfl⟩ := List.mem_map.mp he
    rw [List.mem_singleton.mp hf]
    exact (hless s hs).1
  · obtain he | he := List.mem_append.mp he
    · exact h.numbered e he
    · rw [List.mem_singleton.mp he]
      exact ⟨hnumber, hmin, hmax⟩
  · rw [List.map_append, List.nodup_append]
    refine ⟨h.addrs, List.nodup_singleton _, fun a ha b hb => ?_⟩
    obtain ⟨e, he, rfl⟩ := List.mem_map.mp ha
    obtain ⟨s, hs, rfl⟩ := List.mem_map.mp he
    rw [List.mem_singleton.mp hb]
    exact (hless s hs).2

/-- What is fetched is the predecessor's list as it stands then, as it arrives. -/
theorem initList_fetched {calls : Calls} {maximum : Int} {children : List CString} {l : ListT}
    {node : CString} (h : WellFormed ano l) (hprev : initListPrev maximum children = some node)
    {r : Int × ListT × ListT}
    (hr : initList (.same ano) calls maximum children l listCreate = r) :
    (r.2.2 = l ∨ r.2.2 = listOrderByYear l) ∧
      (¬ r.1 < 0 → r.2.1 = transferred calls.allocation (listOrderByYear l)) := by
  have hfail : (-1 : Int) < 0 := by decide
  have hsame : (-1, listCreate, l) = r → (r.2.2 = l ∨ r.2.2 = listOrderByYear l) ∧
      (¬ r.1 < 0 → r.2.1 = transferred calls.allocation (listOrderByYear l)) := by
    rintro rfl
    exact ⟨.inl rfl, fun hneg => absurd hfail hneg⟩
  simp only [initList, hprev] at hr
  cases hget : calls.zooGet (nodePath node) with
  | none =>
    rw [hget] at hr
    exact hsame hr
  | some data =>
    simp only [hget] at hr
    cases hconn : calls.rlistConnect (address data) with
    | false =>
      rw [hconn] at hr
      exact hsame hr
    | true =>
      simp only [hconn, Bool.not_true, Bool.false_eq_true, if_false] at hr
      have hpred := run_list calls.exchange calls.allocation l
      obtain ⟨⟨rc, list⟩, hadd⟩ : ∃ r, rlistGetListAdd calls.room (.same ano)
        (calls.exchange.run calls.allocation l).1 listCreate = r := ⟨_, rfl⟩
      rw [hadd] at hr
      dsimp only at hr
      split at hr
      · obtain rfl := hr
        exact ⟨hpred, fun hneg => absurd hfail hneg⟩
      · next hrc =>
        split at hr
        · obtain rfl := hr
          exact ⟨hpred, fun hneg => absurd hfail hneg⟩
        · obtain rfl := hr
          exact ⟨hpred, fun _ => (fetched h hrc hadd).2⟩

theorem listOrderByYear_models (l : ListT) : SameModels (listOrderByYear l) l := by
  have hread : needsForward rlistGetListAddRequest = false := rfl
  exact sameModels_read (not_add hread) (not_del hread) (.same 0) l

/-- Fetching the list changes no models, and a server that has fetched it has
the same. -/
theorem line_initialise (h : Line ano servers list) {calls : Calls} {name data : CString}
    {children : List CString} (hfresh : Fresh servers name data)
    (hshows : Shows children (servers ++ [⟨name, data, none, listCreate⟩]))
    (hconverted : calls.allocation.converted = true)
    (hmodelos : ∀ s ∈ servers, ∀ i < s.list.head.length, calls.allocation.modelo i = true)
    {r : Int × ListT × List Server}
    (hr : initialise (.same ano) calls name children servers = r) :
    r.2.2.map Server.entry = servers.map Server.entry ∧
      (∀ s ∈ r.2.2, WellFormed ano s.list ∧ SameModels s.list list) ∧
      (¬ r.1 < 0 → WellFormed ano r.2.1 ∧ SameModels r.2.1 list) := by
  have hplaced := placed_fresh h.placed hfresh none listCreate
  have hordered := ordered_of_shows hplaced hshows
  rw [List.map_append] at hordered
  have hprev : initListPrev (ownNumber 0 (nodePath name)) children =
      (servers.map Server.name).getLast? :=
    pred_ordered (numbered_of_shows hplaced hshows (by simp)) hordered
  obtain rfl | ⟨front, u, rfl⟩ := List.eq_nil_or_concat' servers
  · obtain rfl := h.first rfl
    have hnone : initListPrev (ownNumber 0 (nodePath name)) children = none := hprev
    simp only [initialise, initList, hnone, Option.bind_none] at hr
    obtain rfl := hr
    exact ⟨rfl, fun s hs => absurd hs List.not_mem_nil, fun _ => ⟨wellFormed_create ano, rfl, rfl⟩⟩
  · rw [List.map_append, List.map_singleton, List.getLast?_concat] at hprev
    have hu := h.lists u (by simp)
    obtain ⟨hpred, hnew⟩ := @initList_fetched _ calls _ _ _ _ hu.1 hprev _ rfl
    simp only [initialise, hprev, Option.bind_some, h.placed.named (s := u) (by simp)] at hr
    obtain rfl := hr
    refine ⟨setList_entry .., fun s hs => ?_, fun hrc => ?_⟩
    · rw [setList_eq h.placed.names] at hs
      obtain hs | hs := List.mem_append.mp hs
      · exact h.lists s (by simp [hs])
      · rw [List.mem_singleton.mp hs]
        obtain hpred | hpred := hpred
        · rw [hpred]
          exact hu
        · rw [hpred]
          exact ⟨wellFormed_order hu.1, SameModels.trans (listOrderByYear_models _) hu.2⟩
    · have hordered := wellFormed_order hu.1
      have hcopied : ∀ i < (listOrderByYear u.list).head.length,
          calls.allocation.modelo i = true := by
        rw [(listOrderByYear_perm u.list).length_eq]
        exact hmodelos u (by simp)
      obtain ⟨hsize, hmodels⟩ := models_transferred hconverted hcopied
      rw [hnew hrc]
      exact ⟨wellFormed_transferred hordered _, SameModels.trans ⟨hsize, hmodels⟩
        (SameModels.trans (listOrderByYear_models _) hu.2)⟩

theorem line_join (h : Line ano servers list) {name data : CString} {calls : Calls}
    {out : Option (MessageT × MessageT)}
    (hworks : Works (.same ano) servers (.join name data views calls))
    (hs : step (.same ano) servers (.join name data views calls) = some (servers', out)) :
    out = none ∧ Line ano servers' list := by
  rw [step] at hs
  obtain ⟨⟨hfresh, hshows⟩, hs⟩ := Option.ite_none_right_eq_some.mp hs
  obtain ⟨hnewWorks, hconverted, hall⟩ := hworks
  obtain ⟨⟨rc, l, old⟩, hinit⟩ :
    ∃ r, initialise (.same ano) calls name (views name).children servers = r := ⟨_, rfl⟩
  obtain ⟨hentries, hlists, hnew⟩ :=
    line_initialise h hfresh hshows hconverted (fun s hs => (hall s hs).2) hinit
  have hold : ∀ s ∈ old, (views s.name).Works := by
    intro s hs
    have hentry := List.mem_map_of_mem (f := Server.entry) hs
    rw [hentries] at hentry
    obtain ⟨u, hu, hsame⟩ := List.mem_map.mp hentry
    rw [← (Prod.mk.inj hsame).1]
    exact (hall u hu).1
  rw [hinit] at hs
  obtain ⟨s, hsettled, hpair⟩ := Option.map_eq_some_iff.mp hs
  obtain ⟨rfl, rfl⟩ := Prod.mk.inj hpair
  have hplaced : Placed (old.map Server.entry) := by
    rw [hentries]
    exact h.placed
  by_cases hrc : rc < 0
  · rw [if_pos hrc] at hsettled
    refine ⟨rfl, line_settled hplaced hlists hold (fun hnil => h.first ?_) hsettled⟩
    rw [hnil] at hentries
    exact List.map_eq_nil_iff.mp hentries.symm
  · rw [if_neg hrc] at hsettled
    refine ⟨rfl, line_settled ?_ (fun s hs => ?_) (fun s hs => ?_)
      (fun hnil => absurd hnil (by simp)) hsettled⟩
    · have hjoined := placed_fresh h.placed hfresh none l
      rw [List.map_append] at hjoined ⊢
      rwa [hentries]
    · obtain hs | hs := List.mem_append.mp hs
      · exact hlists s hs
      · rw [List.mem_singleton.mp hs]
        exact hnew hrc
    · obtain hs | hs := List.mem_append.mp hs
      · exact hold s hs
      · rw [List.mem_singleton.mp hs]
        exact hnewWorks

end Change

def alone (ano : Int) (list : ListT) (msg : MessageT) : MessageT × ListT :=
  serve (.same ano) msg list

theorem line_start (ano : Int) : Line ano [] listCreate :=
  ⟨⟨.nil, fun _ he => absurd he List.not_mem_nil, List.nodup_nil⟩, trivial,
    fun _ hs => absurd hs List.not_mem_nil, fun _ => rfl⟩

theorem line_request (h : Line ano servers list) (hne : servers ≠ []) {msg : MessageT}
    {children : List CString} {links : CString → Forwarding.Exchange}
    (hshows : Shows children servers)
    (hworks : Works (.same ano) servers (.request msg children links)) : ∃ m servers',
      step (.same ano) servers (.request msg children links) = some (servers', some (msg, m)) ∧
        Agree ⟨.same ano, msg⟩ m (reply (.same ano) msg list) ∧
        Line ano servers' (after (.same ano) msg list) := by
  cases hf : needsForward msg with
  | true =>
    obtain ⟨m, hs, hagree, hline⟩ := line_write h hne hshows hf hworks
    exact ⟨m, _, hs, hagree, hline⟩
  | false => exact line_read h hne hshows hf hworks

theorem line_step {e : Event} {p : List Server × Option (MessageT × MessageT)}
    (h : Line ano servers list) (hworks : Works (.same ano) servers e)
    (hs : step (.same ano) servers e = some p) :
    Matches (alone ano) (Line ano) (fun msg => Agree ⟨.same ano, msg⟩) list p := by
  obtain ⟨servers', out⟩ := p
  cases e with
  | join name data views calls =>
    obtain ⟨rfl, hline⟩ := line_join h hworks hs
    exact hline
  | crash name views =>
    obtain ⟨rfl, hline⟩ := line_crash h hworks hs
    exact hline
  | request msg children links =>
    have hif := hs
    rw [step] at hif
    obtain ⟨hshows, hsome⟩ := Option.ite_none_right_eq_some.mp hif
    have hne : servers ≠ [] := by
      rintro rfl
      cases hc : clientHead children <;> cases ht : clientTail children <;>
        simp [hc, ht, named] at hsome
    obtain ⟨m, servers'', hs', hagree, hline⟩ := line_request h hne hshows hworks
    rw [hs] at hs'
    obtain ⟨rfl, rfl⟩ := Prod.mk.inj (Option.some.inj hs')
    exact ⟨hagree, hline⟩

/-- Two servers start, a car is added, and the first of them crashes before a
client asks for the size. -/
def handover : List Event :=
  let node (n : UInt8) : CString := ofBytes (nodeLiteral ++ [n])
  let seen (children : List CString) (_ : CString) : Watched := ⟨children, true, true⟩
  [.join (node 49) (ofBytes [97]) (seen [node 49]) reachable,
    .join (node 50) (ofBytes [98]) (seen [node 50, node 49]) reachable,
    .request (ClientStub.toyotaRequest 2020) [node 50, node 49] fun _ => .ok,
    .crash (node 49) (seen [node 50]),
    .request { MessageT.init with opcode := opSize, cType := ctNone } [node 50] fun _ => .ok]

end ListServer.Membership
