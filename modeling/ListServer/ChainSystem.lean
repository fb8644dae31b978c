import ListServer.ClientThread
import ListServer.Lib.Transition

namespace ListServer.ChainSystem

open CarList Message Skeleton ClientThread

/-- A chain of servers, numbered from the head on, and the number of requests
that clients have sent so far. -/
structure Chain where
  srv : Nat → Server
  count : Nat

def Chain.set (s : Chain) (i : Nat) (u : Server) : Chain :=
  { s with srv := fun j => if j = i then u else s.srv j }

def Chain.start (n : Nat) (list : ListT) : Chain :=
  ⟨fun i => Server.start list (decide (i + 1 < n)), 0⟩

inductive Label
  | send (i c : Nat) (r : Request)
  | own (i : Nat) (a : Act)
  | forward (i : Nat) (c : Conn)
  | back (i : Nat) (c : Conn)
  | invoke (i : Nat) (c : Conn) (r : Request)
  | answer (i c : Nat) (r : Request) (m : MessageT)
deriving DecidableEq

/-- The steps of a thread that concern its own server only and leave the list alone. -/
def isOwn : Act → Bool
  | .receive _ | .lock _ | .link _ | .alone _ | .release _ | .reply _ => true
  | _ => false

/-- One step of a chain of `n` servers without link failure. The successor is
reached through the connection that the predecessor holds to it. -/
def step (n : Nat) (t : AnoAtual) (s : Chain) : Label → Option Chain
  | .send i c r =>
    if i < n ∧ r.id = s.count then
      ((s.srv i).step t (.deliver (.client c) r)).map fun u =>
        { s.set i u with count := s.count + 1 }
    else none
  | .own i a => if isOwn a then ((s.srv i).step t a).map (s.set i) else none
  | .forward i c =>
    match (s.srv i).phase c with
    | .linked r =>
      ((s.srv i).step t (.forward c)).bind fun u =>
        ((s.srv (i + 1)).step t (.deliver .pred r)).map fun v => (s.set i u).set (i + 1) v
    | _ => none
  | .back i c =>
    match (s.srv (i + 1)).phase .pred with
    | .replied _ m =>
      ((s.srv i).step t (.back c (some m))).bind fun u =>
        ((s.srv (i + 1)).step t (.take .pred)).map fun v => (s.set i u).set (i + 1) v
    | _ => none
  | .invoke i c r =>
    if ((s.srv i).phase c).request = some r then ((s.srv i).step t (.invoke c)).map (s.set i)
    else none
  | .answer i c r m =>
    if (s.srv i).phase (.client c) = .replied r m then
      ((s.srv i).step t (.take (.client c))).map (s.set i)
    else none

def readSteps (i c : Nat) (r : Request) (m : MessageT) : List Label :=
  let d := Conn.client c
  [.send i c r, .own i (.receive d), .own i (.lock d), .invoke i d r, .own i (.release d),
    .own i (.reply d), .answer i c r m]

def writeSteps (c : Nat) (r : Request) (m : MessageT) : List Label :=
  let d := Conn.client c
  [.send 0 c r, .own 0 (.receive d), .own 0 (.lock d), .own 0 (.link d), .forward 0 d,
    .own 1 (.receive .pred), .own 1 (.lock .pred), .own 1 (.link .pred), .own 1 (.alone .pred),
    .invoke 1 .pred r, .own 1 (.release .pred), .own 1 (.reply .pred), .back 0 d, .invoke 0 d r,
    .own 0 (.release d), .own 0 (.reply d), .answer 0 c r m]

@[simp] theorem set_self (s : Chain) (i : Nat) (u : Server) : (s.set i u).srv i = u := if_pos rfl

@[simp] theorem set_ne (s : Chain) {i j : Nat} (u : Server) (h : j ≠ i) :
    (s.set i u).srv j = s.srv j := if_neg h

@[simp] theorem set_count (s : Chain) (i : Nat) (u : Server) : (s.set i u).count = s.count := rfl

section Inversion

variable {n : Nat} {t : AnoAtual} {s s' : Chain}

theorem step_send {i c : Nat} {r : Request} : step n t s (.send i c r) = some s' ↔
    i < n ∧ r.id = s.count ∧ (s.srv i).phase (.client c) = .idle ∧
      { s.set i ((s.srv i).setPhase (.client c) (.sent r)) with count := s.count + 1 } = s' := by
  simp only [step, Option.ite_none_right_eq_some, Option.map_eq_some_iff, step_deliver]
  constructor
  · rintro ⟨⟨hi, hr⟩, u, ⟨hp, rfl⟩, rfl⟩
    exact ⟨hi, hr, hp, rfl⟩
  · rintro ⟨hi, hr, hp, rfl⟩
    exact ⟨⟨hi, hr⟩, _, ⟨hp, rfl⟩, rfl⟩

theorem step_own {i : Nat} {a : Act} : step n t s (.own i a) = some s' ↔
    isOwn a = true ∧ ∃ u, (s.srv i).step t a = some u ∧ s.set i u = s' := by
  simp only [step, Option.ite_none_right_eq_some, Option.map_eq_some_iff]

theorem step_forward {i : Nat} {c : Conn} : step n t s (.forward i c) = some s' ↔
    ∃ r, (s.srv i).phase c = .linked r ∧ (s.srv i).next = true ∧
      (s.srv (i + 1)).phase .pred = .idle ∧
      (s.set i ((s.srv i).setPhase c (.waiting r))).set (i + 1)
        ((s.srv (i + 1)).setPhase .pred (.sent r)) = s' := by
  cases h : (s.srv i).phase c with
  | linked r =>
    simp only [step, h, Option.bind_eq_some_iff, Option.map_eq_some_iff, ClientThread.step_forward,
      step_deliver, Phase.linked.injEq]
    constructor
    · rintro ⟨u, ⟨_, rfl, hn, rfl⟩, v, ⟨hp, rfl⟩, rfl⟩
      exact ⟨_, rfl, hn, hp, rfl⟩
    · rintro ⟨_, rfl, hn, hp, rfl⟩
      exact ⟨_, ⟨_, rfl, hn, rfl⟩, _, ⟨hp, rfl⟩, rfl⟩
  | _ => simp [step, h]

theorem step_back {i : Nat} {c : Conn} : step n t s (.back i c) = some s' ↔
    ∃ r r' m, (s.srv i).phase c = .waiting r ∧ (s.srv (i + 1)).phase .pred = .replied r' m ∧
      (s.set i { (s.srv i).setPhase c (.forwarded r 0) with rlsLock := none }).set (i + 1)
        ((s.srv (i + 1)).setPhase .pred .idle) = s' := by
  cases h : (s.srv (i + 1)).phase .pred with
  | replied r' m =>
    simp only [step, h, Option.bind_eq_some_iff, Option.map_eq_some_iff, ClientThread.step_back,
      step_take, Phase.replied.injEq, zooForwardToSuccessor]
    constructor
    · rintro ⟨u, ⟨r, hw, rfl⟩, v, ⟨_, _, ⟨rfl, rfl⟩, rfl⟩, rfl⟩
      exact ⟨r, r', m, hw, ⟨rfl, rfl⟩, rfl⟩
    · rintro ⟨r, _, _, hw, ⟨rfl, rfl⟩, rfl⟩
      exact ⟨_, ⟨r, hw, rfl⟩, _, ⟨_, _, ⟨rfl, rfl⟩, rfl⟩, rfl⟩
  | _ => simp [step, h]

theorem step_invoke {i : Nat} {c : Conn} {r : Request} : step n t s (.invoke i c r) = some s' ↔
    ∃ rc, (((s.srv i).phase c = .locked r ∧ needsForward r.msg = false ∧ rc = 0) ∨
        (s.srv i).phase c = .forwarded r rc) ∧
      s.set i { (s.srv i).setPhase c (.invoked r (afterForward t rc r.msg (s.srv i).list).1) with
        list := (afterForward t rc r.msg (s.srv i).list).2 } = s' := by
  simp only [step, Option.ite_none_right_eq_some, Option.map_eq_some_iff, ClientThread.step_invoke]
  constructor
  · rintro ⟨hr, u, ⟨r', rc, hp, rfl⟩, rfl⟩
    obtain rfl : r' = r := by
      obtain ⟨hp, -⟩ | hp := hp <;> simpa [hp, Phase.request] using hr
    exact ⟨rc, hp, rfl⟩
  · rintro ⟨rc, hp, rfl⟩
    refine ⟨?_, _, ⟨r, rc, hp, rfl⟩, rfl⟩
    obtain ⟨hp, -⟩ | hp := hp <;> simp [hp, Phase.request]

theorem step_answer {i c : Nat} {r : Request} {m : MessageT} :
    step n t s (.answer i c r m) = some s' ↔
      (s.srv i).phase (.client c) = .replied r m ∧
        s.set i ((s.srv i).setPhase (.client c) .idle) = s' := by
  simp only [step, Option.ite_none_right_eq_some, Option.map_eq_some_iff, step_take]
  constructor
  · rintro ⟨hp, u, ⟨_, _, hq, rfl⟩, rfl⟩
    exact ⟨hp, rfl⟩
  · rintro ⟨hp, rfl⟩
    exact ⟨hp, _, ⟨r, m, hp, rfl⟩, rfl⟩

end Inversion

end ListServer.ChainSystem
