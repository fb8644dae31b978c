import ListServer.ClientStub
import Mathlib.Data.List.Basic

namespace ListServer.Forwarding

open Lib.CTypes CarData CarList Message Skeleton ClientThread ClientStub

/-- What becomes of one exchange with the successor: the reply arrives, the
request is not delivered, or it is handled and the reply gets lost. -/
inductive Exchange
  | ok
  | lost
  | replyLost
deriving DecidableEq, Repr

structure Replica where
  ano : AnoAtual
  list : ListT
deriving DecidableEq, Repr

/-- The effect of one request on a server and the servers below it. Executions
are listed in their order; a server is named by its distance from the first. -/
structure Outcome where
  reply : MessageT
  server : Replica
  below : List Replica
  executed : List Nat

/-- The rest of `client_thread` once the forward has returned. -/
def finish (msg : MessageT) (s : Replica) (fwdRc : Int) (below : List Replica)
    (executed : List Nat) : Outcome :=
  let p := afterForward s.ano fwdRc msg s.list
  ⟨p.1, { s with list := p.2 }, below,
    if fwdRc = -2 ∨ fwdRc = 0 then executed ++ [0] else executed⟩

/-- A request that is forwarded, at the first of the given servers. -/
def clientThread (msg : MessageT) : (Nat → Exchange) → Replica → List Replica → Outcome
  | _, s, [] => finish msg s (zooForwardToSuccessor false none) [] []
  | links, s, u :: rest =>
    let o := clientThread msg (fun j => links (j + 1)) u rest
    match links 0 with
    | .ok => finish msg s (zooForwardToSuccessor true (some o.reply)) (o.server :: o.below)
        (o.executed.map (· + 1))
    | .lost => finish msg s (zooForwardToSuccessor true none) (u :: rest) []
    | .replyLost => finish msg s (zooForwardToSuccessor true none) (o.server :: o.below)
        (o.executed.map (· + 1))

/-- An addition or a removal. -/
structure Write where
  msg : MessageT
  write : msg.opcode = opAdd ∨ msg.opcode = opDel

/-- The requests of a run one after the other, each with the fate of its exchanges. -/
def outcomes : Replica → List Replica → List (Write × (Nat → Exchange)) → List (Write × Outcome)
  | _, _, [] => []
  | s, rest, (w, links) :: ws =>
    let o := clientThread w.msg links s rest
    (w, o) :: outcomes o.server o.below ws

/-- Every server but the last executes after its successor. -/
def Successive (n : Nat) (executed : List Nat) : Prop :=
  ∀ l₁ i l₂, executed = l₁ ++ i :: l₂ → i + 1 < n → i + 1 ∈ l₁

structure Propagated (n : Nat) (msg : MessageT) (o : Outcome) : Prop where
  successive : Successive n o.executed
  acknowledged : o.reply.opcode = msg.opcode + 1 → ∀ i, i < n → i ∈ o.executed

/-- Of the exchanges that a request reaches, none that succeeds is followed by
one that fails. -/
def Unbroken (k : Nat) (links : Nat → Exchange) : Prop :=
  ∀ j, j + 1 < k → (∀ i, i < j → links i ≠ .lost) → links j = .ok → links (j + 1) = .ok

variable {msg : MessageT} {links : Nat → Exchange} {s u : Replica} {rest : List Replica} {n : Nat}

theorem clientThread_cons_ok (h : links 0 = .ok) :
    (clientThread msg links s (u :: rest)).executed =
      (clientThread msg (fun j => links (j + 1)) u rest).executed.map (· + 1) ++ [0] := by
  simp [clientThread, h, finish, zooForwardToSuccessor]

theorem clientThread_cons_lost (h : links 0 = .lost) :
    (clientThread msg links s (u :: rest)).executed = [] := by
  simp [clientThread, h, finish, zooForwardToSuccessor]

theorem clientThread_cons_replyLost (h : links 0 = .replyLost) :
    (clientThread msg links s (u :: rest)).executed =
      (clientThread msg (fun j => links (j + 1)) u rest).executed.map (· + 1) := by
  simp [clientThread, h, finish, zooForwardToSuccessor]

theorem zero_mem_executed (msg : MessageT) (links : Nat → Exchange) (s : Replica)
    (rest : List Replica) :
    0 ∈ (clientThread msg links s rest).executed ↔ (0 < rest.length → links 0 = .ok) := by
  cases rest with
  | nil => simp [clientThread, finish, zooForwardToSuccessor]
  | cons u rest =>
    cases h : links 0 with
    | ok => simp [clientThread_cons_ok h]
    | lost => simp [clientThread_cons_lost h]
    | replyLost => simp [clientThread_cons_replyLost h]

theorem length_below (msg : MessageT) (links : Nat → Exchange) (s : Replica)
    (rest : List Replica) : (clientThread msg links s rest).below.length = rest.length := by
  induction rest generalizing s links with
  | nil => rfl
  | cons u rest ih => cases h : links 0 <;> simp [clientThread, h, finish, ih]

theorem successive_map (n : Nat) (ex : List Nat) :
    Successive (n + 1) (ex.map (· + 1)) ↔ Successive n ex := by
  constructor
  · rintro h l₁ i l₂ rfl hi
    have hm := h (l₁.map (· + 1)) (i + 1) (l₂.map (· + 1)) (by simp) (by omega)
    simpa using hm
  · intro h l₁ i l₂ he hi
    obtain ⟨m₁, m', rfl, rfl, hm⟩ := List.map_eq_append_iff.mp he
    obtain ⟨a, m₂, rfl, rfl, rfl⟩ := List.map_eq_cons_iff.mp hm
    have hm := h m₁ a m₂ rfl (by omega)
    simpa using hm

theorem successive_append_zero (n : Nat) (ex : List Nat) :
    Successive n (ex ++ [0]) ↔ Successive n ex ∧ (1 < n → 1 ∈ ex) := by
  constructor
  · intro h
    refine ⟨fun l₁ i l₂ he hi => h l₁ i (l₂ ++ [0]) (by simp [he]) hi, fun hn => ?_⟩
    exact h ex 0 [] rfl hn
  · rintro ⟨h, h0⟩ l₁ i l₂ he hi
    obtain ⟨m, rfl, hm⟩ | ⟨m, rfl, hm⟩ := List.append_eq_append_iff.mp he
    · cases m with
      | nil =>
        obtain ⟨rfl, -⟩ : 0 = i ∧ [] = l₂ := by simpa using hm
        simpa using h0 hi
      | cons a m => simp at hm
    · cases m with
      | nil =>
        obtain ⟨rfl, -⟩ : i = 0 ∧ l₂ = [] := by simpa using hm
        simpa using h0 hi
      | cons a m =>
        obtain ⟨rfl, -⟩ := List.cons_eq_cons.mp hm
        exact h l₁ i m rfl hi

theorem unbroken_succ (k : Nat) (links : Nat → Exchange) :
    Unbroken (k + 1) links ↔ (links 0 = .ok → 0 < k → links 1 = .ok) ∧
      (links 0 ≠ .lost → Unbroken k fun j => links (j + 1)) := by
  constructor
  · intro h
    refine ⟨fun h0 hk => h 0 (by omega) (by simp) h0, fun h0 j hj hi => ?_⟩
    refine h (j + 1) (by omega) fun i hij => ?_
    cases i with
    | zero => exact h0
    | succ i => exact hi i (by omega)
  · rintro ⟨h1, h⟩ j hj hi hok
    cases j with
    | zero => exact h1 hok (by omega)
    | succ j =>
      exact h (hi 0 (by omega)) j (by omega) (fun i hij => hi (i + 1) (by omega)) hok

theorem successive_iff (msg : MessageT) (links : Nat → Exchange) (s : Replica)
    (rest : List Replica) :
    Successive (rest.length + 1) (clientThread msg links s rest).executed ↔
      Unbroken rest.length links := by
  induction rest generalizing s links with
  | nil =>
    constructor
    · exact fun _ j hj => absurd hj (by simp)
    · intro _ l₁ i l₂ _ hi
      simp at hi
  | cons u rest ih =>
    have hsub := (successive_map _ _).trans (ih (fun j => links (j + 1)) u)
    have hzero := zero_mem_executed msg (fun j => links (j + 1)) u rest
    rw [List.length_cons, unbroken_succ]
    cases h : links 0 with
    | ok =>
      rw [clientThread_cons_ok h, successive_append_zero, hsub]
      simp [hzero, and_comm]
    | lost =>
      rw [clientThread_cons_lost h]
      simp [Successive]
    | replyLost =>
      rw [clientThread_cons_replyLost h, hsub]
      simp

/-- Only an executed write gets the success opcode. -/
theorem zero_mem_of_acknowledged {w : Write}
    (h : (clientThread w.msg links s rest).reply.opcode = w.msg.opcode + 1) :
    0 ∈ (clientThread w.msg links s rest).executed := by
  have herr : opError ≠ w.msg.opcode + 1 := by
    obtain hw | hw := w.write <;> rw [hw] <;> decide
  rw [zero_mem_executed]
  intro hr
  cases rest with
  | nil => simp at hr
  | cons u rest =>
    by_contra hok
    cases h0 : links 0 with
    | ok => exact hok h0
    | lost | replyLost =>
      refine herr ?_
      simpa [clientThread, h0, finish, zooForwardToSuccessor, afterForward] using h

theorem Successive.all {ex : List Nat} (h : Successive n ex) (h0 : 0 ∈ ex) (i : Nat) (hi : i < n) :
    i ∈ ex := by
  induction i with
  | zero => exact h0
  | succ i ih =>
    obtain ⟨l₁, l₂, rfl⟩ := List.append_of_mem (ih (by omega))
    exact List.mem_append_left _ (h l₁ i l₂ rfl hi)

theorem propagated_iff (w : Write) (links : Nat → Exchange) (s : Replica) (rest : List Replica) :
    Propagated (rest.length + 1) w.msg (clientThread w.msg links s rest) ↔
      Unbroken rest.length links := by
  rw [← successive_iff w.msg links s rest]
  constructor
  · exact Propagated.successive
  · exact fun h => ⟨h, fun ha => h.all (zero_mem_of_acknowledged ha)⟩

/-- In a run, every write is executed behind its successor's execution, and an
acknowledged one everywhere, exactly when no exchange fails directly below one
that succeeds. -/
theorem writes_propagated_iff (s : Replica) (rest : List Replica)
    (ws : List (Write × (Nat → Exchange))) :
    (∀ p ∈ outcomes s rest ws, Propagated (rest.length + 1) p.1.msg p.2) ↔
      ∀ p ∈ ws, Unbroken rest.length p.2 := by
  induction ws generalizing s rest with
  | nil => simp [outcomes]
  | cons p ws ih =>
    obtain ⟨w, links⟩ := p
    generalize ho : clientThread w.msg links s rest = o
    have htail := ih o.server o.below
    rw [← ho, length_below, ho] at htail
    simp only [outcomes, List.forall_mem_cons, ho, htail]
    rw [← ho, propagated_iff]

def addToyota : Write := ⟨toyotaRequest 2020, .inl rfl⟩

def empty : Replica := ⟨.same 2026, listCreate⟩

def secondLinkLost (j : Nat) : Exchange := if j = 1 then .lost else .ok

/-- The first server then executes and acknowledges a write that no other
server has executed. -/
theorem write_not_propagated :
    (∃ p ∈ outcomes empty [empty, empty] [(addToyota, secondLinkLost)],
      p.2.reply.opcode = opAdd + 1 ∧ p.2.executed = [0]) ∧
    ¬ ∀ p ∈ outcomes empty [empty, empty] [(addToyota, secondLinkLost)],
      Propagated 3 p.1.msg p.2 := by
  refine ⟨⟨_, List.mem_singleton.mpr rfl, by decide, by decide⟩, fun h => ?_⟩
  have h1 := (h _ (List.mem_singleton.mpr rfl)).acknowledged (by decide) 1 (by omega)
  revert h1
  decide

end ListServer.Forwarding
