import ListServer.Clocks
import ListServer.ChainServer
import ListServer.Lib.Transition

namespace ListServer.Link

open Lib.CTypes Lib.Transition
open CarList Skeleton ClientThread ClientStub ChainServer Forwarding Clocks

/-- A server, the one that follows it, its `rl_next_server`, and for each write
so far the servers that have executed it. -/
structure State where
  first : Replica
  second : Replica
  next : Option CString
  log : List (List Nat)

def State.start (ano : Int) (list : ListT) (addr : CString) : State :=
  ⟨⟨.same ano, list⟩, ⟨.same ano, list⟩, some addr, []⟩

inductive Op
  | write (w : Write) (x : Exchange)
  | update (children : List CString) (zooGet : CString → Option CString)
      (rlistConnect : CString → Bool)

/-- A write at the first server. Without a successor nothing is exchanged. -/
def handle (next : Bool) (w : Write) (x : Exchange) (s u : Replica) : Outcome :=
  if next then clientThread w.msg (fun _ => x) s [u]
  else finish w.msg s (zooForwardToSuccessor false none) [u] []

def step (lower : Int) (s : State) : Op → Option State
  | .write w x =>
    let o := handle s.next.isSome w x s.first s.second
    some ⟨o.server, o.below.headD s.second, s.next, o.executed :: s.log⟩
  | .update children zooGet rlistConnect =>
    some { s with next := update lower children zooGet rlistConnect s.next }

def BothOrNeither (executed : List Nat) : Prop := 0 ∈ executed ↔ 1 ∈ executed

structure Atomic (s : State) : Prop where
  executed : ∀ ex ∈ s.log, BothOrNeither ex
  equal : cars s.first.list = cars s.second.list

/-- What is asked of the writes: there is a successor, and its reply is not lost. -/
def Answered (s : State) : Op → Prop
  | .write _ x => s.next.isSome ∧ x ≠ .replyLost
  | .update .. => True

theorem handle_alone (w : Write) (x : Exchange) (s u : Replica) :
    (handle false w x s u).executed = [0] := rfl

theorem handle_ok (w : Write) (s u : Replica) :
    handle true w .ok s u =
      ⟨reply s.ano w.msg s.list, execute w.msg s, [execute w.msg u], [1, 0]⟩ := rfl

theorem handle_lost (w : Write) (s u : Replica) :
    (handle true w .lost s u).executed = [] ∧ (handle true w .lost s u).server = s ∧
      (handle true w .lost s u).below = [u] := ⟨rfl, rfl, rfl⟩

theorem handle_replyLost (w : Write) (s u : Replica) :
    (handle true w .replyLost s u).executed = [1] := rfl

theorem bothOrNeither_iff (next : Bool) (w : Write) (x : Exchange) (s u : Replica) :
    BothOrNeither (handle next w x s u).executed ↔ next = true ∧ x ≠ .replyLost := by
  cases next with
  | false => simp [handle_alone, BothOrNeither]
  | true =>
    cases x with
    | ok => simp [handle_ok, BothOrNeither]
    | lost => simp [(handle_lost w s u).1, BothOrNeither]
    | replyLost => simp [handle_replyLost, BothOrNeither]

theorem step_executed {lower : Int} {s t : State} {op : Op} (h : ∀ ex ∈ s.log, BothOrNeither ex)
    (hs : step lower s op = some t) : (∀ ex ∈ t.log, BothOrNeither ex) ↔ Answered s op := by
  cases op with
  | write w x =>
    obtain rfl := Option.some.inj hs
    simp only [List.forall_mem_cons, bothOrNeither_iff, Answered]
    exact and_iff_left h
  | update children zooGet rlistConnect =>
    obtain rfl := Option.some.inj hs
    exact iff_of_true h trivial

/-- While writes are answered the second server is a copy of the first one. -/
theorem step_equal {lower : Int} {s t : State} {op : Op} (h : s.first = s.second)
    (hg : Answered s op) (hs : step lower s op = some t) : t.first = t.second := by
  cases op with
  | write w x =>
    obtain rfl := Option.some.inj hs
    obtain ⟨hn, hx⟩ := hg
    simp only [hn]
    cases x with
    | ok => simp [handle_ok, h]
    | lost =>
      obtain ⟨-, h1, h2⟩ := handle_lost w s.first s.second
      simpa [h1, h2] using h
    | replyLost => exact absurd rfl hx
  | update children zooGet rlistConnect =>
    obtain rfl := Option.some.inj hs
    exact h

/-- In a run, writes are atomic across the link exactly if each of them finds a
successor and none is executed there with its reply lost. -/
theorem writes_atomic_iff (lower ano : Int) (list : ListT) (addr : CString) (ops : List Op) :
    (∀ ks ms t, ops = ks ++ ms → run (step lower) (.start ano list addr) ks = some t → Atomic t) ↔
      Meets (step lower) Answered (.start ano list addr) ops := by
  have hiff := reached_iff_meets (step lower) (I := fun s => ∀ ex ∈ s.log, BothOrNeither ex)
    (fun s op => by cases op <;> exact ⟨_, rfl⟩) (fun s op t => step_executed)
    (s := .start ano list addr) (by simp [State.start]) ops
  constructor
  · intro h
    exact hiff.mp fun ks ms t he ht => (h ks ms t he ht).executed
  · intro h ks ms t he ht
    have heq := reached_invariant (step lower) (I := fun s => s.first = s.second)
      (fun s op t hst hg hs => step_equal hst hg hs) rfl h ks ms t he ht
    exact ⟨hiff.mpr h ks ms t he ht, by rw [heq]⟩

def addToyota : Op := .write Forwarding.addToyota .replyLost

/-- The successor has executed the write and the server has not. -/
theorem write_not_atomic :
    ¬ ∀ ks ms t, [addToyota] = ks ++ ms →
      run (step 0) (.start 2026 listCreate (ofBytes [97])) ks = some t → Atomic t := by
  intro h
  have hex := (h [addToyota] [] _ rfl rfl).executed [1] (by decide)
  revert hex
  simp [BothOrNeither]

end ListServer.Link
